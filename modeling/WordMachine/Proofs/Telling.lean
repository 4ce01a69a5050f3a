import WordMachine.Proofs.Watchpoints

/-!
# WordMachine.Proofs.Telling

What the hooks of a session tell its observer. `Tracker.Told` says which events lie between two
trackers: it knows the source line that counts as reported last, and that no line is told of twice
in a row. The lines themselves follow from the instructions that are retired (`Tracker.Reports`).
`Tracker.Tells` puts both together with the event for which a run stops. It is shown of each of the
hooks, and carries over to what comes next as long as nothing has stopped (`Tracker.Tells.trans`).
-/

namespace WordMachine

namespace Event

/-- The source line that the event tells of. -/
def line? : Event → Option SourceLocation
  | location l => some l
  | _ => none

/-- The source lines that events tell of. -/
def lines (es : List Event) : List SourceLocation := es.filterMap line?

@[simp] theorem lines_nil : lines [] = [] := rfl

@[simp] theorem lines_append (es es' : List Event) : lines (es ++ es') = lines es ++ lines es' :=
  List.filterMap_append ..

/-- Whether a run may tell the event and go on: a source line, or a lag if it is held back. -/
def Underway (held : Prop) (e : Event) : Prop := (∃ l, e = location l) ∨ held ∧ ∃ c, e = lagging c

/-- A run that is not held back tells of nothing but source lines on its way. -/
theorem eq_map_lines : ∀ {es : List Event}, (∀ e ∈ es, e.Underway False) →
    es = (lines es).map location := by
  intro es
  induction es with
  | nil => intro _; rfl
  | cons e es ih =>
    intro h
    rw [List.forall_mem_cons] at h
    rcases h.1 with ⟨l, rfl⟩ | ⟨hheld, -⟩
    · exact congrArg (location l :: ·) (ih h.2)
    · exact hheld.elim

end Event

namespace Tracker

variable {o : Observer} {d : Option DebugInfo} {g : Goal} {t t₁ t' : Tracker} {r : StepReport}
  {rs rs' : List StepReport} {es es' : List Event} {e : Event} {e? : Option Event} {pc : Word}
  {l : SourceLocation} {ls ls' : List SourceLocation} {last : Option SourceLocation}
  {line? : Word → Option SourceLocation} {held : Prop}

/-! ## The events between two trackers -/

/-- Between two trackers lie these events. The source line that counts as reported last is that of
the last of them, and no line is told of twice in a row. -/
structure Told (t : Tracker) (es : List Event) (t' : Tracker) : Prop where
  events : t'.events = es.reverse ++ t.events
  location : t'.location = (Event.lines es).getLast?.or t.location
  changing : (t.location.toList ++ Event.lines es).IsChain (· ≠ ·)

namespace Told

theorem nil (hevents : t'.events = t.events) (hlocation : t'.location = t.location) :
    Told t [] t' where
  events := hevents
  location := hlocation
  changing := by cases t.location <;> simp

/-- An event that tells of no source line. -/
theorem other (hline : e.line? = none) (hevents : t'.events = e :: t.events)
    (hlocation : t'.location = t.location) : Told t [e] t' where
  events := hevents
  location := by simpa [Event.lines, hline] using hlocation
  changing := by cases t.location <;> simp [Event.lines, hline]

theorem line (hnew : t.location ≠ some l) (hevents : t'.events = .location l :: t.events)
    (hlocation : t'.location = some l) : Told t [.location l] t' where
  events := hevents
  location := by simpa [Event.lines, Event.line?] using hlocation
  changing := by
    cases hl : t.location with
    | none => simp [Event.lines, Event.line?]
    | some k => simpa [Event.lines, Event.line?, hl] using hnew

theorem trans (h : Told t es t₁) (h' : Told t₁ es' t') : Told t (es ++ es') t' where
  events := by rw [h'.events, h.events, List.reverse_append, List.append_assoc]
  location := by
    rw [h'.location, h.location, Event.lines_append, List.getLast?_append, Option.or_assoc]
  changing := by
    -- The first line of the second part follows the one that the first part left.
    have hlast : ∀ x : Option SourceLocation, x.toList.getLast? = x := fun x => by
      cases x <;> rfl
    have hrest := List.isChain_append.1 h'.changing
    rw [Event.lines_append, ← List.append_assoc, List.isChain_append]
    refine ⟨h.changing, hrest.2.1, fun x hx y hy => hrest.2.2 x ?_ y hy⟩
    rw [List.getLast?_append, hlast, ← h.location] at hx
    rwa [hlast]

end Told

/-! ## The lines that instructions report -/

/-- Whether the run may report a source line after an instruction: it neither halts nor returns to
the sentinel nor triggers a watchpoint. -/
def Arrives (t : Tracker) (r : StepReport) : Prop :=
  r.opcode ≠ .halt ∧ r.nextPc ≠ sentinel ∧ ¬ t.Triggers r

/-- Whether an instruction arrives where a line begins other than the one reported last. -/
def Reaches (t : Tracker) (line? : Word → Option SourceLocation) (last : Option SourceLocation)
    (r : StepReport) (l : SourceLocation) : Prop :=
  t.Arrives r ∧ line? r.nextPc = some l ∧ last ≠ some l

/-- Instructions that are retired one after the other report these source lines: each of them one
line if it reaches one, and else none. -/
inductive Reports (t : Tracker) (line? : Word → Option SourceLocation) :
    Option SourceLocation → List StepReport → List SourceLocation → Prop where
  | nil {last : Option SourceLocation} : Reports t line? last [] []
  | new {last : Option SourceLocation} {l : SourceLocation} {r : StepReport}
      {rs : List StepReport} {ls : List SourceLocation} (hnew : t.Reaches line? last r l)
      (hrest : Reports t line? (some l) rs ls) : Reports t line? last (r :: rs) (l :: ls)
  | old {last : Option SourceLocation} {r : StepReport} {rs : List StepReport}
      {ls : List SourceLocation} (hold : ∀ l, ¬ t.Reaches line? last r l)
      (hrest : Reports t line? last rs ls) : Reports t line? last (r :: rs) ls

theorem Reaches.congr (h : t.Reaches line? last r l)
    (hsame : t.watchpoints.settings = t'.watchpoints.settings) : t'.Reaches line? last r l :=
  ⟨⟨h.1.1, h.1.2.1, fun htriggers => h.1.2.2 (htriggers.congr hsame.symm)⟩, h.2⟩

namespace Reports

theorem congr (h : Reports t line? last rs ls)
    (hsame : t.watchpoints.settings = t'.watchpoints.settings) : Reports t' line? last rs ls := by
  induction h with
  | nil => exact .nil
  | new hnew _ ih => exact .new (hnew.congr hsame) ih
  | old hold _ ih => exact .old (fun l h => hold l (h.congr hsame.symm)) ih

theorem append (h : Reports t line? last rs ls)
    (h' : Reports t line? (ls.getLast?.or last) rs' ls') :
    Reports t line? last (rs ++ rs') (ls ++ ls') := by
  induction h with
  | nil => exact h'
  | @new last l r rs ls hnew _ ih =>
    refine .new hnew (ih ?_)
    rw [List.getLast?_cons, Option.some_or] at h'
    rwa [Option.or_some]
  | old hold _ ih => exact .old hold (ih h')

end Reports

/-- What a run does about events between two trackers: it tells the first events on its way and the
last one, if there is one, as it stops. -/
structure Tells (held : Prop) (line? : Word → Option SourceLocation) (t : Tracker)
    (rs : List StepReport) (es : List Event) (e? : Option Event) (t' : Tracker) : Prop where
  told : Told t (es ++ e?.toList) t'
  underway : ∀ e ∈ es, e.Underway held
  reports : Reports t line? t.location rs (Event.lines es)
  watchpoints : t'.watchpoints.settings = t.watchpoints.settings

namespace Tells

/-- Nothing is told and no instruction retired. -/
theorem nothing (hevents : t'.events = t.events) (hlocation : t'.location = t.location)
    (hwatchpoints : t'.watchpoints.settings = t.watchpoints.settings) :
    Tells held line? t [] [] none t' where
  told := .nil hevents hlocation
  underway := by simp
  reports := .nil
  watchpoints := hwatchpoints

theorem trans (h : Tells held line? t rs es none t₁) (h' : Tells held line? t₁ rs' es' e? t') :
    Tells held line? t (rs ++ rs') (es ++ es') e? t' := by
  have htold : Told t es t₁ := by simpa using h.told
  refine ⟨?_, fun e he => ?_, ?_, h'.watchpoints.trans h.watchpoints⟩
  · rw [List.append_assoc]
    exact htold.trans h'.told
  · rcases List.mem_append.1 he with he | he
    · exact h.underway e he
    · exact h'.underway e he
  · have hrest := h'.reports.congr h.watchpoints
    rw [htold.location] at hrest
    rw [Event.lines_append]
    exact h.reports.append hrest

/-- The run stops with an event that is no source line. -/
theorem concluded (h : Tells held line? t rs es none t₁) (hline : e.line? = none)
    (hevents : t'.events = e :: t₁.events) (hlocation : t'.location = t₁.location)
    (hwatchpoints : t'.watchpoints = t₁.watchpoints) : Tells held line? t rs es (some e) t' where
  told := by
    have htold := h.told.trans (.other hline hevents hlocation)
    simpa using htold
  underway := h.underway
  reports := h.reports
  watchpoints := by rw [hwatchpoints, h.watchpoints]

end Tells

/-! ## What the hooks tell -/

/-- Before an instruction the hooks tell of the breakpoint for which they stop. -/
theorem tells_before (held : Prop) (line? : Word → Option SourceLocation) (pc : Word) :
    ((before o t pc).stop = none ∧ Tells held line? t [] [] none (before o t pc).state) ∨
      ∃ b, (before o t pc).stop = some (.breakpoint b.id) ∧
        Tells held line? t [] [] (some (.breakpoint b pc)) (before o t pc).state := by
  simp only [before]
  split
  · exact .inl ⟨rfl, .nothing rfl rfl rfl⟩
  · split
    · exact .inl ⟨rfl, .nothing rfl rfl rfl⟩
    · rename_i b breakpoints _
      exact .inr ⟨b, rfl, (Tells.nothing rfl rfl rfl).concluded rfl rfl rfl rfl⟩

/-- A line other than the one reported last is told of. -/
theorem told_arrive (pc : Word) :
    (∃ l, d.bind (·.exactLocation? pc) = some l ∧ t.location ≠ some l ∧
        Told t [.location l] (t.arrive o d g pc).state) ∨
      (∀ l, d.bind (·.exactLocation? pc) = some l → t.location = some l) ∧
        Told t [] (t.arrive o d g pc).state := by
  rcases hl : d.bind (·.exactLocation? pc) with _ | l
  · refine .inr ⟨by simp, .nil ?_ ?_⟩ <;> simp only [arrive, hl]
  · by_cases hsame : t.location = some l
    · refine .inr ⟨fun k hk => hk ▸ hsame, .nil ?_ ?_⟩ <;>
        simp only [arrive, hl, moveTo, hsame, if_true]
    · refine .inl ⟨l, rfl, hsame, .line hsame ?_ ?_⟩ <;>
        simp only [arrive, hl, moveTo, hsame, if_false, notify]

/-- After an instruction the hooks tell of the watchpoint for which they stop, and otherwise of the
line that the instruction reaches. -/
theorem tells_after (held : Prop) (hhalt : r.opcode ≠ .halt) (hnext : r.nextPc ≠ sentinel) :
    (∃ w x, (after o d g t r).stop = some (.watchpoint w.id) ∧
        Tells held (fun a => d.bind (·.exactLocation? a)) t [r] [] (some (.watchpoint w x))
          (after o d g t r).state) ∨
      (∀ id, (after o d g t r).stop ≠ some (.watchpoint id)) ∧
        ∃ es, Tells held (fun a => d.bind (·.exactLocation? a)) t [r] es none
          (after o d g t r).state := by
  rcases watched?_ends (t := { t with skip := none, calls := t.calls.observe r.pc r.transfer })
    (r := r) with ⟨hnone, hnot⟩ | ⟨x, w, watchpoints, hsome, htrips, hsame⟩
  · have hnot' : ¬ t.Triggers r := hnot
    simp only [after, hnone]
    refine .inr ⟨fun id => stop_arrive_ne, ?_⟩
    rcases told_arrive (o := o) (d := d) (g := g)
      (t := { t with skip := none, calls := t.calls.observe r.pc r.transfer }) r.nextPc with
      ⟨l, hl, hnew, htold⟩ | ⟨hold, htold⟩
    · refine ⟨[.location l], ⟨htold.events, htold.location, htold.changing⟩, ?_, ?_, ?_⟩
      · simpa using .inl ⟨l, rfl⟩
      · exact .new ⟨⟨hhalt, hnext, hnot'⟩, hl, hnew⟩ .nil
      · rw [watchpoints_arrive]
    · refine ⟨[], ⟨htold.events, htold.location, htold.changing⟩, by simp, ?_, ?_⟩
      · exact .old (fun l h => h.2.2 (hold l h.2.1)) .nil
      · rw [watchpoints_arrive]
  · have htriggers : t.Triggers r := htrips.triggers
    simp only [after, hsome]
    refine .inl ⟨w, x, rfl, .other rfl rfl rfl, by simp, ?_, hsame⟩
    exact .old (fun l h => h.1.2.2 htriggers) .nil

theorem tells_lagging {cycles : Nat} (hheld : held) :
    Tells held line? t [] [.lagging cycles] none (lagging o t cycles).state where
  told := .other rfl rfl rfl
  underway := by simpa using .inr ⟨hheld, cycles, rfl⟩
  reports := .nil
  watchpoints := rfl

end Tracker

end WordMachine
