import WordMachine.Proofs.SideBySide

/-!
# WordMachine.Proofs.StopCounts

The count of a point is the number of stops that commands have reported for it since it was set.
The hooks count a stop where they find it, deep inside a run; a command reports one stop, at its
end. The two agree because a run goes on only after rounds in which nothing was counted
(`Machine.Advances.counts`), and a step by source lines only after lines that no point has ended
(`Session.stepLinesFrom_counts`).

What a command makes of a table is the same for both kinds of points (`PointTable.Grows`), and so is
what a whole history makes of it (`Session.hits_performAll`). The kinds are put together in
`Session.performAll_countsStops`.
-/

namespace WordMachine

/-- The stops that a command counts at the points of a kind: one at the point that it reports. -/
def tally (kind : Nat → Stop) (stop? : Option Stop) (id : Nat) : Nat :=
  if stop? = some (kind id) then 1 else 0

/-! ## What becomes of a table -/

namespace PointTable

variable {κ : Type} {kind : Nat → Stop} {t t' : PointTable κ} {stop? : Option Stop}

theorem withHits_tally_of_ne (h : ∀ id, stop? ≠ some (kind id)) :
    t.withHits (tally kind stop?) = t := by
  refine eq_of_points ?_ rfl
  have hself : ∀ p ∈ t.points, p.withHits (tally kind stop?) = p := fun p _ => by
    simp only [Point.withHits, tally, if_neg (h p.id), Nat.zero_add]
  exact (List.map_congr_left hself).trans (List.map_id _)

/-- A table in which a point was found has counted one stop at that point. -/
theorem eq_withHits_of_hit? {applies : κ → Bool} {b : Point κ} (hkind : Function.Injective kind)
    (h : t.hit? applies = some (b, t')) : t' = t.withHits (tally kind (some (kind b.id))) := by
  obtain ⟨p, -, rfl, rfl⟩ := hit?_eq_some h
  refine eq_of_points (List.map_congr_left fun q _ => ?_) rfl
  by_cases hq : q.id = p.id
  · simp [changed, Point.withHits, tally, hq, Nat.add_comm]
  · have hne : kind p.id ≠ kind q.id := fun heq => hq (hkind heq).symm
    simp [changed, Point.withHits, tally, hq, hne]

/-- What a command makes of a table. It may set a point under the next number or take points away;
the points that stay count the stop that it reports. -/
structure Grows (kind : Nat → Stop) (t t' : PointTable κ) (given? : Option Nat)
    (stop? : Option Stop) : Prop where
  nextId : given? = none ∧ t'.nextId = t.nextId ∨
    given? = some t.nextId ∧ t'.nextId = t.nextId + 1
  points : ∀ b ∈ t'.points, given? = some b.id ∧ b.hits = 0 ∨
    ∃ b₀ ∈ t.points, b₀.id = b.id ∧ b.hits = b₀.hits + tally kind stop? b.id

namespace Grows

theorem withHits (stop? : Option Stop) :
    Grows kind t (t.withHits (tally kind stop?)) none stop? := by
  refine ⟨.inl ⟨rfl, rfl⟩, fun b hb => .inr ?_⟩
  obtain ⟨b₀, hb₀, rfl⟩ := List.mem_map.1 hb
  exact ⟨b₀, hb₀, rfl, Nat.add_comm _ _⟩

theorem refl : Grows kind t t none none := by
  have hcounted : Grows kind t (t.withHits (tally kind none)) none none := withHits none
  rwa [withHits_tally_of_ne (by simp)] at hcounted

theorem insert (site : κ) : Grows kind t (t.insert site).2 (some (t.insert site).1) none := by
  refine ⟨.inr ⟨rfl, rfl⟩, fun b hb => ?_⟩
  rcases List.mem_append.1 hb with hb | hb
  · exact .inr ⟨b, hb, rfl, rfl⟩
  · rw [List.mem_singleton.1 hb]
    exact .inl ⟨rfl, rfl⟩

theorem erase (id : Nat) : Grows kind t (t.erase id) none none :=
  ⟨.inl ⟨rfl, rfl⟩, fun b hb => .inr ⟨b, List.mem_of_mem_filter hb, rfl, rfl⟩⟩

theorem setEnabled (id : Nat) (enabled : Bool) :
    Grows kind t (t.setEnabled id enabled) none none := by
  refine ⟨.inl ⟨rfl, rfl⟩, fun b hb => .inr ?_⟩
  obtain ⟨b₀, hb₀, rfl⟩ := List.mem_map.1 hb
  refine ⟨b₀, hb₀, (id_changed _ _ _).symm, ?_⟩
  rw [changed]
  split <;> rfl

end Grows
end PointTable

/-! ## Runs -/

namespace Stop

/-- Whether a point has stopped a run. -/
def isPoint : Stop → Bool
  | breakpoint _ | watchpoint _ => true
  | _ => false

end Stop

theorem Budget.Plain.not_isPoint {b : Budget} (h : b.Plain) : b.exhausted.isPoint = false := by
  rcases h with h | h | h <;> rw [h] <;> rfl

namespace Tracker

variable {o : Observer} {d : Option DebugInfo} {g : Goal} {t t₁ t' : Tracker} {r : StepReport}
  {pc : Word} {lag : Nat} {stop? stop₁? : Option Stop}

/-- The points are those of before, and have counted the stop. -/
structure Counts (t t' : Tracker) (stop? : Option Stop) : Prop where
  breakpoints : t'.breakpoints = t.breakpoints.withHits (tally Stop.breakpoint stop?)
  watchpoints : t'.watchpoints = t.watchpoints.withHits (tally Stop.watchpoint stop?)

namespace Counts

theorem of_kept (hbreakpoints : t'.breakpoints = t.breakpoints)
    (hwatchpoints : t'.watchpoints = t.watchpoints)
    (hstop : ∀ stop ∈ stop?, stop.isPoint = false) : Counts t t' stop? := by
  refine ⟨?_, ?_⟩
  · rw [hbreakpoints, PointTable.withHits_tally_of_ne fun id h => by cases hstop _ h]
  · rw [hwatchpoints, PointTable.withHits_tally_of_ne fun id h => by cases hstop _ h]

theorem keeps (h : Counts t t' stop?) (hstop : ∀ stop ∈ stop?, stop.isPoint = false) :
    t'.breakpoints = t.breakpoints ∧ t'.watchpoints = t.watchpoints := by
  refine ⟨h.breakpoints.trans ?_, h.watchpoints.trans ?_⟩
  · exact PointTable.withHits_tally_of_ne fun id h => by cases hstop _ h
  · exact PointTable.withHits_tally_of_ne fun id h => by cases hstop _ h

/-- What is counted after nothing was counted is all that is counted. -/
theorem trans (h₁ : Counts t t₁ stop₁?) (hstop : ∀ stop ∈ stop₁?, stop.isPoint = false)
    (h : Counts t₁ t' stop?) : Counts t t' stop? := by
  obtain ⟨hbreakpoints, hwatchpoints⟩ := h₁.keeps hstop
  exact ⟨hbreakpoints ▸ h.breakpoints, hwatchpoints ▸ h.watchpoints⟩

end Counts

theorem before_counts (pc : Word) :
    Counts t (before o t pc).state ((before o t pc).stop.map HookStop.toStop) := by
  simp only [before]
  split
  · exact .of_kept rfl rfl (by simp)
  · split
    · exact .of_kept rfl rfl (by simp)
    · rename_i b breakpoints hhit
      refine ⟨?_, (PointTable.withHits_tally_of_ne (by simp [HookStop.toStop])).symm⟩
      exact PointTable.eq_withHits_of_hit? (fun _ _ => Stop.breakpoint.inj) hhit

theorem not_isPoint_arrive :
    ∀ stop ∈ (t.arrive o d g pc).stop.map HookStop.toStop, stop.isPoint = false := by
  intro stop hstop
  obtain ⟨hookStop, harrive, rfl⟩ := Option.map_eq_some_iff.1 hstop
  simp only [arrive, ite_eq_iff] at harrive
  rcases harrive with ⟨-, h⟩ | ⟨-, ⟨-, h⟩ | ⟨-, h⟩⟩ <;> cases h <;> rfl

theorem eq_withHits_of_watched? {x : Option Access} {z : Access} {w : Point Watch}
    {watchpoints : PointTable Watch} (h : t.watched? x = some (z, w, watchpoints)) :
    watchpoints = t.watchpoints.withHits (tally Stop.watchpoint (some (.watchpoint w.id))) := by
  simp only [watched?, Option.bind_eq_bind, Option.bind_eq_some_iff, Option.pure_def,
    Option.some.injEq, Prod.mk.injEq] at h
  obtain ⟨x, -, ⟨w', watchpoints'⟩, hhit, -, rfl, rfl⟩ := h
  exact PointTable.eq_withHits_of_hit? (fun _ _ => Stop.watchpoint.inj) hhit

theorem after_counts (r : StepReport) :
    Counts t (after o d g t r).state ((after o d g t r).stop.map HookStop.toStop) := by
  simp only [after]
  split
  · rename_i x w watchpoints hwatched
    refine ⟨(PointTable.withHits_tally_of_ne (by simp [HookStop.toStop])).symm, ?_⟩
    exact eq_withHits_of_watched? hwatched
  · exact .of_kept arrive_keeps.1 watchpoints_arrive not_isPoint_arrive

theorem lagging_counts (lag : Nat) :
    Counts t (lagging o t lag).state ((lagging o t lag).stop.map HookStop.toStop) := by
  refine .of_kept rfl rfl fun stop hstop => ?_
  obtain ⟨hookStop, hlagging, rfl⟩ := Option.map_eq_some_iff.1 hstop
  rw [stop_lagging hlagging]
  rfl

end Tracker

namespace Machine

variable {o : Observer} {d : Option DebugInfo} {g : Goal} {m m' : Machine}
  {p p' : Progress Tracker} {r : StepReport} {rs : List StepReport} {stop? : Option Stop}

theorem Settled.counts (hs : Settled (Tracker.hooks o d g) m p r stop? m' p') :
    p.hooks.Counts p'.hooks stop? := by
  have hafter : p.hooks.Counts ((Tracker.hooks o d g).after p.hooks r).state
      (((Tracker.hooks o d g).after p.hooks r).stop.map HookStop.toStop) := Tracker.after_counts r
  cases hs with
  | halted _ => exact .of_kept rfl rfl (by simp [Stop.isPoint])
  | returned _ _ => exact .of_kept rfl rfl (by simp [Stop.isPoint])
  | held _ _ ha hstop =>
    subst ha
    rw [hstop] at hafter
    exact hafter
  | paced _ _ ha hgo hpace =>
    subst ha
    rw [hgo] at hafter
    rcases pace_ends hpace with ⟨rfl, -, hkept⟩ | ⟨lag, rfl, -, hlagging⟩
    · rw [hkept]
      exact hafter
    · rw [hlagging]
      exact hafter.trans (by simp) (Tracker.lagging_counts lag)

theorem Round.counts (hr : Round (Tracker.hooks o d g) m p rs stop? m' p') :
    p.hooks.Counts p'.hooks stop? := by
  have hbefore : p.hooks.Counts ((Tracker.hooks o d g).before p.hooks m.registers.pc).state
      (((Tracker.hooks o d g).before p.hooks m.registers.pc).stop.map HookStop.toStop) :=
    Tracker.before_counts m.registers.pc
  cases hr with
  | interrupted _ => exact .of_kept rfl rfl (by simp [Stop.isPoint])
  | returned _ => exact .of_kept rfl rfl (by simp [Stop.isPoint])
  | held _ ha hstop =>
    subst ha
    rw [hstop] at hbefore
    exact hbefore
  | faulted _ ha hgo _ =>
    subst ha
    rw [hgo] at hbefore
    exact hbefore.trans (by simp) (.of_kept rfl rfl (by simp [Stop.isPoint]))
  | retired _ ha hgo _ hsettled =>
    subst ha
    rw [hgo] at hbefore
    exact hbefore.trans (by simp) hsettled.counts

/-- As long as a run goes on, it counts nothing. -/
theorem Advances.counts (ha : Advances (Tracker.hooks o d g) rs m p m' p') :
    p.hooks.Counts p'.hooks none := by
  induction ha with
  | nil => exact .of_kept rfl rfl (by simp)
  | cons hround _ ih => exact hround.counts.trans (by simp) ih

end Machine

namespace Session

open Machine

variable {s s' : Session} {b : Budget} {g : Goal} {r : RunResult} {c : Command}

theorem drive_counts (hb : b.Plain) (hd : s.drive b g = (r, s')) :
    s.tracker.Counts s'.tracker (some r.stop) := by
  have hconclude : ∀ s₁ : Session, s.tracker.Counts s₁.tracker (some r.stop) →
      s.tracker.Counts (s₁.conclude r).tracker (some r.stop) := fun s₁ h =>
    ⟨breakpoints_conclude.trans h.breakpoints, watchpoints_conclude.trans h.watchpoints⟩
  rcases drive_ends hd with ⟨stop, hstopped, rfl, rfl⟩ |
    ⟨-, rs, m₁, p₁, stop, rs', m', p', hruns, rfl, rfl⟩
  · refine hconclude s (.of_kept rfl rfl ?_)
    rintro _ ⟨⟩
    have hnot := (stop_of_stopped hstopped).2
    cases stop with
    | breakpoint id => exact absurd rfl (hnot id).1
    | watchpoint id => exact absurd rfl (hnot id).2
    | _ => rfl
  · refine hconclude _ (hruns.advances.counts.trans (by simp) ?_)
    rcases hruns.ends with ⟨-, hexhausted, -, rfl⟩ | hround
    · refine .of_kept rfl rfl ?_
      rintro _ ⟨⟩
      exact hexhausted ▸ hb.not_isPoint
    · exact hround.counts

theorem stepLinesFrom_counts {d : DebugInfo} :
    ∀ {n : Nat} {s : Session} {total : RunResult}, total.stop.isPoint = false →
      stepLinesFrom d s total n = (r, s') → s.tracker.Counts s'.tracker (some r.stop) := by
  intro n
  induction n with
  | zero =>
    intro s total htotal hs
    cases hs
    refine .of_kept rfl rfl ?_
    rintro _ ⟨⟩
    exact htotal
  | succ n ih =>
    intro s total _ hs
    rcases hd : s.drive (.line s.lineLimit) (.line (d.locationAt? s.pc)) with ⟨r₁, s₁⟩
    have hcounts := drive_counts (Budget.plain_line _) hd
    simp only [stepLinesFrom, hd] at hs
    split at hs
    · rename_i hcomplete
      have hnot : r₁.stop.isPoint = false := by rw [hcomplete]; rfl
      refine hcounts.trans ?_ (ih ?_ hs)
      · rintro _ ⟨⟩
        exact hnot
      · exact hnot
    · cases hs
      exact hcounts

theorem counts_of_runs (hc : c.runs) : ∃ r s', s.perform c = (some r, s') ∧
    s.tracker.Counts s'.tracker (some r.stop) := by
  rcases perform_of_runs (s := s) hc with ⟨b, g, hb, hperform⟩ | ⟨d, n, -, hperform⟩
  · rcases hd : s.drive b g with ⟨r, s'⟩
    exact ⟨r, s', by rw [hperform, hd, ran], drive_counts hb hd⟩
  · rcases hs : stepLinesFrom d s { stop := .stepComplete, lastPc := s.pc } n with ⟨r, s'⟩
    exact ⟨r, s', by rw [hperform, hs, ran], stepLinesFrom_counts rfl hs⟩

end Session

/-! ## Commands -/

namespace Command

/-- Whether the command sets a breakpoint. -/
def addsBreakpoint : Command → Bool
  | addBreakpoint _ | addBreakpointAtLine _ | addBreakpointAtFunction _ => true
  | _ => false

/-- Whether the command sets a watchpoint. -/
def addsWatchpoint : Command → Bool
  | addWatchpoint _ => true
  | _ => false

end Command

namespace Response

/-- The number of the point that was set. -/
def added? : Response → Option Nat
  | added id => some id
  | _ => none

end Response

namespace Session

variable {s : Session} {c : Command} {adds : Command → Bool}

/-- The number that a command gives to a point, if it is one of the commands that set points of a
kind. -/
def gives (adds : Command → Bool) (s : Session) (c : Command) : Option Nat :=
  if adds c then (s.response c).added? else none

theorem points_of_other (hruns : ¬ c.runs) (hpoints : ¬ c.setsPoints) :
    (s.perform c).1 = none ∧ (s.perform c).2.tracker.breakpoints = s.tracker.breakpoints ∧
      (s.perform c).2.tracker.watchpoints = s.tracker.watchpoints := by
  cases c with
  | requestStop | writeRegister | reset => exact ⟨rfl, rfl, rfl⟩
  | writeMemory a bytes =>
    refine ⟨rfl, ?_⟩
    simp only [perform, writeMemory]
    cases s.machine.writeMemory a bytes <;> exact ⟨rfl, rfl⟩
  | enter name =>
    refine ⟨rfl, ?_⟩
    simp only [perform, enter]
    cases s.machine.enter name <;> exact ⟨rfl, rfl⟩
  | step | run | resume | stepOver | stepOut | stepLines => exact absurd rfl hruns
  | _ => exact absurd rfl hpoints

theorem breakpoints_grow (s : Session) (c : Command) :
    s.tracker.breakpoints.Grows .breakpoint (s.perform c).2.tracker.breakpoints
      (s.gives Command.addsBreakpoint c) ((s.perform c).1.map RunResult.stop) := by
  by_cases hruns : c.runs
  · obtain ⟨r, s', hperform, hcounts⟩ := counts_of_runs (s := s) hruns
    have hgives : s.gives Command.addsBreakpoint c = none := by
      cases c <;> first | rfl | cases hruns
    rw [hperform, hgives, hcounts.breakpoints]
    exact .withHits _
  by_cases hpoints : c.setsPoints
  · cases c with
    | addBreakpoint a => exact .insert a
    | addBreakpointAtLine l =>
      simp only [gives, perform, response, addBreakpointAtLine]
      cases s.debugInfo?.bind (·.addressOfLine? l) with
      | none => exact .refl
      | some a => exact .insert a
    | addBreakpointAtFunction name =>
      simp only [gives, perform, response, addBreakpointAtFunction]
      cases s.machine.program.functionAddress? name with
      | none => exact .refl
      | some a => exact .insert a
    | removeBreakpoint id =>
      simp only [perform, removeBreakpoint]
      cases s.tracker.breakpoints.get? id with
      | none => exact .refl
      | some b => exact .erase id
    | setBreakpointEnabled id enabled =>
      simp only [perform, setBreakpointEnabled]
      cases s.tracker.breakpoints.get? id with
      | none => exact .refl
      | some b => exact .setEnabled id enabled
    | addWatchpoint w => exact .refl
    | removeWatchpoint id =>
      simp only [perform, removeWatchpoint]
      cases s.tracker.watchpoints.get? id <;> exact .refl
    | setWatchpointEnabled id enabled =>
      simp only [perform, setWatchpointEnabled]
      cases s.tracker.watchpoints.get? id <;> exact .refl
    | _ => cases hpoints
  · obtain ⟨hresult, hkept, -⟩ := points_of_other (s := s) hruns hpoints
    have hgives : s.gives Command.addsBreakpoint c = none := by
      cases c <;> first | rfl | exact absurd rfl hpoints
    rw [hresult, hkept, hgives]
    exact .refl

theorem watchpoints_grow (s : Session) (c : Command) :
    s.tracker.watchpoints.Grows .watchpoint (s.perform c).2.tracker.watchpoints
      (s.gives Command.addsWatchpoint c) ((s.perform c).1.map RunResult.stop) := by
  by_cases hruns : c.runs
  · obtain ⟨r, s', hperform, hcounts⟩ := counts_of_runs (s := s) hruns
    have hgives : s.gives Command.addsWatchpoint c = none := by
      cases c <;> first | rfl | cases hruns
    rw [hperform, hgives, hcounts.watchpoints]
    exact .withHits _
  by_cases hpoints : c.setsPoints
  · cases c with
    | addWatchpoint w => exact .insert w
    | removeWatchpoint id =>
      simp only [perform, removeWatchpoint]
      cases s.tracker.watchpoints.get? id with
      | none => exact .refl
      | some w => exact .erase id
    | setWatchpointEnabled id enabled =>
      simp only [perform, setWatchpointEnabled]
      cases s.tracker.watchpoints.get? id with
      | none => exact .refl
      | some w => exact .setEnabled id enabled
    | addBreakpoint a => exact .refl
    | addBreakpointAtLine l =>
      simp only [perform, addBreakpointAtLine]
      cases s.debugInfo?.bind (·.addressOfLine? l) <;> exact .refl
    | addBreakpointAtFunction name =>
      simp only [perform, addBreakpointAtFunction]
      cases s.machine.program.functionAddress? name <;> exact .refl
    | removeBreakpoint id =>
      simp only [perform, removeBreakpoint]
      cases s.tracker.breakpoints.get? id <;> exact .refl
    | setBreakpointEnabled id enabled =>
      simp only [perform, setBreakpointEnabled]
      cases s.tracker.breakpoints.get? id <;> exact .refl
    | _ => cases hpoints
  · obtain ⟨hresult, -, hkept⟩ := points_of_other (s := s) hruns hpoints
    have hgives : s.gives Command.addsWatchpoint c = none := by
      cases c <;> first | rfl | exact absurd rfl hpoints
    rw [hresult, hkept, hgives]
    exact .refl

/-! ## Histories -/

/-- The numbers that commands give to points of a kind, in order. -/
def given (adds : Command → Bool) (s : Session) : List Command → List Nat
  | [] => []
  | c :: cs => (s.gives adds c).toList ++ (s.perform c).2.given adds cs

/-- The number of results that report a point of a kind. -/
def reports (kind : Nat → Stop) (id : Nat) (rs : List RunResult) : Nat :=
  rs.countP (·.stop = kind id)

/-- A point was set by one of the commands that were carried out one after the other, and has
counted the results since then that report it. -/
def CountsSince {κ : Type} (kind : Nat → Stop) (adds : Command → Bool) (s : Session)
    (cs : List Command) (b : Point κ) : Prop :=
  ∃ before c after, cs = before ++ c :: after ∧
    (s.performAll before).2.gives adds c = some b.id ∧
      b.hits = reports kind b.id (((s.performAll before).2.perform c).2.performAll after).1

/-- What a table is after commands that were carried out one after the other: no number was given
twice, and each of its points has counted the results since it was set that report it. -/
structure CountsStops {κ : Type} (kind : Nat → Stop) (adds : Command → Bool) (s : Session)
    (cs : List Command) (t : PointTable κ) : Prop where
  given : (s.given adds cs).Pairwise (· < ·)
  hits : ∀ b ∈ t.points, s.CountsSince kind adds cs b

theorem reports_performAll_cons {kind : Nat → Stop} {id : Nat} {cs : List Command} :
    reports kind id (s.performAll (c :: cs)).1 =
      tally kind ((s.perform c).1.map RunResult.stop) id +
        reports kind id ((s.perform c).2.performAll cs).1 := by
  have hcons : (s.performAll (c :: cs)).1 =
      (s.perform c).1.toList ++ ((s.perform c).2.performAll cs).1 := rfl
  rw [hcons, reports, List.countP_append, reports]
  congr 1
  cases (s.perform c).1 with
  | none => simp [tally]
  | some r => simp [tally, List.countP_cons]

section History

variable {κ : Type} {kind : Nat → Stop} {table : Session → PointTable κ}
  (hgrows : ∀ s c, (table s).Grows kind (table (s.perform c).2) (s.gives adds c)
    ((s.perform c).1.map RunResult.stop))

include hgrows

/-- Numbers are given in increasing order, from the next one on. -/
theorem increasing_given : ∀ (cs : List Command) (s : Session),
    (s.given adds cs).Pairwise (· < ·) ∧ ∀ id ∈ s.given adds cs, (table s).nextId ≤ id := by
  intro cs
  induction cs with
  | nil => exact fun s => ⟨.nil, by simp [given]⟩
  | cons c cs ih =>
    intro s
    obtain ⟨hincreasing, hfrom⟩ := ih (s.perform c).2
    rcases (hgrows s c).nextId with ⟨hnone, hnext⟩ | ⟨hsome, hnext⟩
    · rw [given, hnone, ← hnext]
      exact ⟨hincreasing, hfrom⟩
    · rw [given, hsome]
      refine ⟨List.pairwise_cons.2 ⟨fun id hid => ?_, hincreasing⟩, fun id hid => ?_⟩
      · have hle := hfrom id hid
        omega
      · rcases List.mem_cons.1 hid with rfl | hid
        · exact Nat.le_refl _
        · have hle := hfrom id hid
          omega

/-- A point was there from the beginning or was set on the way, and has counted the results since
then that report it. -/
theorem hits_performAll : ∀ (cs : List Command) (s : Session),
    ∀ b ∈ (table (s.performAll cs).2).points,
      (∃ b₀ ∈ (table s).points, b₀.id = b.id ∧
        b.hits = b₀.hits + reports kind b.id (s.performAll cs).1) ∨
          s.CountsSince kind adds cs b := by
  intro cs
  induction cs with
  | nil => exact fun s b hb => .inl ⟨b, hb, rfl, rfl⟩
  | cons c cs ih =>
    intro s b hb
    rcases ih (s.perform c).2 b hb with ⟨b₁, hb₁, hid₁, hhits⟩ |
      ⟨before, c', after, rfl, hgives, hhits⟩
    · rcases (hgrows s c).points b₁ hb₁ with ⟨hgives, hzero⟩ | ⟨b₀, hb₀, hid₀, hcount⟩
      · refine .inr ⟨[], c, cs, rfl, hid₁ ▸ hgives, ?_⟩
        rw [hhits, hzero, Nat.zero_add]
        rfl
      · refine .inl ⟨b₀, hb₀, hid₀.trans hid₁, ?_⟩
        rw [reports_performAll_cons, hhits, hcount, hid₁, Nat.add_assoc]
    · exact .inr ⟨c :: before, c', after, rfl, hgives, hhits⟩

theorem countsStops_of_empty (hempty : (table s).points = []) (cs : List Command) :
    CountsStops kind adds s cs (table (s.performAll cs).2) := by
  refine ⟨(increasing_given hgrows cs s).1, fun b hb => ?_⟩
  rcases hits_performAll hgrows cs s b hb with ⟨b₀, hb₀, -⟩ | hset
  · rw [hempty] at hb₀
    cases hb₀
  · exact hset

end History

/-- **Counts are stops.** Whatever commands a new session has carried out, no number was given to
two breakpoints or to two watchpoints, and each point has counted as many stops as commands since it
was set have reported it. -/
theorem performAll_countsStops (m : Machine) (o : Observer) (lineLimit : Nat)
    (cs : List Command) :
    CountsStops .breakpoint Command.addsBreakpoint { machine := m, observer := o, lineLimit } cs
        (Session.performAll { machine := m, observer := o, lineLimit } cs).2.tracker.breakpoints ∧
      CountsStops .watchpoint Command.addsWatchpoint { machine := m, observer := o, lineLimit } cs
        (Session.performAll { machine := m, observer := o, lineLimit } cs).2.tracker.watchpoints :=
  ⟨countsStops_of_empty breakpoints_grow rfl cs, countsStops_of_empty watchpoints_grow rfl cs⟩

/-- Two breakpoints on one address, of which the second one is taken away without a stop, and a
third one that is set between runs. -/
def threeRuns : List Command :=
  [.addBreakpoint 0x1004, .addBreakpoint 0x1004, .resume, .removeBreakpoint 1, .reset,
    .addBreakpoint 0x1000, .resume, .resume]

example : (Machine.load adder .standard { stackSize := 8 }).toOption.map (fun m =>
    (Session.given Command.addsBreakpoint { machine := m } threeRuns,
      (Session.performAll { machine := m } threeRuns).2.tracker.breakpoints.points.map fun b =>
        (b.id, b.hits))) = some ([0, 1, 2], [(0, 2), (2, 1)]) := by decide +kernel

end Session
end WordMachine
