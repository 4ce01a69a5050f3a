import WordMachine.Proofs.Accounting
import WordMachine.Proofs.Events

/-!
# WordMachine.Proofs.Goals

What a run with a goal has done when it completes: its last instruction reaches the goal, and none
of the instructions before it did (`Session.drive_completes`). A run that uses up its budget has not
reached the goal at all (`Session.drive_exhausts`). Whether an instruction reaches a goal depends on
where it leads and on the calls that are open after it (`Goal.reachedBy`).

Stepping by a source line is such a run, so that it stops where the first other line begins
(`Session.stepLines_reaches`).
-/

namespace WordMachine

/-! ## Instructions and goals -/

namespace Goal

/-- Whether an instruction reaches the goal that is carried out while these calls are open. -/
def reachedBy (g : Goal) (line? : Word → Option SourceLocation) (calls : CallStack)
    (r : StepReport) : Bool :=
  g.reached (calls.observe r.pc r.transfer).depth (line? r.nextPc)

/-- The instructions with these reports lead from the first open calls to the second, and none of
them reaches the goal. -/
inductive Misses (g : Goal) (line? : Word → Option SourceLocation) :
    CallStack → List StepReport → CallStack → Prop where
  | nil {calls : CallStack} : Misses g line? calls [] calls
  | cons {calls calls' : CallStack} {r : StepReport} {rs : List StepReport}
      (hmiss : g.reachedBy line? calls r = false)
      (hrest : Misses g line? (calls.observe r.pc r.transfer) rs calls') :
      Misses g line? calls (r :: rs) calls'

variable {line? : Word → Option SourceLocation} {calls calls' : CallStack} {rs : List StepReport}
  {start : Option SourceLocation}

theorem reachedBy_line {r : StepReport} : (line start).reachedBy line? calls r = true ↔
    ∃ l, line? r.nextPc = some l ∧ start ≠ some l := by
  cases hline : line? r.nextPc with
  | none => simp [reachedBy, reached, hline]
  | some l => simpa [reachedBy, reached, hline] using ne_comm

/-- Instructions that do not come to another line lead to where no line begins or to the start of
the first one. -/
theorem Misses.nextPc (h : (line start).Misses line? calls rs calls') :
    ∀ x ∈ rs, line? x.nextPc = Option.none ∨ line? x.nextPc = start := by
  induction h with
  | nil => simp
  | @cons _ _ r _ hmiss _ ih =>
    rw [List.forall_mem_cons]
    refine ⟨?_, ih⟩
    by_contra hline
    rw [not_or] at hline
    obtain ⟨l, hl⟩ := Option.ne_none_iff_exists'.1 hline.1
    refine Bool.false_ne_true (hmiss.symm.trans (reachedBy_line.2 ⟨l, hl, fun hstart => ?_⟩))
    exact hline.2 (hl.trans hstart.symm)

end Goal

/-! ## What the hooks do about goals -/

namespace Tracker

variable {o : Observer} {d : Option DebugInfo} {g : Goal} {t : Tracker} {r : StepReport}
  {pc : Word}

theorem calls_before : (before o t pc).state.calls = t.calls := by
  simp only [before]
  split
  · rfl
  · split <;> rfl

theorem calls_moveTo {l : SourceLocation} : (t.moveTo o l).2.calls = t.calls := by
  simp only [moveTo]
  split <;> rfl

theorem calls_arrive : (t.arrive o d g pc).state.calls = t.calls := by
  simp only [arrive]
  split
  · rfl
  · exact calls_moveTo

theorem calls_after : (after o d g t r).state.calls = t.calls.observe r.pc r.transfer := by
  simp only [after]
  split
  · rfl
  · exact calls_arrive

/-- Where the observer does not stop a run that triggers no watchpoint, its goal decides. -/
theorem stop_arrive (o : Observer) (d : Option DebugInfo) (g : Goal) (t : Tracker) (pc : Word) :
    (t.arrive o d g pc).stop = some .requested ∨ (t.arrive o d g pc).stop =
    if g.reached t.calls.depth (d.bind (·.exactLocation? pc)) then some .stepComplete
    else none := by
  have hcalls : (t.arrive o d g pc).state.calls = t.calls := calls_arrive
  simp only [arrive] at hcalls ⊢
  rw [hcalls]
  exact ite_eq_or_eq _ _ _

/-- After an instruction the hooks go on only if it misses the goal, and complete a step only if it
reaches the goal. -/
theorem after_reachedBy :
    ((after o d g t r).stop = none →
      g.reachedBy (fun a => d.bind (·.exactLocation? a)) t.calls r = false) ∧
    ((after o d g t r).stop = some .stepComplete →
      g.reachedBy (fun a => d.bind (·.exactLocation? a)) t.calls r = true) := by
  simp only [after, Goal.reachedBy]
  split
  · exact ⟨by simp, by simp⟩
  · rcases stop_arrive o d g { t with skip := none, calls := t.calls.observe r.pc r.transfer }
      r.nextPc with hstop | hstop
    · simp [hstop]
    · rw [hstop]
      cases g.reached (t.calls.observe r.pc r.transfer).depth
        (d.bind (·.exactLocation? r.nextPc)) <;> simp

end Tracker

/-! ## Rounds -/

namespace HookStop

theorem toStop_ne_stepLimit (stop : HookStop) : stop.toStop ≠ .stepLimit := by
  cases stop <;> simp [toStop]

end HookStop

namespace Machine

section Limits

variable {σ : Type} {h : Hooks σ} {m m' : Machine} {p p' : Progress σ} {r : StepReport}
  {rs : List StepReport} {stop? : Option Stop}

theorem Settled.ne_stepLimit (hs : Settled h m p r stop? m' p') : stop? ≠ some .stepLimit := by
  cases hs with
  | halted _ => simp
  | returned _ _ => simp
  | @held _ stop _ _ _ _ => simpa using stop.toStop_ne_stepLimit
  | paced _ _ _ _ hpace =>
    rcases pace_ends hpace with ⟨rfl, -⟩ | ⟨lag, rfl, -⟩
    · simp
    · intro hlimit
      obtain ⟨stop, -, hstop⟩ := Option.map_eq_some_iff.1 hlimit
      exact stop.toStop_ne_stepLimit hstop

theorem Round.ne_stepLimit (hr : Round h m p rs stop? m' p') : stop? ≠ some .stepLimit := by
  cases hr with
  | interrupted _ => simp
  | returned _ => simp
  | @held _ stop _ _ _ => simpa using stop.toStop_ne_stepLimit
  | faulted _ _ _ _ => simp
  | retired _ _ _ _ hsettled => exact hsettled.ne_stepLimit

end Limits

variable {o : Observer} {d : Option DebugInfo} {g : Goal} {m m' : Machine}
  {p p' : Progress Tracker} {r : StepReport} {rs : List StepReport} {stop? : Option Stop}

/-- Where a run goes on after an instruction or completes a step, the instruction has been observed,
and it has missed the goal or reached it. -/
theorem Settled.reachedBy (hs : Settled (Tracker.hooks o d g) m p r stop? m' p')
    (hstop : stop? = none ∨ stop? = some .stepComplete) :
    p'.hooks.calls = p.hooks.calls.observe r.pc r.transfer ∧
      g.reachedBy (fun a => d.bind (·.exactLocation? a)) p.hooks.calls r = stop?.isSome := by
  obtain ⟨hmiss, hreach⟩ := Tracker.after_reachedBy (o := o) (d := d) (g := g) (t := p.hooks)
    (r := r)
  cases hs with
  | halted _ => simp at hstop
  | returned _ _ => simp at hstop
  | held _ _ ha hheld =>
    subst ha
    simp only [reduceCtorEq, Option.some.injEq, HookStop.toStop_eq_stepComplete, false_or] at hstop
    rw [hstop] at hheld
    exact ⟨Tracker.calls_after, hreach hheld⟩
  | paced _ _ ha hgo hpace =>
    subst ha
    rcases pace_ends hpace with ⟨rfl, -, hkept⟩ | ⟨lag, rfl, -, hkept⟩
    · rw [hkept]
      exact ⟨Tracker.calls_after, hmiss hgo⟩
    · rw [hkept]
      refine ⟨Tracker.calls_after, ?_⟩
      rcases hlagging : ((Tracker.hooks o d g).lagging _ lag).stop with _ | stop
      · exact hmiss hgo
      · rw [hlagging, Tracker.stop_lagging hlagging] at hstop
        simp [HookStop.toStop] at hstop

theorem Round.reachedBy (hr : Round (Tracker.hooks o d g) m p [r] stop? m' p')
    (hstop : stop? = none ∨ stop? = some .stepComplete) :
    p'.hooks.calls = p.hooks.calls.observe r.pc r.transfer ∧
      g.reachedBy (fun a => d.bind (·.exactLocation? a)) p.hooks.calls r = stop?.isSome := by
  cases hr with
  | retired _ ha _ _ hsettled =>
    subst ha
    have hsame : (Tracker.before o p.hooks m.registers.pc).state.calls = p.hooks.calls :=
      Tracker.calls_before
    have hreached := hsettled.reachedBy hstop
    simp only [Progress.count] at hreached
    rwa [Tracker.hooks, hsame] at hreached

/-- No round completes a step without an instruction. -/
theorem Round.exists_retired (hr : Round (Tracker.hooks o d g) m p rs (some .stepComplete) m' p') :
    ∃ r, rs = [r] := by
  generalize hstop : some Stop.stepComplete = stop? at hr
  cases hr with
  | interrupted _ => cases hstop
  | returned _ => cases hstop
  | held _ ha hheld =>
    subst ha
    obtain ⟨id, rfl, -⟩ := Tracker.lowest_of_before hheld
    cases hstop
  | faulted _ _ _ _ => cases hstop
  | retired _ _ _ _ _ => exact ⟨_, rfl⟩

/-- As long as a run goes on, its instructions miss the goal. -/
theorem Advances.misses (ha : Advances (Tracker.hooks o d g) rs m p m' p') :
    g.Misses (fun a => d.bind (·.exactLocation? a)) p.hooks.calls rs p'.hooks.calls := by
  induction ha with
  | nil => exact .nil
  | cons hround _ ih =>
    obtain ⟨hcalls, hmiss⟩ := hround.reachedBy (.inl rfl)
    rw [hcalls] at ih
    exact .cons hmiss ih

end Machine

/-! ## Commands that run the machine -/

namespace Session

open Machine

variable {s s' : Session} {b : Budget} {g : Goal} {r : RunResult} {rs : List StepReport}
  {x : StepReport} {k : Nat}

theorem calls_conclude : (s.conclude r).tracker.calls = s.tracker.calls := by
  simp only [conclude]
  split <;> rfl

theorem Retired.pc_last (h : Retired rs s s') (hx : rs.getLast? = some x) : s'.pc = x.nextPc := by
  obtain ⟨n, n', -, hstep, hsame⟩ := h.last hx
  rw [pc, RegisterFile.pc, hsame.registers]
  exact pc_of_step hstep

/-- A run that its goal completes reaches it with its last instruction and not before. -/
theorem drive_completes (hb : b.exhausted ≠ .stepComplete) (hd : s.drive b g = (r, s'))
    (hstop : r.stop = .stepComplete) :
    ∃ rs x calls, Retired (rs ++ [x]) s s' ∧ r.steps = (rs ++ [x]).length ∧
      g.Misses s.lineAt? s.tracker.calls rs calls ∧ g.reachedBy s.lineAt? calls x = true ∧
      s'.tracker.calls = calls.observe x.pc x.transfer := by
  rcases drive_ends hd with ⟨stop, hstopped, rfl, -⟩ |
    ⟨hready, rs, m₁, p₁, stop, rs', m', p', hruns, rfl, rfl⟩
  · exact absurd hstop (stop_of_stopped hstopped).1
  · cases hstop
    obtain ⟨⟨n, hret, hleft⟩, hsteps⟩ := hruns.ran hready
    have hmisses := hruns.advances.misses
    rcases hruns.ends with ⟨-, hexhausted, -, -⟩ | hround
    · exact absurd hexhausted.symm hb
    · obtain ⟨x, rfl⟩ := hround.exists_retired
      obtain ⟨hcalls, hreached⟩ := hround.reachedBy (.inr rfl)
      refine ⟨rs, x, p₁.hooks.calls, ⟨n, hret, leftAs_conclude hleft⟩, hsteps, hmisses, hreached, ?_⟩
      rw [calls_conclude]
      exact hcalls

/-- A run that has used up the budget of a line has retired all of its instructions, and none of
them has reached the goal. -/
theorem drive_exhausts (hd : s.drive (.line k) g = (r, s')) (hstop : r.stop = .stepLimit) :
    ∃ rs, Retired rs s s' ∧ r.steps = rs.length ∧ rs.length = k ∧
      g.Misses s.lineAt? s.tracker.calls rs s'.tracker.calls := by
  rcases hrun : s.machine.runWith (.line k) (Tracker.hooks s.observer s.debugInfo? g) s.tracker with
    ⟨r₀, m', tracker⟩
  simp only [drive, hrun] at hd
  cases hd
  rcases runWith_ends hrun with ⟨stop, hstopped, rfl, -, -⟩ |
    ⟨hready, stop, p', rfl, rfl, hrounds⟩
  · simp only [stopped?] at hstopped
    split at hstopped <;> cases hstopped <;> cases hstop
  · cases hstop
    obtain ⟨rs, m₁, p₁, hadvances, hend⟩ := rounds_ends hrounds
    rcases hend with ⟨hlen, -, rfl, rfl⟩ | ⟨-, rs', hround⟩
    · obtain ⟨⟨⟨n, hret, hleft⟩, hsteps, -⟩, -⟩ := hadvances.ran hready
      refine ⟨rs, ⟨n, hret, leftAs_conclude hleft⟩, hsteps.trans (Nat.zero_add _), hlen, ?_⟩
      rw [calls_conclude]
      exact hadvances.misses
    · exact absurd rfl hround.ne_stepLimit

/-! ## Source lines -/

variable {d : DebugInfo} {start : Option SourceLocation}

theorem drive_line (hd : s.drive (.line k) (.line start) = (r, s')) :
    ∃ rs, Retired rs s s' ∧ r.steps = rs.length ∧
      (r.stop = .stepComplete → 1 ≤ rs.length ∧ rs.length ≤ k ∧
        (∃ l, s.lineAt? s'.pc = some l ∧ start ≠ some l) ∧
        ∀ x ∈ rs.dropLast, s.lineAt? x.nextPc = none ∨ s.lineAt? x.nextPc = start) ∧
      (r.stop = .stepLimit → rs.length = k ∧
        ∀ x ∈ rs, s.lineAt? x.nextPc = none ∨ s.lineAt? x.nextPc = start) := by
  obtain ⟨⟨rs₀, hretired₀, hsteps₀, -⟩, hwithin⟩ := drive_reports hd
  by_cases hcomplete : r.stop = .stepComplete
  · obtain ⟨rs, x, calls, hretired, hsteps, hmisses, hreached, -⟩ :=
      drive_completes (by simp [Budget.line]) hd hcomplete
    refine ⟨rs ++ [x], hretired, hsteps, fun _ => ⟨?_, ?_, ?_, ?_⟩, fun hlimit => ?_⟩
    · simp
    · exact hsteps ▸ hwithin k rfl
    · rw [hretired.pc_last List.getLast?_concat]
      exact Goal.reachedBy_line.1 hreached
    · rw [List.dropLast_concat]
      exact hmisses.nextPc
    · cases hcomplete.symm.trans hlimit
  · by_cases hlimit : r.stop = .stepLimit
    · obtain ⟨rs, hretired, hsteps, hlength, hmisses⟩ := drive_exhausts hd hlimit
      exact ⟨rs, hretired, hsteps, fun h => absurd h hcomplete,
        fun _ => ⟨hlength, hmisses.nextPc⟩⟩
    · exact ⟨rs₀, hretired₀, hsteps₀, fun h => absurd h hcomplete, fun h => absurd h hlimit⟩

/-- **A step by one source line stops where the first other line begins.** The line that it starts
on is the one that the address belongs to. If the step completes, then within its limit its last
instruction leads to where another line begins, and none before it does. If it comes to its limit,
then none does at all. -/
theorem stepLines_reaches (s : Session) (hinfo : s.debugInfo? = some d) :
    ∃ r s' rs, s.perform (.stepLines 1) = (some r, s') ∧ s.Retired rs s' ∧ r.steps = rs.length ∧
      (r.stop = .stepComplete → 1 ≤ rs.length ∧ rs.length ≤ s.lineLimit ∧
        (∃ l, d.exactLocation? s'.pc = some l ∧ d.locationAt? s.pc ≠ some l) ∧
        ∀ x ∈ rs.dropLast, d.exactLocation? x.nextPc = none ∨
          d.exactLocation? x.nextPc = d.locationAt? s.pc) ∧
      (r.stop = .stepLimit → rs.length = s.lineLimit ∧
        ∀ x ∈ rs, d.exactLocation? x.nextPc = none ∨
          d.exactLocation? x.nextPc = d.locationAt? s.pc) := by
  rcases hd : s.drive (.line s.lineLimit) (.line (d.locationAt? s.pc)) with ⟨r, s'⟩
  obtain ⟨rs, hretired, hsteps, hline⟩ := drive_line hd
  have hperform : s.perform (.stepLines 1) =
      (some (RunResult.followedBy { stop := .stepComplete, lastPc := s.pc } r), s') := by
    simp only [perform, stepLines, hinfo, stepLinesFrom, hd, ite_self, ran]
  have hlines : s.lineAt? = d.exactLocation? := by
    funext a
    rw [lineAt?, hinfo, Option.bind_some]
  rw [hlines] at hline
  exact ⟨_, s', rs, hperform, hretired, (Nat.zero_add _).trans hsteps, hline⟩

/-- Two instructions lead from the first source line to the second, which is all that the first
limit allows and more than the second one does. -/
theorem stepLines_reaches_branching : ∃ m d r s' rs r₁ s₁ rs₁,
    Machine.load branching .standard { stackSize := 8 } = .ok m ∧ m.program.debugInfo = some d ∧
      ({ machine := m, lineLimit := 2 } : Session).perform (.stepLines 1) = (some r, s') ∧
      r.stop = .stepComplete ∧ Retired rs { machine := m, lineLimit := 2 } s' ∧ rs.length = 2 ∧
      (∃ l, d.exactLocation? s'.pc = some l ∧ d.locationAt? m.registers.pc ≠ some l) ∧
      ({ machine := m, lineLimit := 1 } : Session).perform (.stepLines 1) = (some r₁, s₁) ∧
      r₁.stop = .stepLimit ∧ Retired rs₁ { machine := m, lineLimit := 1 } s₁ ∧ rs₁.length = 1 ∧
      ∀ x ∈ rs₁, d.exactLocation? x.nextPc = none ∨
        d.exactLocation? x.nextPc = d.locationAt? m.registers.pc := by
  obtain ⟨m, d, hload, hinfo, hrun, hrun₁⟩ : ∃ m d,
      Machine.load branching .standard { stackSize := 8 } = .ok m ∧ m.program.debugInfo = some d ∧
      (({ machine := m, lineLimit := 2 } : Session).perform (.stepLines 1)).1.map
        (fun r => (r.stop, r.steps)) = some (.stepComplete, 2) ∧
      (({ machine := m, lineLimit := 1 } : Session).perform (.stepLines 1)).1.map
        (fun r => (r.stop, r.steps)) = some (.stepLimit, 1) :=
    ⟨_, _, rfl, rfl, by decide +kernel, by decide +kernel⟩
  obtain ⟨r, s', rs, hperform, hretired, hsteps, hcomplete, -⟩ :=
    stepLines_reaches { machine := m, lineLimit := 2 } hinfo
  obtain ⟨r₁, s₁, rs₁, hperform₁, hretired₁, -, -, hlimit⟩ :=
    stepLines_reaches { machine := m, lineLimit := 1 } hinfo
  simp only [hperform, Option.map_some, Option.some.injEq, Prod.mk.injEq] at hrun
  simp only [hperform₁, Option.map_some, Option.some.injEq, Prod.mk.injEq] at hrun₁
  exact ⟨m, d, r, s', rs, r₁, s₁, rs₁, hload, hinfo, hperform, hrun.1, hretired,
    hsteps.symm.trans hrun.2, (hcomplete hrun.1).2.2.1, hperform₁, hrun₁.1, hretired₁,
    hlimit hrun₁.1⟩

end Session
end WordMachine
