import WordMachine.Proofs.Driving
import WordMachine.Proofs.PointHits
import WordMachine.Proofs.Transparency

/-!
# WordMachine.Proofs.Breakpoints

A run heeds the breakpoints. It retires no instruction at the address of an enabled breakpoint, but
for its first one at the address at which the run before it ended, and where a breakpoint stops it,
that is the one with the lowest number at the address of the instruction to come
(`Session.Driven`). The address that is passed over is known from the commands alone
(`Session.endedAfter`), which gives `Session.perform_heeds`.
-/

namespace WordMachine

namespace HookStop

variable {stop : HookStop} {id : Nat}

@[simp] theorem toStop_eq_breakpoint : stop.toStop = .breakpoint id ↔ stop = .breakpoint id := by
  cases stop <;> simp [toStop]

@[simp] theorem toStop_eq_stepComplete : stop.toStop = .stepComplete ↔ stop = .stepComplete := by
  cases stop <;> simp [toStop]

end HookStop

namespace Tracker

variable {o : Observer} {d : Option DebugInfo} {g : Goal} {t : Tracker} {r : StepReport}
  {pc : Word} {stop : HookStop} {lag : Nat}

/-- Whether an enabled breakpoint is set on an address. -/
def StopsAt (t : Tracker) (a : Word) : Prop := t.breakpoints.Catches (· = a)

theorem stopsAt_congr {t' : Tracker}
    (h : t'.breakpoints.settings = t.breakpoints.settings) : t'.StopsAt = t.StopsAt :=
  funext fun _ => propext ⟨fun hc => hc.congr h, fun hc => hc.congr h.symm⟩

/-! ## What the hooks do about breakpoints -/

theorem settings_before :
    (before o t pc).state.breakpoints.settings = t.breakpoints.settings := by
  simp only [before]
  split
  · rfl
  · split
    · rfl
    · rename_i hhit
      exact PointTable.settings_of_hit? hhit

theorem skip_of_before (hgo : (before o t pc).stop = none) (hstops : t.StopsAt pc) :
    t.skip = some pc := by
  refine Classical.byContradiction fun hskip => ?_
  simp only [before, hskip, if_false] at hgo
  split at hgo
  · rename_i hhit
    exact PointTable.hit?_eq_none.1 hhit hstops
  · cases hgo

theorem lowest_of_before (hstop : (before o t pc).stop = some stop) :
    ∃ id, stop = .breakpoint id ∧ t.breakpoints.IsLowest (· = pc) id := by
  simp only [before] at hstop
  split at hstop
  · cases hstop
  · split at hstop
    · cases hstop
    · rename_i b _ hhit
      cases hstop
      exact ⟨b.id, rfl, PointTable.isLowest_of_hit? hhit⟩

theorem moveTo_keeps {l : SourceLocation} :
    (t.moveTo o l).2.breakpoints = t.breakpoints ∧ (t.moveTo o l).2.skip = t.skip := by
  simp only [moveTo]
  split <;> exact ⟨rfl, rfl⟩

theorem arrive_keeps :
    (t.arrive o d g pc).state.breakpoints = t.breakpoints ∧
      (t.arrive o d g pc).state.skip = t.skip := by
  simp only [arrive]
  split
  · exact ⟨rfl, rfl⟩
  · exact moveTo_keeps

theorem after_keeps :
    (after o d g t r).state.breakpoints = t.breakpoints ∧
      (after o d g t r).state.skip = none := by
  simp only [after]
  split
  · exact ⟨rfl, rfl⟩
  · exact arrive_keeps

/-- After an instruction no breakpoint stops a run, and a step is complete only at its goal. -/
theorem stop_after (hstop : (after o d g t r).stop = some stop) :
    (∀ id, stop ≠ .breakpoint id) ∧
      (stop = .stepComplete →
        ∃ depth, g.reached depth (d.bind (·.exactLocation? r.nextPc)) = true) := by
  simp only [after] at hstop
  split at hstop
  · cases hstop
    exact ⟨by simp, by simp⟩
  · simp only [arrive, ite_eq_iff, Option.some.injEq] at hstop
    rcases hstop with ⟨-, rfl⟩ | ⟨-, ⟨hreached, rfl⟩ | ⟨-, hnone⟩⟩
    · exact ⟨by simp, by simp⟩
    · exact ⟨by simp, fun _ => ⟨_, hreached⟩⟩
    · cases hnone

theorem stop_lagging (hstop : (lagging o t lag).stop = some stop) : stop = .requested := by
  simp only [lagging] at hstop
  split at hstop
  · exact (Option.some.inj hstop).symm
  · cases hstop

end Tracker

/-! ## Instructions in a row -/

/-- None of the instructions with these reports is at an address where runs stop, unless it is the
first and its address is passed over. -/
def Heeds (stops : Word → Prop) (skip : Option Word) : List StepReport → Prop
  | [] => True
  | r :: rs => (stops r.pc → skip = some r.pc) ∧ ∀ x ∈ rs, ¬ stops x.pc

namespace Heeds

variable {stops : Word → Prop} {skip : Option Word} {r : StepReport} {rs rs' : List StepReport}

theorem not_stops (h : Heeds stops none rs) : ∀ x ∈ rs, ¬ stops x.pc := by
  cases rs with
  | nil => simp
  | cons r rs =>
    rw [List.forall_mem_cons]
    refine ⟨fun hstops => ?_, h.2⟩
    cases h.1 hstops

theorem cons (hr : Heeds stops skip [r]) (h : Heeds stops none rs) : Heeds stops skip (r :: rs) :=
  ⟨hr.1, h.not_stops⟩

theorem append (hr : Heeds stops skip (r :: rs)) (h : Heeds stops none rs') :
    Heeds stops skip (r :: (rs ++ rs')) :=
  ⟨hr.1, fun x hx => (List.mem_append.1 hx).elim (hr.2 x) (h.not_stops x)⟩

theorem index_eq_zero {i : Nat} {x : StepReport} (h : Heeds stops skip rs) (hx : rs[i]? = some x)
    (hstops : stops x.pc) : i = 0 ∧ skip = some x.pc := by
  match rs, i with
  | [], _ => cases hx
  | r :: rs, 0 =>
    cases hx
    exact ⟨rfl, h.1 hstops⟩
  | r :: rs, i + 1 =>
    rw [List.getElem?_cons_succ] at hx
    exact absurd hstops (h.2 x (List.mem_of_getElem? hx))

end Heeds

/-! ## Rounds -/

namespace Machine

variable {o : Observer} {d : Option DebugInfo} {g : Goal} {m m' : Machine}
  {p p' : Progress Tracker} {r : StepReport} {rs : List StepReport} {stop : Stop}
  {stop? : Option Stop}

theorem Settled.keeps (hs : Settled (Tracker.hooks o d g) m p r stop? m' p') :
    p'.hooks.breakpoints = p.hooks.breakpoints ∧ (stop? = none → p'.hooks.skip = none) := by
  cases hs with
  | halted _ => exact ⟨rfl, by simp⟩
  | returned _ _ => exact ⟨rfl, by simp⟩
  | held _ _ ha _ =>
    subst ha
    exact ⟨Tracker.after_keeps.1, by simp⟩
  | paced _ _ ha _ hpace =>
    subst ha
    rcases pace_ends hpace with ⟨-, -, hsame⟩ | ⟨lag, -, -, hlagging⟩
    · rw [hsame]
      exact ⟨Tracker.after_keeps.1, fun _ => Tracker.after_keeps.2⟩
    · rw [hlagging]
      exact ⟨Tracker.after_keeps.1, fun _ => Tracker.after_keeps.2⟩

theorem Settled.ends (hs : Settled (Tracker.hooks o d g) m p r (some stop) m' p')
    (hpc : m.registers.pc = r.nextPc) :
    (∀ id, stop ≠ .breakpoint id) ∧
      (stop = .stepComplete →
        ∃ depth, g.reached depth (d.bind (·.exactLocation? m'.registers.pc)) = true) := by
  cases hs with
  | halted _ => exact ⟨by simp, by simp⟩
  | returned _ _ => exact ⟨by simp, by simp⟩
  | held _ _ ha hstop =>
    subst ha
    obtain ⟨hnot, hreached⟩ := Tracker.stop_after hstop
    rw [← hpc] at hreached
    exact ⟨fun id h => hnot id (HookStop.toStop_eq_breakpoint.1 h),
      fun h => hreached (HookStop.toStop_eq_stepComplete.1 h)⟩
  | paced _ _ _ _ hpace =>
    rcases pace_ends hpace with ⟨hnone, -⟩ | ⟨lag, hlagging, -⟩
    · cases hnone
    · obtain ⟨hookStop, hstop, rfl⟩ := Option.map_eq_some_iff.1 hlagging.symm
      rw [Tracker.stop_lagging hstop]
      exact ⟨by simp, by simp⟩

theorem Round.heeds (hr : Round (Tracker.hooks o d g) m p rs stop? m' p') :
    p'.hooks.breakpoints.settings = p.hooks.breakpoints.settings ∧
      Heeds p.hooks.StopsAt p.hooks.skip rs ∧ (stop? = none → p'.hooks.skip = none) := by
  cases hr with
  | interrupted _ => exact ⟨rfl, trivial, by simp⟩
  | returned _ => exact ⟨rfl, trivial, by simp⟩
  | held _ ha _ =>
    subst ha
    exact ⟨Tracker.settings_before, trivial, by simp⟩
  | faulted _ ha _ _ =>
    subst ha
    exact ⟨Tracker.settings_before, trivial, by simp⟩
  | @retired a r _ _ _ _ _ ha hgo hstep hsettled =>
    subst ha
    obtain ⟨hkept, hskip⟩ := hsettled.keeps
    refine ⟨?_, ⟨fun hstops => ?_, by simp⟩, hskip⟩
    · rw [hkept]
      exact Tracker.settings_before
    · rw [pc_report_of_step hstep] at hstops ⊢
      exact Tracker.skip_of_before hgo hstops

theorem Advances.heeds (ha : Advances (Tracker.hooks o d g) rs m p m' p') :
    p'.hooks.breakpoints.settings = p.hooks.breakpoints.settings ∧
      Heeds p.hooks.StopsAt p.hooks.skip rs ∧
        p'.hooks.skip = if rs = [] then p.hooks.skip else none := by
  induction ha with
  | nil => exact ⟨rfl, trivial, rfl⟩
  | @cons m m₁ m' p p₁ p' r rs hround _ ih =>
    obtain ⟨hsettings₁, hheeds₁, hskip₁⟩ := hround.heeds
    obtain ⟨hsettings, hheeds, hskip⟩ := ih
    rw [Tracker.stopsAt_congr hsettings₁, hskip₁ rfl] at hheeds
    refine ⟨hsettings.trans hsettings₁, hheeds₁.cons hheeds, ?_⟩
    rw [hskip, hskip₁ rfl]
    simp

/-- A breakpoint stops a round before its instruction, and a step is complete only at its goal. -/
theorem Round.ends (hr : Round (Tracker.hooks o d g) m p rs (some stop) m' p') :
    (∀ id, stop = .breakpoint id → p.hooks.breakpoints.IsLowest (· = m'.registers.pc) id) ∧
      (stop = .stepComplete →
        ∃ depth, g.reached depth (d.bind (·.exactLocation? m'.registers.pc)) = true) := by
  cases hr with
  | interrupted _ => exact ⟨by simp, by simp⟩
  | returned _ => exact ⟨by simp, by simp⟩
  | held _ ha hstop =>
    subst ha
    obtain ⟨id, rfl, hlowest⟩ := Tracker.lowest_of_before hstop
    refine ⟨fun id' hid => ?_, by simp⟩
    cases hid
    exact hlowest
  | faulted _ _ _ _ => exact ⟨by simp, by simp⟩
  | retired _ _ _ hstep hsettled =>
    obtain ⟨hnot, hreached⟩ := hsettled.ends (pc_of_step hstep)
    exact ⟨fun id hid => absurd hid (hnot id), hreached⟩

end Machine

/-! ## Commands that run the machine -/

namespace Session

open Machine

variable {s s' : Session} {b : Budget} {g : Goal} {r : RunResult} {rs rs' : List StepReport}
  {m₁ m' : Machine} {p₁ p' : Progress Tracker} {stop : Stop} {id : Nat}

/-- One run of a session, which retires the instructions with these reports and then stands before
the instruction to come. It heeds the breakpoints and keeps them, but for their counts. -/
structure Driven (s : Session) (rs : List StepReport) (r : RunResult) (s' : Session) : Prop where
  retired : Retired rs s s'
  steps : r.steps = rs.length
  settings : s'.tracker.breakpoints.settings = s.tracker.breakpoints.settings
  heeds : Heeds s.tracker.StopsAt s.tracker.skip rs
  lowest : ∀ id, r.stop = .breakpoint id → s.tracker.breakpoints.IsLowest (· = s'.pc) id

theorem RunsTo.heeds (h : RunsTo s b g rs m₁ p₁ stop rs' m' p') :
    p'.hooks.breakpoints.settings = s.tracker.breakpoints.settings ∧
      Heeds s.tracker.StopsAt s.tracker.skip (rs ++ rs') := by
  obtain ⟨hsettings, hheeds, hskip⟩ := h.advances.heeds
  rcases h.ends with ⟨rfl, -, -, rfl⟩ | hround
  · rw [List.append_nil]
    exact ⟨hsettings, hheeds⟩
  · obtain ⟨hsettings', hheeds', -⟩ := hround.heeds
    rw [Tracker.stopsAt_congr hsettings, hskip] at hheeds'
    refine ⟨hsettings'.trans hsettings, ?_⟩
    cases rs with
    | nil => exact hheeds'
    | cons r rs => exact hheeds.append hheeds'

theorem RunsTo.lowest (h : RunsTo s b g rs m₁ p₁ (.breakpoint id) rs' m' p')
    (hb : b.exhausted ≠ .breakpoint id) :
    s.tracker.breakpoints.IsLowest (· = m'.registers.pc) id := by
  rcases h.ends with ⟨-, hexhausted, -, -⟩ | hround
  · exact absurd hexhausted.symm hb
  · exact (hround.ends.1 id rfl).congr h.advances.heeds.1

theorem RunsTo.reached (h : RunsTo s b g rs m₁ p₁ .stepComplete rs' m' p')
    (hb : b.exhausted ≠ .stepComplete) :
    ∃ depth, g.reached depth (s.debugInfo?.bind (·.exactLocation? m'.registers.pc)) = true := by
  rcases h.ends with ⟨-, hexhausted, -, -⟩ | hround
  · exact absurd hexhausted.symm hb
  · exact hround.ends.2 rfl

/-- A machine that does not run has not come to any point or goal. -/
theorem stop_of_stopped {m : Machine} (h : m.stopped? = some stop) :
    stop ≠ .stepComplete ∧ ∀ id, stop ≠ .breakpoint id ∧ stop ≠ .watchpoint id := by
  simp only [stopped?] at h
  split at h <;> cases h <;> exact ⟨by simp, by simp⟩

theorem drive_driven (hb : ∀ id, b.exhausted ≠ .breakpoint id) (hd : s.drive b g = (r, s')) :
    ∃ rs, Driven s rs r s' := by
  rcases drive_ends hd with ⟨stop, hstopped, rfl, rfl⟩ |
    ⟨hready, rs, m₁, p₁, stop, rs', m', p', hruns, rfl, rfl⟩
  · refine ⟨[], ⟨_, .nil, leftAs_conclude (leftAs_unrequested _)⟩, rfl, ?_, trivial, ?_⟩
    · rw [breakpoints_conclude]
    · exact fun id hid => absurd hid ((stop_of_stopped hstopped).2 id).1
  · obtain ⟨⟨n, hret, hleft⟩, hsteps⟩ := hruns.ran hready
    obtain ⟨hsettings, hheeds⟩ := hruns.heeds
    refine ⟨rs ++ rs', ⟨n, hret, leftAs_conclude hleft⟩, hsteps, ?_, hheeds, ?_⟩
    · rw [breakpoints_conclude]
      exact hsettings
    · rintro id rfl
      rw [pc_conclude]
      exact hruns.lowest (hb id)

/-- A run that completes a step by its goal alone stands where the goal is reached. -/
theorem reached_of_drive (hb : b.exhausted ≠ .stepComplete) (hd : s.drive b g = (r, s'))
    (hstop : r.stop = .stepComplete) :
    ∃ depth, g.reached depth (s.debugInfo?.bind (·.exactLocation? s'.pc)) = true := by
  rcases drive_ends hd with ⟨stop, hstopped, rfl, -⟩ |
    ⟨-, rs, m₁, p₁, stop, rs', m', p', hruns, rfl, rfl⟩
  · exact absurd hstop (stop_of_stopped hstopped).1
  · cases hstop
    rw [pc_conclude]
    exact hruns.reached hb

theorem skip_of_drive (hd : s.drive b g = (r, s')) : s'.tracker.skip = some s'.pc := by
  cases hd
  rw [skip_conclude, pc_conclude]

theorem skip_stepLinesFrom {d : DebugInfo} :
    ∀ {n : Nat} {s : Session} {total : RunResult}, stepLinesFrom d s total n = (r, s') →
      n ≠ 0 ∨ s.tracker.skip = some s.pc → s'.tracker.skip = some s'.pc := by
  intro n
  induction n with
  | zero =>
    intro s total hs hskip
    cases hs
    exact hskip.resolve_left (absurd rfl)
  | succ n ih =>
    intro s total hs _
    rcases hd : s.drive (.line s.lineLimit) (.line (d.locationAt? s.pc)) with ⟨r₁, s₁⟩
    simp only [stepLinesFrom, hd] at hs
    split at hs
    · exact ih hs (.inr (skip_of_drive hd))
    · cases hs
      exact skip_of_drive hd

end Session

/-! ## Histories -/

namespace Command

/-- Whether the command is one run of the machine. -/
def runsOnce : Command → Bool
  | step _ | run _ | resume | stepOver | stepOut => true
  | _ => false

end Command

namespace Session

/-- The address at which the last run ended, once a command has been carried out; there is none
before the first run and after a reset or entering a function. A run is one `Session.drive`. Stepping
by source lines is one for each line, so that stepping by none is no run; without debugging
information it is one run in any case. -/
def endedAfter (s : Session) (ended : Option Word) : Command → Option Word
  | .stepLines n =>
    if n = 0 ∧ s.debugInfo?.isSome then ended else some (s.perform (.stepLines n)).2.pc
  | .reset => none
  | .enter name => if (s.enter name).isOk then none else ended
  | c => if c.runsOnce then some (s.perform c).2.pc else ended

/-- The address at which the last of the runs ended that some commands came to. -/
def endedAfterAll (s : Session) (ended : Option Word) : List Command → Option Word
  | [] => ended
  | c :: cs => (s.perform c).2.endedAfterAll (s.endedAfter ended c) cs

variable {s s' : Session} {c : Command} {cs : List Command}

theorem skip_stepLines (n : Nat) : (s.stepLines n).2.tracker.skip =
    if n = 0 ∧ s.debugInfo?.isSome then s.tracker.skip else some (s.stepLines n).2.pc := by
  simp only [stepLines]
  split
  · rename_i hd
    simp only [hd, Option.isSome_none, Bool.false_eq_true, and_false, if_false]
    exact skip_of_drive rfl
  · rename_i d hd
    cases n with
    | zero => simp [hd, stepLinesFrom]
    | succ n =>
      rw [if_neg fun h => Nat.succ_ne_zero n h.1]
      exact skip_stepLinesFrom rfl (.inl (Nat.succ_ne_zero n))

/-- The address that the breakpoints pass over is the one at which the last run ended. -/
theorem skip_perform : (s.perform c).2.tracker.skip = s.endedAfter s.tracker.skip c := by
  by_cases hpoints : c.setsPoints
  · rw [(perform_of_setsPoints hpoints).2.2]
    cases c <;> first | rfl | cases hpoints
  · cases c with
    | step n => exact skip_of_drive rfl
    | run n => exact skip_of_drive rfl
    | resume => exact skip_of_drive rfl
    | stepOver => exact skip_of_drive rfl
    | stepOut => exact skip_of_drive rfl
    | stepLines n => exact skip_stepLines n
    | requestStop => rfl
    | writeRegister r w => rfl
    | writeMemory a bytes =>
      simp only [perform, writeMemory]
      cases s.machine.writeMemory a bytes <;> rfl
    | reset => rfl
    | enter name =>
      rcases hm : s.machine.enter name with e | m <;>
        simp only [perform, endedAfter, enter, hm] <;> rfl
    | _ => exact absurd rfl hpoints

theorem skip_performAll (s : Session) : ∀ (cs : List Command),
    (s.performAll cs).2.tracker.skip = s.endedAfterAll s.tracker.skip cs := by
  intro cs
  induction cs generalizing s with
  | nil => rfl
  | cons c cs ih =>
    rw [endedAfterAll, ← skip_perform]
    exact ih (s.perform c).2

/-- **A run heeds the breakpoints.** Whatever commands have come before, a run retires no
instruction at the address of an enabled breakpoint, but for its first one at the address at which
the run before it ended. Where it reports a breakpoint, it stands before the instruction at that
address, and the breakpoint is the one with the lowest number there. -/
theorem perform_heeds (m : Machine) (o : Observer) (lineLimit : Nat) (cs : List Command)
    (hc : c.runsOnce)
    (hs : (Session.performAll { machine := m, observer := o, lineLimit } cs).2 = s) :
    ∃ r s' rs, s.perform c = (some r, s') ∧ s.Retired rs s' ∧ r.steps = rs.length ∧
      (∀ i x, rs[i]? = some x → s.tracker.StopsAt x.pc →
        i = 0 ∧ Session.endedAfterAll { machine := m, observer := o, lineLimit } none cs =
          some s.pc) ∧
      ∀ id, r.stop = .breakpoint id → s.tracker.breakpoints.IsLowest (· = s'.pc) id := by
  have hdrive : ∃ b g, (∀ id, b.exhausted ≠ .breakpoint id) ∧ s.perform c = ran (s.drive b g) := by
    cases c with
    | step n => exact ⟨.steps n, .none, by simp [Budget.steps], rfl⟩
    | run n => exact ⟨.run n, .none, by simp [Budget.run], rfl⟩
    | resume => exact ⟨.run 0, .none, by simp [Budget.run], rfl⟩
    | stepOver => exact ⟨.run 0, .atMost s.tracker.calls.depth, by simp [Budget.run], rfl⟩
    | stepOut => exact ⟨.run 0, .below s.tracker.calls.depth, by simp [Budget.run], rfl⟩
    | _ => cases hc
  obtain ⟨b, g, hb, hperform⟩ := hdrive
  rcases hd : s.drive b g with ⟨r, s'⟩
  obtain ⟨rs, hdriven⟩ := drive_driven hb hd
  refine ⟨r, s', rs, ?_, hdriven.retired, hdriven.steps, fun i x hx hstops => ?_, hdriven.lowest⟩
  · rw [hperform, hd, ran]
  · obtain ⟨rfl, hskip⟩ := hdriven.heeds.index_eq_zero hx hstops
    have hpc : x.pc = s.pc := hdriven.retired.pc_head (by rw [List.head?_eq_getElem?]; exact hx)
    rw [← hpc, ← hskip, ← hs, skip_performAll]
    exact ⟨rfl, rfl⟩

/-- Three breakpoints, two of them on one address, and a run that ends where it begins. -/
def threeBreakpoints : List Command :=
  [.addBreakpoint 0x1000, .addBreakpoint 0x1004, .addBreakpoint 0x1004, .step 0]

theorem perform_heeds_passing : ∃ m s r s' rs,
    Machine.load adder .standard { stackSize := 8 } = .ok m ∧
      (Session.performAll { machine := m } threeBreakpoints).2 = s ∧
      s.perform .resume = (some r, s') ∧ s.Retired rs s' ∧ rs.length = 1 ∧
      (∀ i x, rs[i]? = some x → s.tracker.StopsAt x.pc →
        i = 0 ∧ Session.endedAfterAll { machine := m } none threeBreakpoints = some s.pc) ∧
      s.tracker.breakpoints.IsLowest (· = s'.pc) 1 := by
  obtain ⟨m, hload, hrun⟩ : ∃ m, Machine.load adder .standard { stackSize := 8 } = .ok m ∧
      (((Session.performAll { machine := m } threeBreakpoints).2.perform .resume).1.map
        fun r => (r.stop, r.steps)) = some (.breakpoint 1, 1) := ⟨_, rfl, by decide +kernel⟩
  obtain ⟨r, s', rs, hperform, hretired, hsteps, hheeds, hlowest⟩ :=
    perform_heeds m Observer.quiet defaultLineLimit threeBreakpoints (c := .resume) rfl rfl
  simp only [hperform, Option.map_some, Option.some.injEq, Prod.mk.injEq] at hrun
  exact ⟨m, _, r, s', rs, hload, rfl, hperform, hretired, hsteps ▸ hrun.2, hheeds,
    hlowest 1 hrun.1⟩

end Session
end WordMachine
