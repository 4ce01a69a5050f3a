import WordMachine.Proofs.Driving
import WordMachine.Proofs.Outcome

/-!
# WordMachine.Proofs.Transparency

A session does not disturb the machine. However its commands are interleaved, and whatever the
observer asks for, the machine stands where the instructions that the commands retired lead to
(`Session.Follows`), and a machine without a session that retires as many instructions has the same
contents (`Session.performAll_sameContents`).
-/

namespace WordMachine

namespace Machine

/-- The same registers, memory and counts. -/
structure SameContents (m n : Machine) : Prop where
  registers : m.registers = n.registers
  memory : m.memory = n.memory
  totalSteps : m.totalSteps = n.totalSteps
  totalCycles : m.totalCycles = n.totalCycles

theorem sameContents_of_settled {m n : Machine} (h : m.settled = n.settled) : m.SameContents n where
  registers := congrArg (·.registers) h
  memory := congrArg (·.memory) h
  totalSteps := congrArg (·.totalSteps) h
  totalCycles := congrArg (·.totalCycles) h

end Machine

open Outcome in
/-- A machine that was just loaded is ready, and nobody has asked it to stop. -/
theorem fresh_of_load {p : Program} {i : InstructionSet} {settings : MachineSettings} {m : Machine}
    (h : Machine.load p i settings = .ok m) : m.state = .ready ∧ m.stopRequested = false := by
  simp only [Machine.load, bind_ok_iff, pure_ok_iff] at h
  obtain ⟨map, -, image, -, rfl⟩ := h
  exact ⟨rfl, rfl⟩

namespace Session

open Machine

variable {m : Machine} {s s' : Session} {k : Nat} {r : RunResult} {c : Command}

/-- The machine of the session is as a number of instructions from `m` on have left it. -/
def Follows (m : Machine) (k : Nat) (s : Session) : Prop :=
  ∃ rs n, rs.length = k ∧ Retires rs m.unrequested n ∧ LeftAs n s.machine

theorem Follows.of_machine_eq (h : Follows m k s) (hm : s'.machine = s.machine) :
    Follows m k s' := by
  obtain ⟨rs, n, hlen, hret, hleft⟩ := h
  exact ⟨rs, n, hlen, hret, hm ▸ hleft⟩

theorem Follows.heed (h : Follows m k s) {b : Bool} (hm : s'.machine = s.machine.heed b) :
    Follows m k s' := by
  obtain ⟨rs, n, hlen, hret, hleft⟩ := h
  exact ⟨rs, n, hlen, hret, hm ▸ hleft.heed b⟩

/-! ## Commands that run the machine -/

theorem Follows.drive {b : Budget} {g : Goal} (h : Follows m k s) (hd : s.drive b g = (r, s')) :
    Follows m (k + r.steps) s' := by
  rcases hrun : s.machine.runWith b (Tracker.hooks s.observer s.debugInfo? g) s.tracker with
    ⟨r, m', tracker⟩
  simp only [Session.drive, hrun] at hd
  cases hd
  obtain ⟨rs, n, hlen, hret, hleft⟩ := h
  obtain ⟨rs', ⟨n', hret', hleft'⟩, hsteps, -⟩ := runWith_leaves hrun
  obtain ⟨n'', hret'', hleft''⟩ := hleft.retires hret' hleft'
  refine ⟨rs ++ rs', n'', ?_, hret.trans hret'', leftAs_conclude hleft''⟩
  rw [List.length_append, hlen, hsteps]

theorem Follows.stepLinesFrom {d : DebugInfo} :
    ∀ {count k : Nat} {s : Session} {total : RunResult}, Follows m k s →
      stepLinesFrom d s total count = (r, s') →
        ∃ j, r.steps = total.steps + j ∧ Follows m (k + j) s' := by
  intro count
  induction count with
  | zero =>
    intro k s total h hs
    simp only [Session.stepLinesFrom] at hs
    cases hs
    exact ⟨0, rfl, h⟩
  | succ count ih =>
    intro k s total h hs
    rcases hd : s.drive (.line s.lineLimit) (.line (d.locationAt? s.pc)) with ⟨r₁, s₁⟩
    simp only [Session.stepLinesFrom, hd] at hs
    split at hs
    · obtain ⟨j, hj, hfollows⟩ := ih (h.drive hd) hs
      rw [Nat.add_assoc] at hfollows
      refine ⟨r₁.steps + j, ?_, hfollows⟩
      rw [hj, RunResult.followedBy, Nat.add_assoc]
    · cases hs
      exact ⟨r₁.steps, rfl, h.drive hd⟩

theorem Follows.stepLines {n : Nat} (h : Follows m k s) (hs : s.stepLines n = (r, s')) :
    Follows m (k + r.steps) s' := by
  simp only [Session.stepLines] at hs
  split at hs
  · exact h.drive hs
  · obtain ⟨j, hj, hfollows⟩ := h.stepLinesFrom hs
    rw [hj, Nat.zero_add]
    exact hfollows

/-! ## All commands -/

/-- A command on points has no result, and leaves the machine and the address that breakpoints pass
over alone. -/
theorem perform_of_setsPoints (hc : c.setsPoints) :
    (s.perform c).1 = none ∧ (s.perform c).2.machine = s.machine ∧
      (s.perform c).2.tracker.skip = s.tracker.skip := by
  cases c with
  | addBreakpoint a => exact ⟨rfl, rfl, rfl⟩
  | addBreakpointAtLine l =>
    simp only [perform, addBreakpointAtLine]
    split <;> exact ⟨trivial, rfl, rfl⟩
  | addBreakpointAtFunction name =>
    simp only [perform, addBreakpointAtFunction]
    split <;> exact ⟨trivial, rfl, rfl⟩
  | removeBreakpoint id =>
    simp only [perform, removeBreakpoint]
    split <;> exact ⟨trivial, rfl, rfl⟩
  | setBreakpointEnabled id enabled =>
    simp only [perform, setBreakpointEnabled]
    split <;> exact ⟨trivial, rfl, rfl⟩
  | addWatchpoint w => exact ⟨rfl, rfl, rfl⟩
  | removeWatchpoint id =>
    simp only [perform, removeWatchpoint]
    split <;> exact ⟨trivial, rfl, rfl⟩
  | setWatchpointEnabled id enabled =>
    simp only [perform, setWatchpointEnabled]
    split <;> exact ⟨trivial, rfl, rfl⟩
  | _ => cases hc

theorem Follows.perform {r : Option RunResult} (h : Follows m k s) (hc : c.isPassive)
    (hp : s.perform c = (r, s')) : Follows m (k + (r.toList.map RunResult.steps).sum) s' := by
  by_cases hpoints : c.setsPoints
  · obtain ⟨hnone, hmachine, -⟩ := perform_of_setsPoints (s := s) hpoints
    rw [hp] at hnone hmachine
    cases hnone
    exact h.of_machine_eq hmachine
  · cases c with
    | step n => cases hp; exact h.drive rfl
    | run n => cases hp; exact h.drive rfl
    | resume => cases hp; exact h.drive rfl
    | stepOver => cases hp; exact h.drive rfl
    | stepOut => cases hp; exact h.drive rfl
    | stepLines n => cases hp; exact h.stepLines rfl
    | requestStop => cases hp; exact h.heed rfl
    | writeRegister r w => cases hc
    | writeMemory a bytes => cases hc
    | reset => cases hc
    | enter name => cases hc
    | _ => exact absurd rfl hpoints

theorem Follows.performAll :
    ∀ {cs : List Command} {k : Nat} {s : Session} {rs : List RunResult}, Follows m k s →
      (∀ c ∈ cs, c.isPassive) → s.performAll cs = (rs, s') →
        Follows m (k + (rs.map RunResult.steps).sum) s' := by
  intro cs
  induction cs with
  | nil =>
    intro k s rs h _ hp
    cases hp
    exact h
  | cons c cs ih =>
    intro k s rs h hcs hp
    rw [List.forall_mem_cons] at hcs
    rcases hc : s.perform c with ⟨r, s₁⟩
    rcases hrest : s₁.performAll cs with ⟨rs₁, s₂⟩
    simp only [Session.performAll, hc, hrest] at hp
    cases hp
    have hfollows := ih (h.perform hcs.1 hc) hcs.2 hrest
    rw [List.map_append, List.sum_append, ← Nat.add_assoc]
    exact hfollows

/-- **A session does not disturb the machine.** After any commands that write neither registers nor
memory and neither reset nor enter, under any observer, a machine that was freshly loaded has the
contents that it has after as many instructions without a session. -/
theorem performAll_sameContents {p : Program} {i : InstructionSet} {settings : MachineSettings}
    (hload : Machine.load p i settings = .ok m) (o : Observer) (lineLimit : Nat)
    {cs : List Command} (hcs : ∀ c ∈ cs, c.isPassive) {rs : List RunResult}
    (hp : Session.performAll { machine := m, observer := o, lineLimit } cs = (rs, s')) :
    s'.machine.SameContents (m.run (.steps (rs.map RunResult.steps).sum)).2 := by
  obtain ⟨hready, hstop⟩ := fresh_of_load hload
  have hfollows : Follows m 0 { machine := m, observer := o, lineLimit } :=
    ⟨[], _, rfl, .nil, leftAs_unrequested m⟩
  obtain ⟨reports, n, hlen, hret, hleft⟩ := hfollows.performAll hcs hp
  have hm : m.unrequested = m := by rw [unrequested, ← hstop]
  rw [hm] at hret
  rw [Nat.zero_add] at hlen
  have hrun := run_steps_of_retires hret hready hstop
  rw [hlen] at hrun
  exact sameContents_of_settled (hleft.settled.trans hrun.symm)

/-- A move, an addition and a halt. -/
def adder : Program where
  fileName := "unit.o"
  code := [
    { address := some 0x1000, fields := some ⟨.movImm16L, [5, 0]⟩ },
    { address := some 0x1004, fields := some ⟨.add, [0, 0, 1]⟩ },
    { address := some 0x1008, fields := some ⟨.halt, []⟩ }]
  memoryMap := some ⟨0x1000, 0x1000, 12, 0x100c, 0, 12, 4⟩

/-- Running into a breakpoint, being interrupted, and going on to the end and past it. -/
def detour : List Command :=
  [.addBreakpoint 0x1004, .resume, .requestStop, .stepOver, .stepOver, .removeBreakpoint 0,
    .stepLines 1, .resume]

theorem performAll_sameContents_detour : ∃ m rs s',
    Machine.load adder .standard { stackSize := 8 } = .ok m ∧
      Session.performAll { machine := m } detour = (rs, s') ∧
      rs.map RunResult.steps = [1, 0, 1, 1, 0] ∧
      s'.machine.SameContents (m.run (.steps 3)).2 := by
  have hrun : ∃ m rs s', Machine.load adder .standard { stackSize := 8 } = .ok m ∧
      Session.performAll { machine := m } detour = (rs, s') ∧
      rs.map RunResult.steps = [1, 0, 1, 1, 0] := ⟨_, _, _, rfl, rfl, by decide +kernel⟩
  obtain ⟨m, rs, s', hload, hp, hsteps⟩ := hrun
  have hsame := performAll_sameContents hload Observer.quiet defaultLineLimit (by decide) hp
  rw [hsteps] at hsame
  exact ⟨m, rs, s', hload, hp, hsteps, hsame⟩

end Session
end WordMachine
