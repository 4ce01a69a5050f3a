import WordMachine.Proofs.SideBySide

/-!
# WordMachine.Proofs.FreshStart

A reset is a fresh start. Whatever has been done with a machine, a reset brings back the machine
that was loaded (`Machine.Handled.reset_eq`). And a session goes on after a reset like a new session
with the same points, but for what it had counted and told before (`Session.reset_startsAfresh`).
-/

namespace WordMachine

open Outcome

/-! ## The machine -/

namespace Machine

variable {m m' : Machine} {p : Program} {i : InstructionSet} {settings : MachineSettings}

/-- Whatever may be done with a machine: running it with any hooks on any budget, writing to it,
entering it anywhere, resetting it, and asking it to stop or taking that back. -/
inductive Handled (m : Machine) : Machine → Prop where
  | refl : Handled m m
  | run {σ : Type} {h : Hooks σ} {b : Budget} {x x' : σ} {r : RunResult} {m₁ m' : Machine}
      (hm : Handled m m₁) (hrun : m₁.runWith b h x = (r, m', x')) : Handled m m'
  | writeRegister {m₁ : Machine} (hm : Handled m m₁) (r : Register) (w : Word) :
      Handled m (m₁.writeRegister r w)
  | writeMemory {m₁ m' : Machine} {a : Word} {bytes : List Byte} (hm : Handled m m₁)
      (hwrite : m₁.writeMemory a bytes = .ok m') : Handled m m'
  | enterAt {m₁ : Machine} (hm : Handled m m₁) (a : Word) : Handled m (m₁.enterAt a)
  | reset {m₁ : Machine} (hm : Handled m m₁) : Handled m m₁.reset
  | signal {m₁ : Machine} (hm : Handled m m₁) (request : Bool) :
      Handled m { m₁ with stopRequested := request }

namespace Handled

theorem enter {m₁ : Machine} {name : String} (h : Handled m m₁) (henter : m₁.enter name = .ok m') :
    Handled m m' := by
  simp only [Machine.enter] at henter
  split at henter
  · cases henter
    exact h.enterAt _
  · cases henter

theorem sameSetup (h : Handled m m') : m'.SameSetup m := by
  induction h with
  | refl => exact ⟨rfl, rfl, rfl, rfl, rfl⟩
  | run _ hrun ih =>
    obtain ⟨_, ⟨n, hret, hleft⟩, -⟩ := runWith_leaves hrun
    exact ((hleft.sameSetup.trans hret.sameSetup).trans (sameSetup_unrequested _)).trans ih
  | writeMemory _ hwrite ih =>
    simp only [Machine.writeMemory, bind_ok_iff, pure_ok_iff] at hwrite
    obtain ⟨_, -, rfl⟩ := hwrite
    exact ⟨ih.program, ih.instructions, ih.settings, ih.image, ih.stackTop⟩
  | writeRegister _ _ _ ih | enterAt _ _ ih | reset _ ih | signal _ _ ih =>
    exact ⟨ih.program, ih.instructions, ih.settings, ih.image, ih.stackTop⟩

end Handled

/-- A reset looks at nothing but what the machine was loaded with. -/
theorem reset_of_sameSetup (h : m'.SameSetup m) {map : MemoryMap}
    (hmap : m.program.memoryMap = some map) :
    m'.reset = { m.reset with stopRequested := m'.stopRequested } := by
  simp only [reset, enterAt, start, h.program, h.instructions, h.settings, h.image, h.stackTop,
    hmap, Option.map_some, Option.getD_some]

theorem reset_of_load (h : load p i settings = .ok m) :
    m.reset = m ∧ ∃ map, m.program.memoryMap = some map := by
  simp only [load, bind_ok_iff, pure_ok_iff] at h
  obtain ⟨map, hmapOf, image, -, rfl⟩ := h
  have hmap : p.memoryMap = some map := by
    simp only [Image.mapOf] at hmapOf
    split at hmapOf
    · cases hmapOf
    · rename_i map' hmap'
      split at hmapOf
      · cases hmapOf
        exact hmap'
      · cases hmapOf
  refine ⟨?_, map, hmap⟩
  simp only [reset, enterAt, start, hmap, Option.map_some, Option.getD_some]

/-- A reset brings back the machine that was loaded, but for a request to stop. -/
theorem Handled.reset_eq (hload : load p i settings = .ok m) (h : Handled m m') :
    m'.reset = { m with stopRequested := m'.stopRequested } := by
  obtain ⟨hreset, map, hmap⟩ := reset_of_load hload
  rw [reset_of_sameSetup h.sameSetup hmap, hreset]

end Machine

/-! ## Reset -/

namespace Session

open Machine

variable {m : Machine} {s s' : Session} {r : RunResult} {b : Budget} {g : Goal}

theorem handled_conclude (h : Handled m s.machine) : Handled m (s.conclude r).machine := by
  simp only [conclude]
  split
  · exact h
  · exact h.signal _

theorem handled_drive (h : Handled m s.machine) (hd : s.drive b g = (r, s')) :
    Handled m s'.machine := by
  rcases hrun : s.machine.runWith b (Tracker.hooks s.observer s.debugInfo? g) s.tracker with
    ⟨r₀, m', tracker⟩
  simp only [drive, hrun] at hd
  cases hd
  exact handled_conclude (h.run hrun)

theorem handled_stepLinesFrom {d : DebugInfo} :
    ∀ {n : Nat} {s : Session} {total : RunResult}, Handled m s.machine →
      stepLinesFrom d s total n = (r, s') → Handled m s'.machine := by
  intro n
  induction n with
  | zero =>
    intro s total h hs
    cases hs
    exact h
  | succ n ih =>
    intro s total h hs
    rcases hd : s.drive (.line s.lineLimit) (.line (d.locationAt? s.pc)) with ⟨r₁, s₁⟩
    simp only [stepLinesFrom, hd] at hs
    split at hs
    · exact ih (handled_drive h hd) hs
    · cases hs
      exact handled_drive h hd

/-- No command does anything else with the machine. -/
theorem handled_perform (h : Handled m s.machine) (c : Command) :
    Handled m (s.perform c).2.machine := by
  by_cases hruns : c.runs
  · rcases perform_of_runs (s := s) hruns with ⟨b, g, -, hperform⟩ | ⟨d, n, -, hperform⟩
    · rw [hperform]
      exact handled_drive h rfl
    · rw [hperform]
      exact handled_stepLinesFrom h rfl
  · by_cases hpoints : c.setsPoints
    · rw [(perform_of_setsPoints hpoints).2.1]
      exact h
    · cases c with
      | requestStop => exact h.signal _
      | writeRegister r w => exact h.writeRegister r w
      | writeMemory a bytes =>
        rcases hm : s.machine.writeMemory a bytes with e | m' <;>
          simp only [perform, writeMemory, hm]
        · exact h
        · exact h.writeMemory hm
      | reset => exact h.reset
      | enter name =>
        rcases hm : s.machine.enter name with e | m' <;> simp only [perform, enter, hm]
        · exact h
        · exact h.enter hm
      | step | run | resume | stepOver | stepOut | stepLines => exact absurd rfl hruns
      | _ => exact absurd rfl hpoints

theorem handled_performAll : ∀ {cs : List Command} {s : Session}, Handled m s.machine →
    Handled m (s.performAll cs).2.machine := by
  intro cs
  induction cs with
  | nil => exact fun h => h
  | cons c cs ih => exact fun h => ih (handled_perform h c)

/-- A session over a machine that has the points of another one, none of which has stopped anything
yet. -/
def afresh (s : Session) (m : Machine) : Session where
  machine := m
  tracker :=
    { breakpoints := s.tracker.breakpoints.unhit, watchpoints := s.tracker.watchpoints.unhit }
  observer := s.observer
  lineLimit := s.lineLimit

/-- What a session has behind it. -/
def past (s : Session) : Past where
  breakpoints := s.tracker.breakpoints.hitsOf
  watchpoints := s.tracker.watchpoints.hitsOf
  events := s.tracker.events

theorem recalls_reset (hquiet : s.observer = Observer.quiet) (hm : s.machine.reset = m) :
    Recalls s.past (s.afresh m) s.reset := by
  refine ⟨?_, hquiet, fun _ hid => PointTable.hitsOf_eq_zero (t := s.tracker.breakpoints) hid,
    fun _ hid => PointTable.hitsOf_eq_zero (t := s.tracker.watchpoints) hid⟩
  simp only [reset, hm, withPast, afresh, past, Tracker.withPast, Tracker.restart,
    PointTable.withHits_unhit, List.map_nil, List.nil_append]

/-- **A reset is a fresh start.** Whatever has been done with a machine, a reset brings back the
machine that was loaded, but for a request to stop. And where nobody asks to stop, whatever has been
done with a session, after a reset it returns, tells and shows what a new session over the machine
that was loaded does with the same points, and adds the stops that they had counted before. -/
theorem reset_startsAfresh {p : Program} {i : InstructionSet} {settings : MachineSettings}
    (hload : Machine.load p i settings = .ok m) :
    (∀ m' : Machine, Handled m m' →
      m'.reset = { m with stopRequested := m'.stopRequested }) ∧
      ∀ (s₀ : Session) (history : List Command), Handled m s₀.machine →
        (∀ es, s₀.observer es = Reply.silent) → (s₀.performAll history).2 = s →
        s.machine.stopRequested = false → ∀ cs : List Command,
          s.reset.responses cs = ((s.afresh m).responses cs).map (·.withPast s.past) ∧
            (s.reset.performAll cs).2.callStack = ((s.afresh m).performAll cs).2.callStack ∧
            (s.reset.performAll cs).2.tracker.events =
              ((s.afresh m).performAll cs).2.tracker.events.map (·.withPast s.past) ++
                s.tracker.events ∧
            (s.reset.performAll cs).2 = ((s.afresh m).performAll cs).2.withPast s.past := by
  refine ⟨fun m' h => h.reset_eq hload, fun s₀ history h hsilent hs hlowered cs => ?_⟩
  have hhandled : Handled m s.machine := hs ▸ handled_performAll h
  have hreset : s.machine.reset = m := by
    rw [hhandled.reset_eq hload, hlowered, ← (fresh_of_load hload).2]
  have hquiet : s.observer = Observer.quiet := hs ▸ quiet_performAll (funext hsilent) history
  obtain ⟨hresponses, heq, -, -⟩ := Recalls.performAll cs (recalls_reset hquiet hreset)
  refine ⟨hresponses, ?_, ?_, heq⟩
  · rw [heq]
    rfl
  · rw [heq]
    rfl

/-- A breakpoint that stops a run, and a run to the end after a register was written. -/
def spent : List Command :=
  [.addBreakpoint 0x1004, .resume, .writeRegister .r0 7, .resume]

/-- After a reset the breakpoint stops the run again, and has then counted both stops. -/
theorem reset_startsAfresh_spent : ∃ m s,
    Machine.load adder .standard { stackSize := 8 } = .ok m ∧ Handled m s.machine ∧
      (Session.performAll { machine := m } spent).2 = s ∧ s.machine.state = .halted ∧
      s.machine.reset = m ∧
      s.reset.responses [.resume, .removeBreakpoint 0] =
        ((s.afresh m).responses [.resume, .removeBreakpoint 0]).map (·.withPast s.past) ∧
      (s.afresh m).responses [.resume, .removeBreakpoint 0] =
        [.ran { stop := .breakpoint 0, steps := 1, cycles := 1, lastPc := 0x1000 },
          .removedBreakpoint { id := 0, site := 0x1004, hits := 1 }] ∧
      s.past.breakpoints 0 = 1 := by
  obtain ⟨m, s, hload, hspent, hlowered, hstate, hresponses, hpast⟩ : ∃ m s,
      Machine.load adder .standard { stackSize := 8 } = .ok m ∧
      (Session.performAll { machine := m } spent).2 = s ∧
      s.machine.stopRequested = false ∧ s.machine.state = .halted ∧
      (s.afresh m).responses [.resume, .removeBreakpoint 0] =
        [.ran { stop := .breakpoint 0, steps := 1, cycles := 1, lastPc := 0x1000 },
          .removedBreakpoint { id := 0, site := 0x1004, hits := 1 }] ∧
      s.past.breakpoints 0 = 1 :=
    ⟨_, _, rfl, rfl, by decide +kernel, by decide +kernel, by decide +kernel, by decide +kernel⟩
  obtain ⟨hmachine, hsession⟩ := reset_startsAfresh (s := s) hload
  have hhandled : Handled m s.machine := hspent ▸ handled_performAll (s := { machine := m }) .refl
  have hreset : s.machine.reset = m := by
    rw [hmachine _ hhandled, hlowered, ← (fresh_of_load hload).2]
  obtain ⟨hsame, -⟩ := hsession { machine := m } spent .refl (fun _ => rfl) hspent hlowered
    [.resume, .removeBreakpoint 0]
  exact ⟨m, s, hload, hhandled, hspent, hstate, hreset, hsame, hresponses, hpast⟩

end Session
end WordMachine
