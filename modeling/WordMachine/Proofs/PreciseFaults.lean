import WordMachine.Proofs.Execution
import WordMachine.Proofs.Retirement

/-!
# WordMachine.Proofs.PreciseFaults

When an instruction faults, and what it leaves behind. `Machine.Blocked` says what can keep an
instruction from being carried out: its address, its word or its operation. Those are the faults of
a machine, no more and no fewer (`Machine.step_error_iff`), and since what an operation asks for can
always be committed, no fault comes after the first change (`Machine.fault_precise`). A run that
ends in a fault leaves the machine as it was before the instruction that faulted
(`Machine.runWith_fault`).
-/

namespace WordMachine

open Outcome

/-! ## Instructions -/

namespace Machine

variable {m m' : Machine} {op : Opcode} {e : Effect} {f : Fault} {t : Trap}

/-- What keeps the instruction to come from being carried out. -/
inductive Blocked (m : Machine) : Trap → Prop where
  | misaligned (hpc : m.registers.pc.toNat % Word.size ≠ 0) :
      Blocked m (.misalignedFetch m.registers.pc)
  | outside (hpc : m.registers.pc.toNat % Word.size = 0)
      (hout : ¬ m.memory.Contains m.registers.pc Word.size) :
      Blocked m (.invalidAccess m.registers.pc Word.size)
  | illegal {w : Word} (hpc : m.registers.pc.toNat % Word.size = 0)
      (hread : m.memory.readWord m.registers.pc = .ok w)
      (hnone : m.instructions.operation? w = none) : Blocked m (.illegalInstruction w)
  | refused {w : Word} {i : Instruction} {o : Operation} {t : Trap}
      (hpc : m.registers.pc.toNat % Word.size = 0)
      (hread : m.memory.readWord m.registers.pc = .ok w)
      (hsome : m.instructions.operation? w = some (i, o))
      (hrefused : o.Refused m.registers m.memory t) : Blocked m t

theorem blocked_of_nextEffect (h : m.nextEffect = .error t) : m.Blocked t := by
  by_cases hpc : m.registers.pc.toNat % Word.size = 0
  · rcases hread : m.memory.readWord m.registers.pc with t' | w
    · obtain ⟨hout, rfl⟩ := Memory.readWord_error_iff.1 hread
      simp only [nextEffect, hpc, ne_eq, not_true_eq_false, if_false, hread, error_bind] at h
      cases h
      exact .outside hpc hout
    · rcases hop : m.instructions.operation? w with _ | ⟨i, o⟩
      · simp only [nextEffect, hpc, ne_eq, not_true_eq_false, if_false, hread, ok_bind,
          InstructionSet.operation, hop, error_bind] at h
        cases h
        exact .illegal hpc hread hop
      · have hdecode : m.instructions.operation w = .ok (i, o) := by
          rw [InstructionSet.operation, hop]
        rw [nextEffect_of_fetch hpc hread hdecode,
          bind_total_error_iff fun _ => ⟨_, rfl⟩, Effect.ofOperation_error_iff] at h
        exact .refused hpc hread hop h
  · rw [nextEffect_of_misaligned hpc] at h
    cases h
    exact .misaligned hpc

theorem nextEffect_of_blocked (h : m.Blocked t) : m.nextEffect = .error t := by
  cases h with
  | misaligned hpc => exact nextEffect_of_misaligned hpc
  | outside hpc hout =>
    have hread := Memory.readWord_error_iff.2 ⟨hout, rfl⟩
    simp only [nextEffect, hpc, ne_eq, not_true_eq_false, if_false, hread, error_bind]
  | illegal hpc hread hnone =>
    simp only [nextEffect, hpc, ne_eq, not_true_eq_false, if_false, hread, ok_bind,
      InstructionSet.operation, hnone, error_bind]
  | @refused w i o _ hpc hread hsome hrefused =>
    have hdecode : m.instructions.operation w = .ok (i, o) := by
      rw [InstructionSet.operation, hsome]
    rw [nextEffect_of_fetch hpc hread hdecode, bind_total_error_iff fun _ => ⟨_, rfl⟩]
    exact Effect.ofOperation_error_iff.2 hrefused

/-- Once an effect is known, memory takes it. -/
theorem trap?_of_nextEffect (h : m.nextEffect = .ok (op, e)) : e.trap? m.memory = none := by
  obtain ⟨_, _, _, -, -, -, -, heffect⟩ := fetch_of_nextEffect h
  exact Effect.trap?_of_ofOperation heffect

/-- An instruction faults for what blocks it, and nothing changes but that the fault is latched. -/
theorem step_error_iff : m.step = (.error f, m') ↔
    m.Blocked f.trap ∧ f.pc = m.registers.pc ∧ m' = { m with state := .faulted f } := by
  rcases hnext : m.nextEffect with t | ⟨op, e⟩
  · have hstep : m.step = (.error ⟨t, m.registers.pc⟩, m.latch ⟨t, m.registers.pc⟩) := by
      simp only [step, hnext]
    constructor
    · intro hs
      cases hstep.symm.trans hs
      exact ⟨blocked_of_nextEffect hnext, rfl, rfl⟩
    · rintro ⟨hblocked, hpc, rfl⟩
      cases hnext.symm.trans (nextEffect_of_blocked hblocked)
      rw [hstep, ← hpc]
      rfl
  · have hstep : m.step = (.ok (report m.registers.pc op e), m.retire e) := by
      simp only [step, hnext, trap?_of_nextEffect hnext]
    constructor
    · intro hs
      cases hstep.symm.trans hs
    · rintro ⟨hblocked, -, -⟩
      cases hnext.symm.trans (nextEffect_of_blocked hblocked)

/-- **Faults are precise.** An instruction faults exactly when something blocks it. The fault says
what and at which address, and apart from the fault that is latched the machine is as before. What
an operation asks for can always be committed to the registers and the memory it was read from. -/
theorem fault_precise (m : Machine) :
    (∀ f m', m.step = (.error f, m') ↔
      m.Blocked f.trap ∧ f.pc = m.registers.pc ∧ m' = { m with state := .faulted f }) ∧
    ∀ op o r memory e, Effect.ofOperation op o r memory = .ok e →
      ∃ r' memory', e.commit r memory = .ok (r', memory') := by
  refine ⟨fun f m' => step_error_iff, fun op o r memory e h => ?_⟩
  exact ⟨_, _, Effect.commit_of_ofOperation h⟩

/-- A division, by zero in a machine that was just loaded. -/
def dividing : Program where
  fileName := "unit.o"
  code := [{ address := some 0x1000, fields := some ⟨.div, [0, 1, 2]⟩ }]
  memoryMap := some ⟨0x1000, 0x1000, 4, 0x1004, 0, 4, 4⟩

theorem fault_precise_dividing : ∃ m f m' e,
    load dividing .standard { stackSize := 8 } = .ok m ∧ m.step = (.error f, m') ∧
      f.trap = .divisionByZero ∧ f.pc = m.registers.pc ∧ m' = { m with state := .faulted f } ∧
      Effect.ofOperation .push (.push .lr) m.registers m.memory = .ok e ∧
      ∃ registers memory, e.commit m.registers m.memory = .ok (registers, memory) := by
  obtain ⟨m, f, m', e, hload, hstep, htrap, hpush⟩ : ∃ m f m' e,
      load dividing .standard { stackSize := 8 } = .ok m ∧ m.step = (.error f, m') ∧
        f.trap = .divisionByZero ∧
        Effect.ofOperation .push (.push .lr) m.registers m.memory = .ok e :=
    ⟨_, _, _, _, rfl, rfl, by decide +kernel, rfl⟩
  obtain ⟨hfault, hcommit⟩ := fault_precise m
  obtain ⟨-, hpc, hm'⟩ := (hfault f m').1 hstep
  exact ⟨m, f, m', e, hload, hstep, htrap, hpc, hm', hpush, hcommit _ _ _ _ _ hpush⟩

/-! ## Runs -/

section Runs

variable {σ : Type} {h : Hooks σ} {n : Machine} {p p' : Progress σ} {x x' : σ} {r : StepReport}
  {rs : List StepReport} {b : Budget} {result : RunResult}

theorem Blocked.congr (hb : m.Blocked t) (hsame : m.nextEffect = n.nextEffect) : n.Blocked t :=
  blocked_of_nextEffect (hsame ▸ nextEffect_of_blocked hb)

theorem Settled.stop_ne_fault (hs : Settled h m p r (some (.fault f)) m' p') : False := by
  have hnot (stop : HookStop) : stop.toStop ≠ .fault f := by cases stop <;> simp [HookStop.toStop]
  generalize hstop : some (Stop.fault f) = stop? at hs
  cases hs with
  | halted _ => cases hstop
  | returned _ _ => cases hstop
  | held _ _ _ _ => exact hnot _ (Option.some.inj hstop).symm
  | paced _ _ _ _ hpace =>
    subst hstop
    rcases pace_ends hpace with ⟨hnone, -⟩ | ⟨lag, hlagging, -⟩
    · cases hnone
    · obtain ⟨stop, -, hfault⟩ := Option.map_eq_some_iff.1 hlagging.symm
      exact hnot stop hfault

theorem Round.fault (hr : Round h m p rs (some (.fault f)) m' p') :
    rs = [] ∧ m.Blocked f.trap ∧ f.pc = m.registers.pc ∧ p'.lastPc = f.pc ∧
      m'.unrequested = { m.unrequested with state := .faulted f } := by
  generalize hstop : some (Stop.fault f) = stop? at hr
  cases hr with
  | interrupted _ => cases hstop
  | returned _ => cases hstop
  | @held a stop _ _ _ =>
    cases stop <;> simp [HookStop.toStop] at hstop
  | faulted _ _ _ hstep =>
    cases hstop
    obtain ⟨hblocked, hpc, rfl⟩ := step_error_iff.1 hstep
    exact ⟨rfl, hblocked.congr rfl, hpc, rfl, rfl⟩
  | retired _ _ _ _ hsettled =>
    subst hstop
    exact hsettled.stop_ne_fault.elim

/-- A run that ends in a fault has carried out what came before the instruction that faulted, and
left the machine there. -/
theorem runWith_fault (hready : m.state = .ready) (hexhausted : b.exhausted ≠ .fault f)
    (hr : m.runWith b h x = (result, m', x')) (hstop : result.stop = .fault f) :
    ∃ rs n, Retires rs m.unrequested n ∧ result.steps = rs.length ∧ n.Blocked f.trap ∧
      f.pc = n.registers.pc ∧ result.lastPc = f.pc ∧
      m'.unrequested = { n with state := .faulted f } := by
  rcases runWith_ends hr with ⟨stop, hstopped, -⟩ | ⟨-, stop, p', -, rfl, hrounds⟩
  · simp [stopped?, hready] at hstopped
  · cases hstop
    obtain ⟨rs, m₁, p₁, hadvances, hend⟩ := rounds_ends hrounds
    obtain ⟨⟨⟨n, hret, hleft⟩, hsteps, -⟩, hready₁⟩ := hadvances.ran hready
    rcases hend with ⟨-, hfault, -⟩ | ⟨-, rs', hround⟩
    · exact absurd hfault.symm hexhausted
    · have hsteps' := (hround.ran hready₁).1.steps
      obtain ⟨rfl, hblocked, hpc, hlast, hm'⟩ := hround.fault
      obtain rfl := hleft.ready hready₁
      refine ⟨rs, m₁.unrequested, hret, ?_, hblocked.congr rfl, hpc, hlast, hm'⟩
      simpa [Progress.result, hsteps] using hsteps'

end Runs

end Machine
end WordMachine
