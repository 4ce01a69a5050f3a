import WordMachine.Proofs.Execution
import WordMachine.Proofs.Watchpoints

/-!
# WordMachine.Proofs.Accounting

The accounts of a run. A machine counts instructions and cycles over all of its life, and every run
reports how many of them are its own; stepping by source lines adds up the reports of one run for
each line. What an instruction has to cost is read off the word in memory (`Machine.charge`), with
no regard to how it is carried out. `Machine.Accounts` says that reports and counters agree with
that, and `every_run_accounts` that they do so after every run.
-/

namespace WordMachine

/-! ## Prices -/

theorem CostClass.cycles_bounds (k : CostClass) : 1 ≤ k.cycles ∧ k.cycles ≤ 3 := by
  cases k <;> decide

namespace Instruction

/-- The mask test of a conditional jump. -/
def testsMask (i : Instruction) (r : RegisterFile) : Bool :=
  match i.register? 0, Operation.word? i 1 with
  | some condition, some mask => r.get condition &&& mask ≠ 0
  | _, _ => false

theorem cycles_taken {i : Instruction} {o : Operation} (ho : Operation.ofInstruction? i = some o)
    (r : RegisterFile) : i.opcode.cycles (Effect.taken r o) = i.opcode.cycles (i.testsMask r) := by
  -- Only of a conditional jump does the price depend on whether it is taken.
  cases hop : i.opcode with
  | jcond =>
    simp only [Operation.ofInstruction?, hop, Option.bind_eq_bind, Option.bind_eq_some_iff,
      Option.pure_def, Option.some.injEq] at ho
    obtain ⟨condition, hcondition, mask, hmask, target, -, rfl⟩ := ho
    simp only [testsMask, hcondition, hmask, Effect.taken]
  | _ => rfl

end Instruction

namespace Machine

variable {m m' n : Machine} {r : StepReport} {rs : List StepReport}

/-- What the instruction at the program counter costs if it is retired. -/
def charge (m : Machine) : Nat :=
  match m.memory.readWord m.registers.pc with
  | .error _ => 0
  | .ok w =>
    match m.instructions.decode w with
    | .error _ => 0
    | .ok i => i.opcode.cycles (i.testsMask m.registers)

/-- What as many instructions in a row cost. -/
def charges : Nat → Machine → Nat
  | 0, _ => 0
  | k + 1, m => m.charge + charges k m.step.2

theorem cycles_of_step (hs : m.step = (.ok r, m')) :
    r.cycles = m.charge ∧ 1 ≤ r.cycles ∧ r.cycles ≤ 3 := by
  obtain ⟨op, e, hnext, -, rfl, -⟩ := step_ok hs
  obtain ⟨w, i, o, e', hread, hdecode, ho, rfl, -, rfl⟩ := changes_of_nextEffect hnext
  refine ⟨?_, CostClass.cycles_bounds _⟩
  simp only [report, charge, hread, hdecode, Instruction.cycles_taken ho]

theorem totals_of_step (hs : m.step = (.ok r, m')) :
    m'.totalSteps = m.totalSteps + 1 ∧ m'.totalCycles = m.totalCycles + r.cycles := by
  obtain ⟨op, e, -, -, rfl, rfl⟩ := step_ok hs
  exact ⟨rfl, rfl⟩

theorem step_snd_unrequested (m : Machine) : m.unrequested.step.2 = m.step.2.unrequested := by
  have hnext : m.unrequested.nextEffect = m.nextEffect := rfl
  simp only [step, hnext]
  cases m.nextEffect with
  | error t => rfl
  | ok x =>
    have htrap : x.2.trap? m.unrequested.memory = x.2.trap? m.memory := rfl
    simp only [htrap]
    cases x.2.trap? m.memory <;> rfl

theorem charges_unrequested (m : Machine) (k : Nat) : charges k m.unrequested = charges k m := by
  induction k generalizing m with
  | zero => rfl
  | succ k ih =>
    have hcharge : m.unrequested.charge = m.charge := rfl
    rw [charges, charges, step_snd_unrequested, ih, hcharge]

/-! ## Instructions in a row -/

theorem Retires.totals (h : Retires rs m n) : n.totalSteps = m.totalSteps + rs.length ∧
    n.totalCycles = m.totalCycles + (rs.map StepReport.cycles).sum := by
  induction h with
  | nil => exact ⟨rfl, rfl⟩
  | cons _ _ hstep _ ih =>
    obtain ⟨hsteps, hcycles⟩ := totals_of_step hstep
    rw [List.length_cons, List.map_cons, List.sum_cons]
    omega

theorem Retires.charges (h : Retires rs m n) :
    (rs.map StepReport.cycles).sum = charges rs.length m := by
  induction h with
  | nil => rfl
  | cons _ _ hstep _ ih =>
    rw [List.map_cons, List.sum_cons, List.length_cons, Machine.charges, hstep,
      (cycles_of_step hstep).1, ih]

theorem Retires.cycles_bounds (h : Retires rs m n) : rs.length ≤ (rs.map StepReport.cycles).sum ∧
    (rs.map StepReport.cycles).sum ≤ 3 * rs.length := by
  induction h with
  | nil => exact ⟨le_rfl, le_rfl⟩
  | cons _ _ hstep _ ih =>
    obtain ⟨-, hlow, hhigh⟩ := cycles_of_step hstep
    rw [List.length_cons, List.map_cons, List.sum_cons]
    omega

/-- The account that a run from one machine to another gives of itself, where `limit` is how many
instructions it may retire. -/
structure Accounts (limit : Option Nat) (m : Machine) (r : RunResult) (m' : Machine) : Prop where
  /-- The run counts the instructions that it retires, and nothing else. -/
  retired : ∃ rs n, Retires rs m.unrequested n ∧ LeftAs n m' ∧ r.steps = rs.length
  totalSteps : m'.totalSteps = m.totalSteps + r.steps
  totalCycles : m'.totalCycles = m.totalCycles + r.cycles
  charged : r.cycles = charges r.steps m
  steps_le_cycles : r.steps ≤ r.cycles
  cycles_le : r.cycles ≤ 3 * r.steps
  within : ∀ k ∈ limit, r.steps ≤ k

theorem Accounts.of_retires {limit : Option Nat} {r : RunResult} (h : Retires rs m.unrequested n)
    (hleft : LeftAs n m') (hsteps : r.steps = rs.length)
    (hcycles : r.cycles = (rs.map StepReport.cycles).sum) (hwithin : ∀ k ∈ limit, r.steps ≤ k) :
    Accounts limit m r m' := by
  have hsteps' : m'.totalSteps = n.totalSteps := congrArg (·.totalSteps) hleft.settled
  have hcycles' : m'.totalCycles = n.totalCycles := congrArg (·.totalCycles) hleft.settled
  obtain ⟨hlow, hhigh⟩ := h.cycles_bounds
  exact
    { retired := ⟨rs, n, h, hleft, hsteps⟩
      totalSteps := by rw [hsteps', h.totals.1, hsteps, unrequested]
      totalCycles := by rw [hcycles', h.totals.2, hcycles, unrequested]
      charged := by rw [hcycles, hsteps, h.charges, charges_unrequested]
      steps_le_cycles := by rw [hcycles, hsteps]; exact hlow
      cycles_le := by rw [hcycles, hsteps]; exact hhigh
      within := hwithin }

/-! ## Runs -/

variable {σ : Type} {h : Hooks σ} {p p' : Progress σ} {stop : Stop} {stop? : Option Stop}

theorem Round.length_le (hr : Round h m p rs stop? m' p') : rs.length ≤ 1 := by
  cases hr <;> simp

theorem rounds_steps_le {exhausted : Stop} {k : Nat} (hready : m.state = .ready)
    (hr : rounds h exhausted k m p = (stop, m', p')) : p'.steps ≤ p.steps + k := by
  obtain ⟨rs, m₁, p₁, hadvances, hend⟩ := rounds_ends hr
  obtain ⟨hran, hready'⟩ := hadvances.ran hready
  have hsteps := hran.steps
  rcases hend with ⟨hlen, -, -, rfl⟩ | ⟨hlen, rs', hround⟩
  · omega
  · -- The round that stops the run is within the budget, and may retire one instruction more.
    have hlast := (hround.ran hready').1.steps
    have hone := hround.length_le
    omega

theorem runWith_steps_le {b : Budget} {x x' : σ} {result : RunResult}
    (hr : m.runWith b h x = (result, m', x')) : ∀ k ∈ b.limit, result.steps ≤ k := by
  intro k hk
  have hallowance : b.allowance = k := by
    rw [Budget.allowance, Option.mem_def.1 hk, Option.getD_some]
  rcases runWith_ends hr with ⟨stop, -, rfl, -, -⟩ | ⟨hready, stop, p', -, rfl, hrounds⟩
  · exact Nat.zero_le k
  · have hsteps := rounds_steps_le hready hrounds
    rw [hallowance, Nat.zero_add] at hsteps
    exact hsteps

theorem runWith_accounts {b : Budget} {x x' : σ} {result : RunResult}
    (hr : m.runWith b h x = (result, m', x')) : m.Accounts b.limit result m' := by
  obtain ⟨rs, ⟨n, hret, hleft⟩, hsteps, hcycles⟩ := runWith_leaves hr
  exact .of_retires hret hleft hsteps hcycles (runWith_steps_le hr)

end Machine

/-! ## Commands -/

namespace Session

open Machine

variable {s s' : Session} {b : Budget} {g : Goal} {r : RunResult} {c : Command}

/-- How many instructions a command that runs the machine may retire, if that is limited. -/
def limit? (s : Session) : Command → Option Nat
  | .step n => some n
  | .run n => if n = 0 then none else some n
  | .stepLines n => some (if s.debugInfo?.isSome then s.lineLimit * n else n)
  | _ => none

/-- Between two sessions lie the instructions with these reports, and the result counts them. -/
structure Reports (s : Session) (r : RunResult) (rs : List StepReport) (s' : Session) : Prop where
  retired : Retired rs s s'
  steps : r.steps = rs.length
  cycles : r.cycles = (rs.map StepReport.cycles).sum

theorem Reports.accounts {rs : List StepReport} {limit : Option Nat} (h : Reports s r rs s')
    (hwithin : ∀ k ∈ limit, r.steps ≤ k) : s.machine.Accounts limit r s'.machine := by
  obtain ⟨⟨n, hret, hleft⟩, hsteps, hcycles⟩ := h
  exact .of_retires hret hleft hsteps hcycles hwithin

theorem lineLimit_drive (hd : s.drive b g = (r, s')) : s'.lineLimit = s.lineLimit := by
  simp only [drive, conclude] at hd
  split at hd <;> cases hd <;> rfl

theorem drive_reports (hd : s.drive b g = (r, s')) :
    (∃ rs, Reports s r rs s') ∧ ∀ k ∈ b.limit, r.steps ≤ k := by
  rcases hrun : s.machine.runWith b (Tracker.hooks s.observer s.debugInfo? g) s.tracker with
    ⟨r₀, m', tracker⟩
  simp only [drive, hrun] at hd
  cases hd
  obtain ⟨rs, ⟨n, hret, hleft⟩, hsteps, hcycles⟩ := runWith_leaves hrun
  exact ⟨⟨rs, ⟨n, hret, leftAs_conclude hleft⟩, hsteps, hcycles⟩, runWith_steps_le hrun⟩

theorem drive_accounts (hd : s.drive b g = (r, s')) : s.machine.Accounts b.limit r s'.machine := by
  obtain ⟨⟨rs, hreports⟩, hwithin⟩ := drive_reports hd
  exact hreports.accounts hwithin

theorem stepLinesFrom_reports {d : DebugInfo} :
    ∀ {n : Nat} {s : Session} {total : RunResult}, stepLinesFrom d s total n = (r, s') →
      ∃ rs, Retired rs s s' ∧ r.steps = total.steps + rs.length ∧
        r.cycles = total.cycles + (rs.map StepReport.cycles).sum ∧
          r.steps ≤ total.steps + s.lineLimit * n := by
  -- The lines after the first begin with the total that the first has added to.
  intro n
  induction n with
  | zero =>
    intro s total hs
    cases hs
    exact ⟨[], .nil rfl, rfl, rfl, Nat.le_add_right _ _⟩
  | succ n ih =>
    intro s total hs
    rcases hd : s.drive (.line s.lineLimit) (.line (d.locationAt? s.pc)) with ⟨r₁, s₁⟩
    obtain ⟨⟨rs₁, hretired₁, hsteps₁, hcycles₁⟩, hwithin⟩ := drive_reports hd
    have hline : r₁.steps ≤ s.lineLimit := hwithin _ rfl
    simp only [stepLinesFrom, hd] at hs
    split at hs
    · obtain ⟨rs, hretired, hsteps, hcycles, hle⟩ := ih hs
      rw [lineLimit_drive hd] at hle
      simp only [RunResult.followedBy] at hsteps hcycles hle
      refine ⟨rs₁ ++ rs, hretired₁.trans hretired, ?_, ?_, ?_⟩
      · rw [hsteps, hsteps₁, List.length_append, Nat.add_assoc]
      · rw [hcycles, hcycles₁, List.map_append, List.sum_append, Nat.add_assoc]
      · rw [Nat.mul_succ]
        omega
    · cases hs
      refine ⟨rs₁, hretired₁, congrArg _ hsteps₁, congrArg _ hcycles₁, ?_⟩
      simp only [RunResult.followedBy, Nat.mul_succ]
      omega

theorem stepLines_accounts {n : Nat} (hs : s.stepLines n = (r, s')) :
    s.machine.Accounts (s.limit? (.stepLines n)) r s'.machine := by
  rw [stepLines] at hs
  rw [limit?]
  rcases hinfo : s.debugInfo? with _ | d
  · rw [hinfo] at hs
    exact drive_accounts hs
  · rw [hinfo] at hs
    obtain ⟨rs, hretired, hsteps, hcycles, hle⟩ := stepLinesFrom_reports hs
    simp only [Nat.zero_add] at hsteps hcycles hle
    refine Reports.accounts ⟨hretired, hsteps, hcycles⟩ ?_
    rintro k ⟨⟩
    exact hle

theorem ran_drive_accounts (s : Session) (b : Budget) (g : Goal) :
    ∃ r s', ran (s.drive b g) = (some r, s') ∧ s.machine.Accounts b.limit r s'.machine := by
  rcases hd : s.drive b g with ⟨r, s'⟩
  exact ⟨r, s', rfl, drive_accounts hd⟩

theorem perform_accounts (hc : c.runs) : ∃ r s', s.perform c = (some r, s') ∧
    s.machine.Accounts (s.limit? c) r s'.machine := by
  cases c with
  | step n => exact s.ran_drive_accounts (.steps n) .none
  | run n => exact s.ran_drive_accounts (.run n) .none
  | resume => exact s.ran_drive_accounts (.run 0) .none
  | stepOver => exact s.ran_drive_accounts (.run 0) (.atMost s.tracker.calls.depth)
  | stepOut => exact s.ran_drive_accounts (.run 0) (.below s.tracker.calls.depth)
  | stepLines n =>
    rcases hs : s.stepLines n with ⟨r, s'⟩
    exact ⟨r, s', by rw [perform, hs, ran], stepLines_accounts hs⟩
  | _ => cases hc

end Session

/-- **Every run gives its account.** Whatever the hooks and the budget, the counters of a machine
grow by what the result of the run says, which is what the instructions that it retired cost, and
the run keeps to its budget. So does every command of a session that runs the machine. -/
theorem every_run_accounts :
    (∀ {σ : Type} (h : Hooks σ) (x x' : σ) (m m' : Machine) (b : Budget) (r : RunResult),
      m.runWith b h x = (r, m', x') → m.Accounts b.limit r m') ∧
    ∀ (s : Session) (c : Command), c.runs → ∃ r s', s.perform c = (some r, s') ∧
      s.machine.Accounts (s.limit? c) r s'.machine :=
  ⟨fun _ _ _ _ _ _ _ => Machine.runWith_accounts, fun _ _ => Session.perform_accounts⟩

/-- The program of three source lines, with a conditional jump that is taken on the second and one
that is not on the third. -/
def branching : Program where
  fileName := "unit.o"
  code := [
    { address := some 0x1000, fields := some ⟨.movImm16L, [0x100C, 1]⟩ },
    { address := some 0x1004, fields := some ⟨.movImm16L, [1, 2]⟩ },
    { address := some 0x1008, fields := some ⟨.jcond, [2, 1, 1]⟩ },
    { address := some 0x100C, fields := some ⟨.jcond, [2, 2, 1]⟩ },
    { address := some 0x1010, fields := some ⟨.halt, []⟩ }]
  memoryMap := some ⟨0x1000, 0x1000, 20, 0x1014, 0, 20, 4⟩
  debugInfo := some
    { lines := ⟨[(0x1000, ⟨"unit.c", 1⟩), (0x1008, ⟨"unit.c", 2⟩), (0x100C, ⟨"unit.c", 3⟩)],
        by decide⟩
      origin := 0x1000 }

/-- Three lines of it, up to its end, are five instructions, of which one takes two cycles. -/
theorem every_run_accounts_branching : ∃ m r s',
    Machine.load branching .standard { stackSize := 8 } = .ok m ∧ Command.runs (.stepLines 3) ∧
      ({ machine := m } : Session).perform (.stepLines 3) = (some r, s') ∧ r.stop = .halted ∧
      r.steps = 5 ∧ r.cycles = 6 ∧ m.Accounts (some 30000) r s'.machine := by
  obtain ⟨m, hload, hlimit, hrun⟩ : ∃ m,
      Machine.load branching .standard { stackSize := 8 } = .ok m ∧
      ({ machine := m } : Session).limit? (.stepLines 3) = some 30000 ∧
      (({ machine := m } : Session).perform (.stepLines 3)).1.map
        (fun r => (r.stop, r.steps, r.cycles)) = some (.halted, 5, 6) :=
    ⟨_, rfl, by decide +kernel, by decide +kernel⟩
  obtain ⟨r, s', hperform, haccounts⟩ :=
    every_run_accounts.2 { machine := m } (.stepLines 3) rfl
  simp only [hperform, Option.map_some, Option.some.injEq, Prod.mk.injEq] at hrun
  rw [hlimit] at haccounts
  exact ⟨m, r, s', hload, rfl, hperform, hrun.1, hrun.2.1, hrun.2.2, haccounts⟩

end WordMachine
