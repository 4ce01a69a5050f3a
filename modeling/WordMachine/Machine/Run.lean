import WordMachine.Machine.Basic

/-!
# WordMachine.Machine.Run

Running a machine until something stops it. Before each instruction a run looks, in this order, at
its budget, at a request to stop and at the sentinel; then it asks its hooks, carries out the
instruction, and asks them again. `Machine.advance` is one such round and `Machine.run` repeats it.

The hooks of a run are two questions and a notice, answered with a state of their own: they see
addresses and reports and can stop the run, but cannot reach into the machine.

A request to stop is there before a run begins, or an answer of the hooks makes it. One that another
thread makes in the middle of a run is not modelled.
-/

namespace WordMachine

/-- Why hooks stop a run. -/
inductive HookStop where
  | breakpoint (id : Nat)
  | watchpoint (id : Nat)
  | stepComplete
  | requested
deriving DecidableEq, Repr

/-- Why a run stopped. -/
inductive Stop where
  | stepComplete
  | maxSteps
  | stepLimit
  | breakpoint (id : Nat)
  | watchpoint (id : Nat)
  | terminated (value : Word)
  | halted
  | fault (f : Fault)
  | interrupted
  | requested
deriving DecidableEq, Repr

namespace HookStop

def toStop : HookStop → Stop
  | breakpoint id => .breakpoint id
  | watchpoint id => .watchpoint id
  | stepComplete => .stepComplete
  | requested => .requested

end HookStop

/-- How many instructions a run may retire, and why it stops after them. -/
structure Budget where
  limit : Option Nat
  exhausted : Stop
deriving DecidableEq, Repr

namespace Budget

/-- A number of instructions to be retired. -/
def steps (n : Nat) : Budget := ⟨some n, .stepComplete⟩

/-- At most `n` instructions, or no limit if `n` is 0. -/
def run (n : Nat) : Budget := ⟨if n = 0 then none else some n, .maxSteps⟩

/-- At most `n` instructions in search of the next source line. -/
def line (n : Nat) : Budget := ⟨some n, .stepLimit⟩

/-- The instructions that a run may retire. A run counts its instructions in 64 bits, and one
without a limit may retire as many as there are numbers for. -/
def allowance (b : Budget) : Nat := b.limit.getD 0xFFFFFFFFFFFFFFFF

end Budget

/-- What came of a run. -/
structure RunResult where
  stop : Stop
  steps : Nat := 0
  cycles : Nat := 0
  /-- The instruction that was carried out last or raised the fault; if there is none, where the
  run began. -/
  lastPc : Word
  /-- The greatest lag noticed. -/
  lagCycles : Nat := 0
deriving DecidableEq, Repr

/-- What hooks answer: their next state, whether to stop, and whether they request that the
machine stop at the next opportunity. -/
structure Answer (σ : Type) where
  state : σ
  stop : Option HookStop := none
  interrupt : Bool := false

structure Hooks (σ : Type) where
  /-- Asked before the instruction at an address. -/
  before : σ → Word → Answer σ
  /-- Asked after an instruction. -/
  after : σ → StepReport → Answer σ
  /-- Told, once in a run, by how many cycles it has fallen behind. -/
  lagging : σ → Nat → Answer σ

namespace Hooks

/-- No hooks. -/
def none : Hooks Unit where
  before _ _ := { state := () }
  after _ _ := { state := () }
  lagging _ _ := { state := () }

end Hooks

namespace Throttle

/-- A number that is kept in 64 bits, the greatest one if it is too great. -/
def saturated (n : Nat) : Nat := min n 0xFFFFFFFFFFFFFFFF

/-- The time at which a number of cycles should be done. -/
def due (t : Throttle) (cycles : Nat) : Nat := saturated (cycles * 1000000000 / t.cyclesPerSecond)

/-- The cycles by which a run lags that has done `cycles` in `steps` instructions, if that is to be
noticed. -/
def lag? (t : Throttle) (steps cycles : Nat) : Option Nat :=
  let behind := t.elapsed steps - t.due cycles
  if t.cyclesPerSecond = 0 ∨ behind = 0 ∨ behind ≤ t.lagThreshold then none
  else some (saturated (behind * t.cyclesPerSecond / 1000000000))

end Throttle

/-- How far a run has come, apart from the machine. -/
structure Progress (σ : Type) where
  hooks : σ
  steps : Nat := 0
  cycles : Nat := 0
  lastPc : Word
  lagCycles : Nat := 0
  lagNoticed : Bool := false

namespace Progress

variable {σ : Type}

/-- Counts an instruction. -/
def count (p : Progress σ) (r : StepReport) : Progress σ :=
  { p with steps := p.steps + 1, cycles := p.cycles + r.cycles, lastPc := r.pc }

/-- The result of a run that has come this far. -/
def result (p : Progress σ) (stop : Stop) : RunResult where
  stop
  steps := p.steps
  cycles := p.cycles
  lastPc := p.lastPc
  lagCycles := p.lagCycles

end Progress

namespace Machine

variable {σ : Type}

/-- Why a machine that is not ready does not run. -/
def stopped? (m : Machine) : Option Stop :=
  match m.state with
  | .ready => none
  | .halted => some .halted
  | .terminated => some (.terminated (m.registers.get returnRegister))
  | .faulted f => some (.fault f)

/-- Ends the run of a machine that has come to the sentinel. -/
def terminate (m : Machine) (p : Progress σ) : Option Stop × Machine × Progress σ :=
  (some (.terminated (m.registers.get returnRegister)), { m with state := .terminated }, p)

/-- Compares the run with the clock. -/
def pace (h : Hooks σ) (m : Machine) (p : Progress σ) : Option Stop × Machine × Progress σ :=
  match m.settings.throttle.bind (·.lag? p.steps p.cycles) with
  | none => (none, m, p)
  | some lag =>
    let first := !p.lagNoticed
    let p := { p with lagCycles := max p.lagCycles lag, lagNoticed := true }
    if first then
      let answer := h.lagging p.hooks lag
      (answer.stop.map HookStop.toStop, m.heed answer.interrupt, { p with hooks := answer.state })
    else (none, m, p)

/-- What follows an instruction that has been retired. -/
def settle (h : Hooks σ) (m : Machine) (p : Progress σ) (r : StepReport) :
    Option Stop × Machine × Progress σ :=
  if m.state = .halted then (some .halted, m, p)
  else if r.nextPc = sentinel then m.terminate p
  else
    let answer := h.after p.hooks r
    let m := m.heed answer.interrupt
    let p := { p with hooks := answer.state }
    match answer.stop with
    | some stop => (some stop.toStop, m, p)
    | none => pace h m p

/-- Carries out one instruction of a run. -/
def perform (h : Hooks σ) (m : Machine) (p : Progress σ) : Option Stop × Machine × Progress σ :=
  match m.step with
  | (.error fault, m) => (some (.fault fault), m, { p with lastPc := fault.pc })
  | (.ok r, m) => settle h m (p.count r) r

/-- One round of a run. It retires an instruction unless it stops. -/
def advance (h : Hooks σ) (m : Machine) (p : Progress σ) : Option Stop × Machine × Progress σ :=
  if m.stopRequested then (some .interrupted, { m with stopRequested := false }, p)
  else if m.registers.pc = sentinel then m.terminate p
  else
    let answer := h.before p.hooks m.registers.pc
    let m := m.heed answer.interrupt
    let p := { p with hooks := answer.state }
    match answer.stop with
    | some stop => (some stop.toStop, m, p)
    | none => perform h m p

/-- Rounds until one stops, at most as many as are allowed. -/
def rounds (h : Hooks σ) (exhausted : Stop) :
    (allowance : Nat) → Machine → Progress σ → Stop × Machine × Progress σ
  | 0, m, p => (exhausted, m, p)
  | n + 1, m, p =>
    match advance h m p with
    | (some stop, m, p) => (stop, m, p)
    | (none, m, p) => rounds h exhausted n m p

/-- Runs the machine on a budget. A run without a limit that nothing else stops has here the result
of one that is exhausted after 2 ^ 64 - 1 instructions; this stands for a run that does not
return. -/
def runWith (m : Machine) (b : Budget) (h : Hooks σ) (state : σ) : RunResult × Machine × σ :=
  let pc := m.registers.pc
  match m.stopped? with
  | some stop => ({ stop, lastPc := pc }, m, state)
  | none =>
    let (stop, m, p) := rounds h b.exhausted b.allowance m { hooks := state, lastPc := pc }
    (p.result stop, m, p.hooks)

/-- Runs the machine on a budget without hooks. -/
def run (m : Machine) (b : Budget) : RunResult × Machine :=
  let (result, m, _) := m.runWith b Hooks.none ()
  (result, m)

end Machine
end WordMachine
