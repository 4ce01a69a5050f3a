import WordMachine.Machine.Effect
import WordMachine.Machine.Image

/-!
# WordMachine.Machine.Basic

The machine: registers and memory, the program it was loaded with, and how far it has come. A
machine that has halted, returned to the sentinel or run into a fault stays as it is until it is
entered again or reset.

`Machine.step` carries out one instruction, or latches the fault that it raises and changes
nothing else.
-/

namespace WordMachine

inductive RunState where
  | ready
  | halted
  | terminated
  | faulted (f : Fault)
deriving DecidableEq, Repr

namespace RunState

def fault? : RunState → Option Fault
  | faulted f => some f
  | _ => none

def isStopped (s : RunState) : Bool := s ≠ ready

end RunState

/-- Holding a run back to a rate, and noticing when it falls behind. Times are in nanoseconds. There
is one clock for all runs of a machine: it shows the same times in each of them. -/
structure Throttle where
  /-- The rate, or 0 for none. -/
  cyclesPerSecond : Nat := 1000000
  /-- How far a run may fall behind unnoticed. -/
  lagThreshold : Nat := 100000000
  /-- The time that a run has taken, as the clock shows it after a number of instructions. -/
  elapsed : Nat → Nat := fun steps => 1000 * steps

structure MachineSettings where
  stackSize : Word := 0x10000
  throttle : Option Throttle := none

/-- The register in which a function leaves its value. -/
def returnRegister : Register := .r0

structure Machine where
  program : Program
  instructions : InstructionSet
  settings : MachineSettings
  registers : RegisterFile
  memory : Memory
  /-- The memory that the machine started from. -/
  image : Memory
  entry : Word
  stackTop : Word
  state : RunState
  /-- Whether someone has asked the machine to stop. -/
  stopRequested : Bool
  totalSteps : Nat
  totalCycles : Nat

/-- What one instruction did. -/
structure StepReport where
  pc : Word
  nextPc : Word
  opcode : Opcode
  cycles : Nat
  access : Option Access
  transfer : Option Transfer
deriving DecidableEq, Repr

namespace Machine

/-- Makes the machine ready to run from an address with an empty stack. -/
def enterAt (m : Machine) (a : Word) : Machine :=
  { m with
    registers := ((m.registers.set .pc a).set .lr sentinel).set .sp m.stackTop
    entry := a
    state := .ready }

/-- Makes the machine ready to run a function. -/
def enter (m : Machine) (name : String) : Except LoadError Machine :=
  match m.program.functionAddress? name with
  | some a => .ok (m.enterAt a)
  | none => .error (.unknownFunction name)

/-- A machine with a program in memory, ready to run from the start of the code. -/
def load (p : Program) (s : InstructionSet) (settings : MachineSettings) :
    Except LoadError Machine := do
  let map ← Image.mapOf p
  let image ← Image.ofProgram s settings.stackSize p
  let m : Machine := {
    program := p
    instructions := s
    settings
    registers := .zeros
    memory := image
    image
    entry := map.codeStart
    stackTop := BitVec.ofNat 32 image.finish
    state := .ready
    stopRequested := false
    totalSteps := 0
    totalCycles := 0 }
  pure (m.enterAt map.codeStart)

/-- The address that a reset enters. -/
def start (m : Machine) : Word := (m.program.memoryMap.map MemoryMap.codeStart).getD m.entry

/-- The machine as it was loaded. A request to stop stays. -/
def reset (m : Machine) : Machine :=
  { m with memory := m.image, registers := .zeros, totalSteps := 0, totalCycles := 0 }.enterAt
    m.start

/-- Writes a register. -/
def writeRegister (m : Machine) (r : Register) (w : Word) : Machine :=
  { m with registers := m.registers.set r w }

/-- Notes a request to stop, if there is one. -/
def heed (m : Machine) (request : Bool) : Machine :=
  { m with stopRequested := m.stopRequested || request }

/-- Writes memory. -/
def writeMemory (m : Machine) (a : Word) (bytes : List Byte) : Except Trap Machine := do
  let memory ← m.memory.write a bytes
  pure { m with memory }

/-- The opcode of the instruction to come and all that it will change. -/
def nextEffect (m : Machine) : Except Trap (Opcode × Effect) := do
  let pc := m.registers.pc
  if pc.toNat % Word.size ≠ 0 then throw (.misalignedFetch pc)
  let word ← m.memory.readWord pc
  let (i, op) ← m.instructions.operation word
  let effect ← Effect.ofOperation i.opcode op m.registers m.memory
  pure (i.opcode, effect)

/-- The machine with a fault latched. -/
def latch (m : Machine) (f : Fault) : Machine := { m with state := .faulted f }

/-- The machine after an effect that memory does not trap, with the instruction counted. -/
def retire (m : Machine) (e : Effect) : Machine :=
  { m with
    memory := e.updateMemory m.memory
    registers := e.commitRegisters m.registers
    state := if e.halts then .halted else m.state
    totalSteps := m.totalSteps + 1
    totalCycles := m.totalCycles + e.cycles }

/-- What is reported of an instruction at `pc`. -/
def report (pc : Word) (op : Opcode) (e : Effect) : StepReport where
  pc
  nextPc := e.nextPc
  opcode := op
  cycles := e.cycles
  access := e.access
  transfer := e.transfer

/-- One instruction: what it did, or the fault that is latched. -/
def step (m : Machine) : Except Fault StepReport × Machine :=
  let pc := m.registers.pc
  match m.nextEffect with
  | .error t => (.error ⟨t, pc⟩, m.latch ⟨t, pc⟩)
  | .ok (op, e) =>
    match e.trap? m.memory with
    | some t => (.error ⟨t, pc⟩, m.latch ⟨t, pc⟩)
    | none => (.ok (report pc op e), m.retire e)

end Machine
end WordMachine
