import WordMachine.Machine.Alu
import WordMachine.Machine.Cost
import WordMachine.Machine.Memory
import WordMachine.Machine.RegisterFile

/-!
# WordMachine.Machine.Effect

Carrying out an operation in two steps. `Effect.ofOperation` reads registers and memory and either
traps or says all that will change; `Effect.commit` then makes the changes. A trap therefore
leaves no trace.
-/

namespace WordMachine

inductive Direction where
  | read
  | write
deriving DecidableEq, Repr

/-- The bytes of data that an instruction touches. -/
structure Access where
  address : Word
  size : Nat
  direction : Direction
deriving DecidableEq, Repr

namespace Access

/-- Whether the access meets a range of `size` bytes at an address. Ranges do not wrap. -/
def Overlaps (x : Access) (address : Word) (size : Nat) : Prop :=
  x.address.toNat < address.toNat + size ∧ address.toNat < x.address.toNat + x.size

instance (x : Access) (address : Word) (size : Nat) : Decidable (x.Overlaps address size) :=
  inferInstanceAs (Decidable (_ ∧ _))

end Access

/-- How control leaves an instruction other than to the next one. -/
inductive Transfer where
  | call (target returnAddress : Word)
  | jump (target : Word)
deriving DecidableEq, Repr

/-- A datum on its way to memory. -/
structure MemoryWrite where
  address : Word
  value : Word
  width : Width
deriving DecidableEq, Repr

namespace MemoryWrite

/-- The bytes that go to memory. -/
def bytes (w : MemoryWrite) : List Byte :=
  match w.width with
  | .byte => [w.value.setWidth 8]
  | .word => w.value.toBytes

theorem length_bytes (w : MemoryWrite) : w.bytes.length = w.width.bytes := by
  unfold bytes; cases w.width <;> rfl

end MemoryWrite

structure Effect where
  /-- Registers to be written, in this order; never the program counter. -/
  registers : List (Register × Word) := []
  memoryWrite : Option MemoryWrite := none
  access : Option Access := none
  flags : FlagsChange := .none
  nextPc : Word
  cycles : Nat := 0
  transfer : Option Transfer := none
  halts : Bool := false
deriving DecidableEq, Repr

namespace Effect

/-- Going on with the next instruction and nothing else. -/
def advance (pc : Word) : Effect := { nextPc := pc + 4 }

/-- Going on at another address. -/
def jumpTo (e : Effect) (target : Word) : Effect :=
  { e with nextPc := target, transfer := some (.jump target) }

/-- Writing a register. Writing the program counter is a jump. -/
def writeRegister (e : Effect) (r : Register) (w : Word) : Effect :=
  if r = .pc then e.jumpTo w else { e with registers := e.registers ++ [(r, w)] }

/-- Going on at another address and leaving the way back in the link register. -/
def callTo (e : Effect) (pc target : Word) : Effect :=
  let back := pc + 4
  { e.writeRegister .lr back with nextPc := target, transfer := some (.call target back) }

/-- Writing memory, if the datum lies in the window. -/
def writeMemory (e : Effect) (m : Memory) (address value : Word) (width : Width) :
    Except Trap Effect :=
  if m.Contains address width.bytes then
    .ok { e with
      memoryWrite := some ⟨address, value, width⟩
      access := some ⟨address, width.bytes, .write⟩ }
  else .error (.invalidAccess address width.bytes)

/-- The datum at an address. -/
def fetchDatum (m : Memory) (address : Word) : Width → Except Trap Word
  | .byte => (m.readByte address).map (·.setWidth 32)
  | .word => m.readWord address

/-- Whether a conditional jump is taken. -/
def taken (r : RegisterFile) : Operation → Bool
  | .jumpIf condition mask _ => r.get condition &&& mask ≠ 0
  | _ => false

/-- What an operation changes, but for its cost. -/
def changes (r : RegisterFile) (m : Memory) (op : Operation) : Except Trap Effect :=
  let pc := r.pc
  let e := advance pc
  match op with
  | .nop => .ok e
  | .halt => .ok { e with halts := true }
  | .mov source target => .ok (e.writeRegister target (r.get source))
  | .movLow half target => .ok (e.writeRegister target (half &&& 0xFFFF))
  | .movHigh half target source =>
    .ok (e.writeRegister target (half <<< 16 ||| r.get source &&& 0xFFFF))
  | .alu op left right target => do
    let (result, flags) ← op.run (r.get left) (r.get right) r.flags
    pure { e.writeRegister target result with flags }
  | .addImm left addend target => do
    let (result, flags) ← AluOp.add.run (r.get left) addend r.flags
    pure { e.writeRegister target result with flags }
  | .jump target => .ok (e.jumpTo (r.get target))
  | .jumpTo address => .ok (e.jumpTo address)
  | .call target => .ok (e.callTo pc (r.get target))
  | .callTo address => .ok (e.callTo pc address)
  | .jumpIf _ _ target => .ok (if taken r op then e.jumpTo (r.get target) else e)
  | .load base offset target width => do
    let address := r.get base + offset
    let value ← fetchDatum m address width
    pure { e.writeRegister target value with access := some ⟨address, width.bytes, .read⟩ }
  | .store source base offset width =>
    e.writeMemory m (r.get base + offset) (r.get source) width
  | .push source => do
    let sp := r.sp - 4
    let e ← e.writeMemory m sp (r.get source) .word
    pure (e.writeRegister .sp sp)
  | .pop target => do
    let sp := r.sp
    let value ← m.readWord sp
    let e := (e.writeRegister .sp (sp + 4)).writeRegister target value
    pure { e with access := some ⟨sp, 4, .read⟩ }

/-- The effect of an operation, at the cost of an opcode. -/
def ofOperation (opcode : Opcode) (op : Operation) (r : RegisterFile) (m : Memory) :
    Except Trap Effect := do
  let e ← changes r m op
  pure { e with cycles := opcode.cycles (taken r op) }

/-- The trap that memory answers the effect with, if the datum does not lie in the window. -/
def trap? (e : Effect) (m : Memory) : Option Trap :=
  match e.memoryWrite with
  | none => none
  | some w =>
    if m.Contains w.address w.width.bytes then none
    else some (.invalidAccess w.address w.width.bytes)

/-- Memory after an effect that it does not trap. -/
def updateMemory (e : Effect) (m : Memory) : Memory :=
  match e.memoryWrite with
  | none => m
  | some w => m.put w.address w.bytes

/-- Memory after the effect. -/
def commitMemory (e : Effect) (m : Memory) : Except Trap Memory :=
  match e.trap? m with
  | some t => .error t
  | none => .ok (e.updateMemory m)

/-- The registers after the effect: the writes, then the flags, then the program counter. -/
def commitRegisters (e : Effect) (r : RegisterFile) : RegisterFile :=
  let r := e.registers.foldl (fun r (x, w) => r.set x w) r
  let r := r.setFlags (e.flags.apply r.flags)
  r.set .pc e.nextPc

/-- Registers and memory after the effect. -/
def commit (e : Effect) (r : RegisterFile) (m : Memory) :
    Except Trap (RegisterFile × Memory) := do
  let m ← e.commitMemory m
  pure (e.commitRegisters r, m)

end Effect
end WordMachine
