import WordMachine.Text.Hex
import WordMachine.Instruction.Basic

/-!
# WordMachine.Instruction.Codec

The ways between the forms of an instruction, each step of them fallible:

* `pack` and `unpack` lead from field values to the word and back;
* `ofFields` and `toFields` lead from field values to the instruction and back;
* `encode` and `decode` are the two steps together.
-/

namespace WordMachine

namespace OperandKind

def describe : OperandKind → String
  | register => "Register"
  | immediate => "Immediate"

end OperandKind

namespace CodingError

def message : CodingError → String
  | invalidOpcode v => s!"invalid opcode {Hex.short v.toNat}"
  | operandCount op expected found => s!"{op} takes {expected} operands, got {found}"
  | valueOutOfRange op i v min max => s!"{op} operand {i}: value {v} outside {min}..={max}"
  | reservedRegister op i v => s!"{op} operand {i}: register slot {v.toNat} is reserved"
  | kindMismatch op i expected => s!"{op} operand {i}: expected {expected.describe}"

end CodingError

namespace InstructionSet

/-- The format of an opcode, or the error that names it. -/
def format (s : InstructionSet) (op : Opcode) : Except CodingError Format :=
  match s.format? op with
  | some f => .ok f
  | none => .error (.invalidOpcode (BitVec.ofNat 32 op.ordinal))

/-- The format of an opcode, if it takes this many operands. -/
def formatFor (s : InstructionSet) (op : Opcode) (found : Nat) : Except CodingError Format := do
  let f ← s.format op
  if f.arity = found then pure f else throw (.operandCount op f.arity found)

/-- Puts values into the fields of a word, the first operand being number `index`. -/
def packFields (op : Opcode) (word : Word) (index : Nat) :
    List Field → List Word → Except CodingError Word
  | f :: fs, v :: vs =>
    if f.Fits v then packFields op (word ||| v <<< f.position) (index + 1) fs vs
    else .error (.valueOutOfRange op index v.toNat 0 f.mask.toNat)
  | _, _ => .ok word

/-- The word with these field values. -/
def pack (s : InstructionSet) (x : FieldValues) : Except CodingError Word := do
  let f ← s.formatFor x.opcode x.values.length
  packFields x.opcode (BitVec.ofNat 32 x.opcode.ordinal) 0 f.fields x.values

/-- The bits of a word that hold the opcode. -/
def opcodeMask : Word := .ones Opcode.bits

/-- The field values in a word. Bits outside the fields are passed over. -/
def unpack (s : InstructionSet) (w : Word) : Except CodingError FieldValues :=
  let ordinal := w &&& opcodeMask
  match (Opcode.ofOrdinal? ordinal.toNat).bind s.format? with
  | some f => .ok ⟨f.opcode, f.fields.map (·.extract w)⟩
  | none => .error (.invalidOpcode ordinal)

/-- What the value of one field means. -/
def readField (op : Opcode) (index : Nat) (f : Field) (v : Word) : Except CodingError Operand :=
  match f.kind with
  | .register =>
    match Register.ofSlot? v.toNat with
    | some r => .ok (.register r)
    | none => .error (.reservedRegister op index v)
  | .immediate => .ok (.immediate (f.interpret v))

/-- The value of one field that means this operand. -/
def writeField (op : Opcode) (index : Nat) (f : Field) : Operand → Except CodingError Word
  | .register r =>
    match f.kind with
    | .register => .ok (BitVec.ofNat 32 r.slot)
    | .immediate => .error (.kindMismatch op index .immediate)
  | .immediate v =>
    match f.kind with
    | .register => .error (.kindMismatch op index .register)
    | .immediate =>
      if v < f.min ∨ f.max < v then .error (.valueOutOfRange op index v f.min f.max)
      else .ok (f.represent v)

/-- Applies a fallible function to the pairs of a field and what belongs to it, from left to
right, the first pair being number `index`. -/
def forFields {α β : Type} (convert : Nat → Field → α → Except CodingError β) (index : Nat) :
    List Field → List α → Except CodingError (List β)
  | f :: fs, x :: xs => do
    let y ← convert index f x
    let ys ← forFields convert (index + 1) fs xs
    pure (y :: ys)
  | _, _ => pure []

/-- The instruction that field values mean. -/
def ofFields (s : InstructionSet) (x : FieldValues) : Except CodingError Instruction := do
  let f ← s.formatFor x.opcode x.values.length
  let operands ← forFields (readField x.opcode) 0 f.fields x.values
  pure ⟨x.opcode, operands⟩

/-- The field values that mean an instruction. -/
def toFields (s : InstructionSet) (i : Instruction) : Except CodingError FieldValues := do
  let f ← s.formatFor i.opcode i.operands.length
  let values ← forFields (writeField i.opcode) 0 f.fields i.operands
  pure ⟨i.opcode, values⟩

/-- The instruction in a word. -/
def decode (s : InstructionSet) (w : Word) : Except CodingError Instruction := do
  s.ofFields (← s.unpack w)

/-- The word of an instruction. -/
def encode (s : InstructionSet) (i : Instruction) : Except CodingError Word := do
  s.pack (← s.toFields i)

end InstructionSet
end WordMachine
