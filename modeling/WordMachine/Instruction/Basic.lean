import WordMachine.Instruction.InstructionSet

/-!
# WordMachine.Instruction.Basic

An instruction in its two forms between assembly and the word: `FieldValues` holds the bits of
each field, `Instruction` what these bits mean. `CodingError` says why one form has no
counterpart in another.
-/

namespace WordMachine

/-- An opcode and the bits of its operand fields. -/
structure FieldValues where
  opcode : Opcode
  values : List Word
deriving DecidableEq, Repr

inductive Operand where
  | register (r : Register)
  | immediate (v : Int)
deriving DecidableEq, Repr

namespace Operand

def register? : Operand → Option Register
  | register r => some r
  | immediate _ => none

def immediate? : Operand → Option Int
  | register _ => none
  | immediate v => some v

end Operand

/-- An opcode and the meaning of its operands. -/
structure Instruction where
  opcode : Opcode
  operands : List Operand
deriving DecidableEq, Repr

namespace Instruction

/-- The register that is the operand at an index. -/
def register? (i : Instruction) (index : Nat) : Option Register :=
  i.operands[index]?.bind Operand.register?

/-- The number that is the operand at an index. -/
def immediate? (i : Instruction) (index : Nat) : Option Int :=
  i.operands[index]?.bind Operand.immediate?

end Instruction

/-- Why a word, its field values or an instruction has no counterpart. -/
inductive CodingError where
  | invalidOpcode (value : Word)
  | operandCount (opcode : Opcode) (expected found : Nat)
  | valueOutOfRange (opcode : Opcode) (operand : Nat) (value min max : Int)
  | reservedRegister (opcode : Opcode) (operand : Nat) (value : Word)
  | kindMismatch (opcode : Opcode) (operand : Nat) (expected : OperandKind)
deriving DecidableEq, Repr

end WordMachine
