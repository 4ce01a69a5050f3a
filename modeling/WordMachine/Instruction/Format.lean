import WordMachine.Instruction.Opcode
import WordMachine.Instruction.Field

/-!
# WordMachine.Instruction.Format

The format of an instruction: its opcode and its operand fields, in the order in which operands
are written. `Format.standard` lists the format of every opcode of the machine.
-/

namespace WordMachine

structure Format where
  opcode : Opcode
  fields : List Field
deriving DecidableEq, Repr

namespace Format

/-- The number of operands, hidden ones included. -/
def arity (f : Format) : Nat := f.fields.length

/-- The number of operands that assembly writes. -/
def visibleArity (f : Format) : Nat := f.fields.countP (!·.hidden)

/-- The bits that the operand fields take up together. -/
def operandBits (f : Format) : Nat := f.fields.foldr (fun field n => field.width + n) 0

/-- The operand fields that every machine gives an opcode unless told otherwise. -/
def standardFields : Opcode → List Field
  | .nop | .halt => []
  | .mov => [.source 5, .destination 9]
  | .movImm16L => [.unsigned 5 16, .destination 21]
  -- The upper half is written over the old contents, so the destination is read as well.
  | .movImm16H => [.unsigned 5 16, .destination 21, (Field.source 25).tied]
  | .add | .sub | .mul | .div | .mod | .and | .or | .xor | .shl | .shr | .asr | .cmp =>
    [.source 5, .source 9, .destination 13]
  | .addImm | .ldr | .ldrb => [.source 5, .signed 9 16, .destination 25]
  | .jmp | .call | .push => [.source 5]
  | .jmpImm | .callImm => [.unsigned 5 27]
  | .jcond => [.source 5, .unsigned 9 8, .source 17]
  | .str | .strb => [.source 5, .source 9, .signed 13 16]
  | .pop => [.destination 5]

/-- The usual format of an opcode. -/
def standard (op : Opcode) : Format := ⟨op, standardFields op⟩

end Format
end WordMachine
