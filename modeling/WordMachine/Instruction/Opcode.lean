import WordMachine.Text.Letters

/-!
# WordMachine.Instruction.Opcode

The twenty-nine opcodes. An opcode is written as its mnemonic in assembly and as its ordinal in
the lowest five bits of an instruction word.
-/

namespace WordMachine

inductive Opcode where
  | nop | halt | mov | movImm16L | movImm16H
  | add | addImm | sub | mul | div | mod
  | and | or | xor | shl | shr | asr | cmp
  | jmp | jmpImm | call | callImm | jcond
  | ldr | str | ldrb | strb | push | pop
deriving DecidableEq, Repr, Inhabited

namespace Opcode

/-- The bits of an instruction word that hold the opcode, from bit 0. -/
def bits : Nat := 5

/-- Every opcode, in the order of the ordinals. -/
def all : List Opcode :=
  [nop, halt, mov, movImm16L, movImm16H, add, addImm, sub, mul, div, mod, and, or, xor, shl, shr,
   asr, cmp, jmp, jmpImm, call, callImm, jcond, ldr, str, ldrb, strb, push, pop]

/-- The number that stands for the opcode in a word. -/
def ordinal (op : Opcode) : Nat := op.ctorIdx

/-- The opcode with this ordinal. -/
def ofOrdinal? (n : Nat) : Option Opcode := all[n]?

/-- The name of the opcode in assembly. -/
def mnemonic : Opcode → String
  | nop => "NOP" | halt => "HALT" | mov => "MOV"
  | movImm16L => "MOVIMM16L" | movImm16H => "MOVIMM16H"
  | add => "ADD" | addImm => "ADDIMM" | sub => "SUB" | mul => "MUL" | div => "DIV" | mod => "MOD"
  | and => "AND" | or => "OR" | xor => "XOR" | shl => "SHL" | shr => "SHR" | asr => "ASR"
  | cmp => "CMP"
  | jmp => "JMP" | jmpImm => "JMPIMM" | call => "CALL" | callImm => "CALLIMM" | jcond => "JCOND"
  | ldr => "LDR" | str => "STR" | ldrb => "LDRB" | strb => "STRB"
  | push => "PUSH" | pop => "POP"

/-- The opcode with this mnemonic, in letters of either case. -/
def ofMnemonic? (name : String) : Option Opcode :=
  all.find? fun op => Text.sameLetters op.mnemonic name

/-- Whether the instruction records a return address. -/
def isCall : Opcode → Bool
  | call | callImm => true
  | _ => false

/-- Whether the instruction may go on elsewhere than at the next word. -/
def isControlTransfer : Opcode → Bool
  | jmp | jmpImm | call | callImm | jcond => true
  | _ => false

instance : ToString Opcode := ⟨mnemonic⟩

end Opcode
end WordMachine
