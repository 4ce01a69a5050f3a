import WordMachine.Instruction.Codec
import WordMachine.Machine.Trap

/-!
# WordMachine.Machine.Operation

What an instruction asks the machine to do, with its operands taken apart. An instruction whose
operands are not of the kinds that its opcode works on asks for nothing and is illegal
(`Operation.ofInstruction?`).
-/

namespace WordMachine

/-- The two-operand calculations. -/
inductive AluOp where
  | add | sub | mul | div | mod | and | or | xor | shl | shr | asr | cmp
deriving DecidableEq, Repr

/-- The size of a datum in memory. -/
inductive Width where
  | byte
  | word
deriving DecidableEq, Repr

namespace Width

/-- The number of bytes. -/
def bytes : Width → Nat
  | byte => 1
  | word => 4

end Width

inductive Operation where
  | nop
  | halt
  | mov (source target : Register)
  | movLow (half : Word) (target : Register)
  | movHigh (half : Word) (target source : Register)
  | alu (op : AluOp) (left right target : Register)
  | addImm (left : Register) (addend : Word) (target : Register)
  | jump (target : Register)
  | jumpTo (address : Word)
  | call (target : Register)
  | callTo (address : Word)
  | jumpIf (condition : Register) (mask : Word) (target : Register)
  | load (base : Register) (offset : Word) (target : Register) (width : Width)
  | store (source base : Register) (offset : Word) (width : Width)
  | push (source : Register)
  | pop (target : Register)
deriving DecidableEq, Repr

namespace Operation

/-- The number at an operand as a word, modulo its size. -/
def word? (i : Instruction) (index : Nat) : Option Word :=
  (i.immediate? index).map (BitVec.ofInt 32)

/-- A calculation with the registers at the first three operands. -/
def alu? (i : Instruction) (op : AluOp) : Option Operation := do
  pure (.alu op (← i.register? 0) (← i.register? 1) (← i.register? 2))

/-- A load with the operands base, offset and target. -/
def load? (i : Instruction) (width : Width) : Option Operation := do
  pure (.load (← i.register? 0) (← word? i 1) (← i.register? 2) width)

/-- A store with the operands source, base and offset. -/
def store? (i : Instruction) (width : Width) : Option Operation := do
  pure (.store (← i.register? 0) (← i.register? 1) (← word? i 2) width)

/-- What an instruction asks for. -/
def ofInstruction? (i : Instruction) : Option Operation :=
  match i.opcode with
  | .nop => some .nop
  | .halt => some .halt
  | .mov => do pure (.mov (← i.register? 0) (← i.register? 1))
  | .movImm16L => do pure (.movLow (← word? i 0) (← i.register? 1))
  | .movImm16H => do pure (.movHigh (← word? i 0) (← i.register? 1) (← i.register? 2))
  | .add => alu? i .add
  | .sub => alu? i .sub
  | .mul => alu? i .mul
  | .div => alu? i .div
  | .mod => alu? i .mod
  | .and => alu? i .and
  | .or => alu? i .or
  | .xor => alu? i .xor
  | .shl => alu? i .shl
  | .shr => alu? i .shr
  | .asr => alu? i .asr
  | .cmp => alu? i .cmp
  | .addImm => do pure (.addImm (← i.register? 0) (← word? i 1) (← i.register? 2))
  | .jmp => do pure (.jump (← i.register? 0))
  | .jmpImm => do pure (.jumpTo (← word? i 0))
  | .call => do pure (.call (← i.register? 0))
  | .callImm => do pure (.callTo (← word? i 0))
  | .jcond => do pure (.jumpIf (← i.register? 0) (← word? i 1) (← i.register? 2))
  | .ldr => load? i .word
  | .ldrb => load? i .byte
  | .str => store? i .word
  | .strb => store? i .byte
  | .push => do pure (.push (← i.register? 0))
  | .pop => do pure (.pop (← i.register? 0))

end Operation

namespace InstructionSet

/-- The instruction in a word and what it asks for. -/
def operation? (s : InstructionSet) (w : Word) : Option (Instruction × Operation) := do
  let i ← (s.decode w).toOption
  pure (i, ← Operation.ofInstruction? i)

/-- The same, where a word that asks for nothing is a trap. -/
def operation (s : InstructionSet) (w : Word) : Except Trap (Instruction × Operation) :=
  match s.operation? w with
  | some x => .ok x
  | none => .error (.illegalInstruction w)

end InstructionSet
end WordMachine
