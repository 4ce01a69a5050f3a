import WordMachine.Instruction.Opcode

/-!
# WordMachine.Machine.Cost

What an instruction costs, in cycles. The cost depends on the opcode alone, and for the
conditional jump on whether it is taken.
-/

namespace WordMachine

/-- Instructions of equal cost. -/
inductive CostClass where
  | nop | halt | mov | alu | mul | div | load | store | push | pop | jump | call
  | branchNotTaken | branchTaken
deriving DecidableEq, Repr

namespace CostClass

/-- The cycles of an instruction of the class. -/
def cycles : CostClass → Nat
  | nop | halt | mov | alu | branchNotTaken => 1
  | mul | load | store | push | pop | jump | call | branchTaken => 2
  | div => 3

end CostClass

namespace Opcode

/-- The class that an opcode is charged in. -/
def costClass (op : Opcode) (taken : Bool) : CostClass :=
  match op with
  | .nop => .nop
  | .halt => .halt
  | .mov | .movImm16L | .movImm16H => .mov
  | .add | .addImm | .sub | .and | .or | .xor | .shl | .shr | .asr | .cmp => .alu
  | .mul => .mul
  | .div | .mod => .div
  | .ldr | .ldrb => .load
  | .str | .strb => .store
  | .push => .push
  | .pop => .pop
  | .jmp | .jmpImm => .jump
  | .call | .callImm => .call
  | .jcond => if taken then .branchTaken else .branchNotTaken

/-- The cycles that an opcode takes. -/
def cycles (op : Opcode) (taken : Bool) : Nat := (op.costClass taken).cycles

end Opcode
end WordMachine
