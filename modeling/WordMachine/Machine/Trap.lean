import WordMachine.Text.Hex
import WordMachine.Word

/-!
# WordMachine.Machine.Trap

Why an instruction cannot be carried out. A trap is the cause; a fault is a trap together with
the address of the instruction that raised it.
-/

namespace WordMachine

inductive Trap where
  | illegalInstruction (word : Word)
  | invalidAccess (address : Word) (size : Nat)
  | misalignedFetch (address : Word)
  | divisionByZero
  | divisionOverflow
deriving DecidableEq, Repr

/-- The stage of an instruction that a trap belongs to. -/
inductive TrapClass where
  | decode
  | memory
  | arithmetic
deriving DecidableEq, Repr

namespace Trap

def trapClass : Trap → TrapClass
  | illegalInstruction _ => .decode
  | invalidAccess _ _ | misalignedFetch _ => .memory
  | divisionByZero | divisionOverflow => .arithmetic

def message : Trap → String
  | illegalInstruction w => s!"illegal instruction {Hex.full w.toNat}"
  | invalidAccess a size => s!"invalid {size}-byte access at {Hex.full a.toNat}"
  | misalignedFetch a => s!"misaligned fetch at {Hex.full a.toNat}"
  | divisionByZero => "division by zero"
  | divisionOverflow => "signed division overflow"

end Trap

structure Fault where
  trap : Trap
  pc : Word
deriving DecidableEq, Repr

namespace Fault

def message (f : Fault) : String := s!"{f.trap.message} at pc {Hex.full f.pc.toNat}"

end Fault
end WordMachine
