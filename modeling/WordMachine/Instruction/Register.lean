import WordMachine.Text.Letters

/-!
# WordMachine.Instruction.Register

The fourteen registers: ten general ones, the stack pointer, the link register, the program
counter and the flags word. A register field of an instruction holds the register's slot.
-/

namespace WordMachine

inductive Register where
  | r0 | r1 | r2 | r3 | r4 | r5 | r6 | r7 | r8 | r9
  | sp | lr | pc | cpsr
deriving DecidableEq, Repr, Inhabited

namespace Register

/-- The number of registers. -/
def count : Nat := 14

/-- The bits of a field wide enough for every slot. -/
def fieldBits : Nat := 4

/-- Every register, in the order of the slots. -/
def all : List Register := [r0, r1, r2, r3, r4, r5, r6, r7, r8, r9, sp, lr, pc, cpsr]

/-- The number that stands for the register in a field. -/
def slot (r : Register) : Nat := r.ctorIdx

theorem slot_lt (r : Register) : r.slot < count := by
  cases r <;> decide

/-- The register in this slot. Slots 14 and 15 are reserved. -/
def ofSlot? (n : Nat) : Option Register := all[n]?

/-- The name of the register in assembly. -/
def name : Register → String
  | r0 => "r0" | r1 => "r1" | r2 => "r2" | r3 => "r3" | r4 => "r4"
  | r5 => "r5" | r6 => "r6" | r7 => "r7" | r8 => "r8" | r9 => "r9"
  | sp => "sp" | lr => "lr" | pc => "pc" | cpsr => "cpsr"

/-- The register with this name, in letters of either case. -/
def ofName? (s : String) : Option Register :=
  all.find? fun r => Text.sameLetters r.name s

/-- Whether the register has no duty of its own. -/
def isGeneral (r : Register) : Bool := r.slot < 10

instance : ToString Register := ⟨name⟩

end Register
end WordMachine
