import WordMachine.Instruction.Register
import WordMachine.Instruction.Flags

/-!
# WordMachine.Machine.RegisterFile

The contents of the registers. The flags word keeps only the bits of flags, whatever is written
to it.
-/

namespace WordMachine

structure RegisterFile where
  slots : Vector Word Register.count
deriving DecidableEq, Repr

namespace RegisterFile

/-- Every register at zero. -/
def zeros : RegisterFile := ⟨Vector.replicate Register.count 0⟩

instance : Inhabited RegisterFile := ⟨zeros⟩

/-- The contents of a register. -/
def get (f : RegisterFile) (r : Register) : Word :=
  have := r.slot_lt
  f.slots[r.slot]

/-- What a register keeps of a word. -/
def kept (r : Register) (w : Word) : Word :=
  match r with
  | .cpsr => w &&& Flags.wordMask
  | _ => w

/-- Writes a register. -/
def set (f : RegisterFile) (r : Register) (w : Word) : RegisterFile :=
  ⟨f.slots.set r.slot (kept r w) r.slot_lt⟩

@[simp] theorem get_set_self (f : RegisterFile) (r : Register) (w : Word) :
    (f.set r w).get r = kept r w := by
  simp [get, set]

theorem slot_injective {r q : Register} (h : r.slot = q.slot) : r = q := by
  revert h; cases r <;> cases q <;> decide

theorem get_set_of_ne (f : RegisterFile) {r q : Register} (w : Word) (h : r ≠ q) :
    (f.set r w).get q = f.get q := by
  have : r.slot ≠ q.slot := fun e => h (slot_injective e)
  simp [get, set, this]

/-- The address of the instruction to come. -/
def pc (f : RegisterFile) : Word := f.get .pc

/-- The lowest address of the stack. -/
def sp (f : RegisterFile) : Word := f.get .sp

/-- The address to return to. -/
def lr (f : RegisterFile) : Word := f.get .lr

/-- The flags in the flags word. -/
def flags (f : RegisterFile) : Flags := Flags.ofWord (f.get .cpsr)

/-- Writes the flags word. -/
def setFlags (f : RegisterFile) (flags : Flags) : RegisterFile := f.set .cpsr flags.toWord

/-- The contents of all registers in the order of the slots. -/
def toList (f : RegisterFile) : List Word := f.slots.toList

end RegisterFile
end WordMachine
