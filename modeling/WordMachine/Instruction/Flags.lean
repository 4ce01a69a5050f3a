import WordMachine.Word

/-!
# WordMachine.Instruction.Flags

The four condition flags and their places in the flags word: zero, carry, overflow and negative
in the bits 0 to 3. The other bits of the flags word carry nothing.
-/

namespace WordMachine

structure Flags where
  negative : Bool := false
  zero : Bool := false
  carry : Bool := false
  overflow : Bool := false
deriving DecidableEq, Repr, Inhabited

namespace Flags

/-- The bits of the flags word that carry a flag. -/
def wordMask : Word := 0xF

/-- The flags in a flags word. -/
def ofWord (w : Word) : Flags where
  zero := w.getLsbD 0
  carry := w.getLsbD 1
  overflow := w.getLsbD 2
  negative := w.getLsbD 3

/-- The word with one flag in each of its lowest four bits. -/
def toWord (f : Flags) : Word :=
  let bit (set : Bool) (place : Nat) : Word := if set then 1 <<< place else 0
  bit f.zero 0 ||| bit f.carry 1 ||| bit f.overflow 2 ||| bit f.negative 3

end Flags
end WordMachine
