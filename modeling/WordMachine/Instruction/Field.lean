import WordMachine.Word
import WordMachine.Instruction.Register

/-!
# WordMachine.Instruction.Field

One operand field of an instruction format: where it lies in the word and what its bits mean.
A field holds the slot of a register, or a number in plain or two's complement binary.
A hidden field is not written in assembly; it repeats the field before it.
-/

namespace WordMachine

inductive OperandKind where
  | register
  | immediate
deriving DecidableEq, Repr

inductive Signedness where
  | unsigned
  | signed
deriving DecidableEq, Repr

/-- Whether the instruction reads the operand or leaves its result there. -/
inductive Role where
  | source
  | destination
deriving DecidableEq, Repr

structure Field where
  kind : OperandKind
  signedness : Signedness := .unsigned
  position : Nat
  width : Nat
  role : Role := .source
  hidden : Bool := false
deriving DecidableEq, Repr

namespace Field

/-- A register that the instruction reads. -/
def source (position : Nat) : Field :=
  { kind := .register, position, width := Register.fieldBits }

/-- A register that the instruction writes. -/
def destination (position : Nat) : Field :=
  { kind := .register, position, width := Register.fieldBits, role := .destination }

/-- A number from 0 up. -/
def unsigned (position width : Nat) : Field :=
  { kind := .immediate, position, width }

/-- A number around 0. -/
def signed (position width : Nat) : Field :=
  { kind := .immediate, signedness := .signed, position, width }

/-- The same field, left out of assembly. -/
def tied (f : Field) : Field := { f with hidden := true }

/-- The first bit past the field. -/
def stop (f : Field) : Nat := f.position + f.width

/-- Ones in the lowest `width` bits, at most all of them. -/
def mask (f : Field) : Word := .ones f.width

/-- The least number the field can hold. -/
def min (f : Field) : Int :=
  match f.signedness with
  | .unsigned => 0
  | .signed => -(1 <<< (f.width - 1) : Nat)

/-- The greatest number the field can hold. -/
def max (f : Field) : Int :=
  match f.signedness with
  | .unsigned => (1 <<< f.width : Nat) - 1
  | .signed => (1 <<< (f.width - 1) : Nat) - 1

/-- Whether a value has no bit outside the field. -/
def Fits (f : Field) (v : Word) : Prop := v.toNat < 1 <<< f.width

instance (f : Field) (v : Word) : Decidable (f.Fits v) :=
  inferInstanceAs (Decidable (_ < _))

/-- The value that the field holds in a word. -/
def extract (f : Field) (w : Word) : Word := (w >>> f.position) &&& f.mask

/-- The number that a value of the field stands for. -/
def interpret (f : Field) (v : Word) : Int :=
  match f.signedness with
  | .unsigned => v.toNat
  | .signed => (v.setWidth f.width).toInt

/-- The value of the field that stands for a number in its range. -/
def represent (f : Field) (v : Int) : Word := BitVec.ofInt 32 v &&& f.mask

/-- Whether two fields share a bit. -/
def Overlaps (f g : Field) : Prop := f.position < g.stop ∧ g.position < f.stop

instance (f g : Field) : Decidable (f.Overlaps g) :=
  inferInstanceAs (Decidable (_ ∧ _))

end Field
end WordMachine
