import WordMachine.Instruction.Flags
import WordMachine.Machine.Operation

/-!
# WordMachine.Machine.Alu

Calculations on two words: the result and what becomes of the flags. Addition, subtraction and
multiplication set all four flags, division only negative and zero, a shift by nothing keeps the
carry, and every shift keeps the overflow. A comparison delivers a word with one bit for each
relation that holds (`conditionMask`) and the flags of the subtraction.
-/

namespace WordMachine

/-- What an instruction does to the flags. -/
inductive FlagsChange where
  | none
  | all (f : Flags)
  | negativeZero (negative zero : Bool)
deriving DecidableEq, Repr

namespace FlagsChange

/-- Negative and zero as the result has them, and this carry and overflow. -/
def ofResult (result : Word) (carry overflow : Bool) : FlagsChange :=
  all { negative := result.msb, zero := result == 0, carry, overflow }

/-- Negative and zero as the result has them. -/
def signOf (result : Word) : FlagsChange := negativeZero result.msb (result == 0)

/-- The flags after the change. -/
def apply : FlagsChange → Flags → Flags
  | none, f => f
  | all f, _ => f
  | negativeZero negative zero, f => { f with negative, zero }

end FlagsChange

/-- The relations that a comparison tells apart, each with a bit of its own. -/
inductive Relation where
  | eq | ne | lt | le | gt | ge | lo | hs
deriving DecidableEq, Repr

namespace Relation

def all : List Relation := [eq, ne, lt, le, gt, ge, lo, hs]

/-- The bit of the relation in a condition mask. -/
def bit (r : Relation) : Nat := r.ctorIdx

/-- Whether the relation holds; `lo` and `hs` compare without a sign, the others with one. -/
def holds : Relation → Word → Word → Bool
  | eq, a, b => a == b
  | ne, a, b => a != b
  | lt, a, b => a.slt b
  | le, a, b => a.sle b
  | gt, a, b => b.slt a
  | ge, a, b => b.sle a
  | lo, a, b => a.ult b
  | hs, a, b => b.ule a

end Relation

/-- The bits of the relations that hold between two words. -/
def conditionMask (a b : Word) : Word :=
  (Relation.all.filter (·.holds a b)).foldl (fun mask r => mask ||| 1 <<< r.bit) 0

namespace AluOp

/-- The flags of a subtraction: the carry is the borrow. -/
def subtractFlags (a b : Word) : FlagsChange :=
  let result := a - b
  .ofResult result (a.ult b) ((a ^^^ b) &&& (a ^^^ result)).msb

/-- The flags of a shift by `distance`, which moves out `carry` last. -/
def shiftFlags (flags : Flags) (distance : Nat) (result : Word) (carry : Bool) : FlagsChange :=
  .ofResult result (if distance = 0 then flags.carry else carry) flags.overflow

/-- The distance of a shift. -/
def distance (b : Word) : Nat := b.toNat % 32

/-- The result of a calculation and what becomes of the flags. -/
def run (op : AluOp) (a b : Word) (flags : Flags) : Except Trap (Word × FlagsChange) :=
  match op with
  | add =>
    let result := a + b
    .ok (result, .ofResult result (0x100000000 ≤ a.toNat + b.toNat)
      ((a ^^^ result) &&& (b ^^^ result)).msb)
  | sub => .ok (a - b, subtractFlags a b)
  | mul =>
    let result := a * b
    .ok (result, .ofResult result (0x100000000 ≤ a.toNat * b.toNat)
      (a.toInt * b.toInt ≠ result.toInt))
  | div =>
    if b = 0 then .error .divisionByZero
    else if a = BitVec.intMin 32 ∧ b = -1 then .error .divisionOverflow
    else .ok (a.sdiv b, .signOf (a.sdiv b))
  | mod =>
    if b = 0 then .error .divisionByZero
    else if a = BitVec.intMin 32 ∧ b = -1 then .error .divisionOverflow
    else .ok (a.srem b, .signOf (a.srem b))
  | and => .ok (a &&& b, .ofResult (a &&& b) false false)
  | or => .ok (a ||| b, .ofResult (a ||| b) false false)
  | xor => .ok (a ^^^ b, .ofResult (a ^^^ b) false false)
  | shl =>
    let result := a <<< distance b
    .ok (result, shiftFlags flags (distance b) result (a.getLsbD (32 - distance b)))
  | shr =>
    let result := a >>> distance b
    .ok (result, shiftFlags flags (distance b) result (a.getLsbD (distance b - 1)))
  | asr =>
    let result := a.sshiftRight (distance b)
    .ok (result, shiftFlags flags (distance b) result (a.getLsbD (distance b - 1)))
  | cmp => .ok (conditionMask a b, subtractFlags a b)

end AluOp
end WordMachine
