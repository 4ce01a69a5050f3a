/-!
# WordMachine.Text.Numeral

Reading numbers from digits. A numeral in base ten is digits only; a numeral in base sixteen may
open with one sign of its own. Both are limited to the range of a 64-bit signed integer.
-/

namespace WordMachine
namespace Numeral

/-- The value of a hexadecimal digit; a letter counts in either case. -/
def digit? (c : Char) : Option Nat :=
  if '0' ≤ c ∧ c ≤ '9' then some (c.toNat - '0'.toNat)
  else if 'a' ≤ c ∧ c ≤ 'f' then some (c.toNat - 'a'.toNat + 10)
  else if 'A' ≤ c ∧ c ≤ 'F' then some (c.toNat - 'A'.toNat + 10)
  else none

/-- The value of a digit that is below `base`. -/
def digitBelow? (base : Nat) (c : Char) : Option Nat :=
  (digit? c).filter (· < base)

/-- The number with these digits, the most significant first. No digits at all are no number. -/
def ofDigits? (base : Nat) : List Char → Option Nat
  | [] => none
  | cs => cs.foldlM (fun n c => (digitBelow? base c).map (n * base + ·)) 0

/-- The greatest number that an immediate can be written as. -/
def maxSigned : Int := 0x7FFFFFFFFFFFFFFF

/-- The least number that an immediate can be written as. -/
def minSigned : Int := -0x8000000000000000

/-- Only a number in the signed 64-bit range. -/
def inSignedRange (v : Int) : Option Int :=
  if minSigned ≤ v ∧ v ≤ maxSigned then some v else none

/-- A numeral in base ten, without a sign. -/
def decimal? (cs : List Char) : Option Int :=
  (ofDigits? 10 cs).bind fun n => inSignedRange n

/-- A numeral in base sixteen, with at most one sign before its digits. -/
def hexadecimal? : List Char → Option Int
  | '+' :: cs => (ofDigits? 16 cs).bind fun n => inSignedRange n
  | '-' :: cs => (ofDigits? 16 cs).bind fun n => inSignedRange (-n)
  | cs => (ofDigits? 16 cs).bind fun n => inSignedRange n

end Numeral
end WordMachine
