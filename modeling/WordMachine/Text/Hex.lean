/-!
# WordMachine.Text.Hex

Hexadecimal spellings of numbers: with as few digits as possible, or with at least eight.
-/

namespace WordMachine
namespace Hex

/-- The lower-case digits of `n`, padded with zeros on the left to `width` places. -/
def digits (width n : Nat) : List Char :=
  let ds := Nat.toDigits 16 n
  List.replicate (width - ds.length) '0' ++ ds

/-- `0x` and as few lower-case digits as possible. -/
def short (n : Nat) : String := "0x" ++ String.ofList (digits 1 n)

/-- `0x` and eight lower-case digits. -/
def full (n : Nat) : String := "0x" ++ String.ofList (digits 8 n)

/-- `0x` and eight upper-case digits. -/
def fullUpper (n : Nat) : String := "0x" ++ String.ofList ((digits 8 n).map Char.toUpper)

end Hex
end WordMachine
