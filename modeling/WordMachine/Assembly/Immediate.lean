import WordMachine.Text.Numeral

/-!
# WordMachine.Assembly.Immediate

Numbers in assembly open with a number sign. A minus may follow, then digits in base ten, or `0x`
and a numeral in base sixteen.
-/

namespace WordMachine
namespace Assembly

/-- The number without its sign. -/
def magnitude? : List Char → Option Int
  | '0' :: 'x' :: cs => Numeral.hexadecimal? cs
  | '0' :: 'X' :: cs => Numeral.hexadecimal? cs
  | cs => Numeral.decimal? cs

/-- The number that a token writes. A minus before a magnitude of -2 ^ 63, which has a sign of its
own behind `0x`, gives 2 ^ 63: this stands for a negation that overflows 64 bits. -/
def immediate? (token : String) : Option Int :=
  match token.toList with
  | '#' :: '-' :: cs => (magnitude? cs).map (- ·)
  | '#' :: cs => magnitude? cs
  | _ => none

/-- The token that writes a number in base ten. -/
def immediateText (v : Int) : String := s!"#{v}"

end Assembly
end WordMachine
