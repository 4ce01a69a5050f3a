/-!
# WordMachine.Text.Blank

White space as the Unicode property `White_Space` has it: twenty-five characters, of which the
space, the tab and the line ends are the everyday ones.
-/

namespace WordMachine
namespace Text

/-- The ranges of code points with the property, in increasing order. -/
def blankRanges : List (Nat × Nat) :=
  [(0x09, 0x0D), (0x20, 0x20), (0x85, 0x85), (0xA0, 0xA0), (0x1680, 0x1680), (0x2000, 0x200A),
   (0x2028, 0x2029), (0x202F, 0x202F), (0x205F, 0x205F), (0x3000, 0x3000)]

/-- Whether a character is white space. -/
def isBlank (c : Char) : Bool :=
  blankRanges.any fun (low, high) => low ≤ c.toNat && c.toNat ≤ high

end Text
end WordMachine
