/-!
# WordMachine.Text.Letters

Names are looked up without regard to the case of their ASCII letters. No other letter has a case
here: a name with any other character in it matches only itself.
-/

namespace WordMachine
namespace Text

/-- Whether two texts differ at most in the case of ASCII letters. -/
def sameLetters (s t : String) : Bool :=
  s.toList.map Char.toLower == t.toList.map Char.toLower

end Text
end WordMachine
