import WordMachine.Text.Blank

/-!
# WordMachine.Assembly.Token

A line of assembly is its tokens: the longest runs of characters other than white space and
commas. How they are separated says nothing.
-/

namespace WordMachine
namespace Assembly

/-- Whether a character only separates tokens. -/
def isSeparator (c : Char) : Bool := Text.isBlank c || c == ','

/-- Puts a token before others unless it is empty. -/
def cons (token : List Char) (rest : List (List Char)) : List (List Char) :=
  if token.isEmpty then rest else token :: rest

/-- The characters before the first separator, and the tokens after it. -/
def split : List Char → List Char × List (List Char)
  | [] => ([], [])
  | c :: cs =>
    let (token, rest) := split cs
    if isSeparator c then ([], cons token rest) else (c :: token, rest)

/-- The tokens of a sequence of characters. -/
def scan (cs : List Char) : List (List Char) :=
  cons (split cs).1 (split cs).2

/-- The tokens of a line. -/
def tokens (line : String) : List String := (scan line.toList).map String.ofList

/-- The line with single spaces between its tokens and nothing around them. -/
def normalize (line : String) : String := " ".intercalate (tokens line)

end Assembly
end WordMachine
