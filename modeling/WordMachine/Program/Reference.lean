import WordMachine.Word

/-!
# WordMachine.Program.Reference

How code refers to a place by name. A token names a place and says which part of its address is
meant: all of it, or after `@lo` and `@hi` the lower or upper half.
-/

namespace WordMachine

/-- A part of an address. -/
inductive AddressPart where
  | whole
  | low
  | high
deriving DecidableEq, Repr, Inhabited

namespace AddressPart

/-- The part of an address. -/
def take : AddressPart → Word → Word
  | whole, a => a
  | low, a => a &&& 0xFFFF
  | high, a => a >>> 16

/-- What a token writes after the name for this part. -/
def suffix : AddressPart → String
  | whole => ""
  | low => "@lo"
  | high => "@hi"

/-- The name in a token and the part it asks for. Only `lo` and `hi` may follow the first at sign. -/
def split? (token : String) : Option (String × AddressPart) :=
  let cs := token.toList
  let name := String.ofList (cs.takeWhile (· ≠ '@'))
  match cs.dropWhile (· ≠ '@') with
  | [] => some (token, whole)
  | ['@', 'l', 'o'] => some (name, low)
  | ['@', 'h', 'i'] => some (name, high)
  | _ => none

end AddressPart

/-- An entity of a program by its place in the table of its kind. -/
inductive Target where
  | function (index : Nat)
  | global (index : Nat)
  | label (index : Nat)
deriving DecidableEq, Repr

/-- A named place that one code entry refers to. -/
structure Reference where
  name : String
  part : AddressPart := .whole
  /-- What the name stands for, once that is settled. -/
  target : Option Target := none
  /-- The operand that the reference is written at, once that is settled. -/
  operand : Option Nat := none
deriving DecidableEq, Repr

namespace Reference

/-- The token that writes the reference. -/
def token (r : Reference) : String := r.name ++ r.part.suffix

end Reference
end WordMachine
