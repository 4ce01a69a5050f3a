import WordMachine.Instruction.Register
import WordMachine.Program.AddressMap
import WordMachine.Program.NameTable

/-!
# WordMachine.Program.DebugInfo

What ties code back to its source: the line that each address comes from, the variables that are
visible at an address, and the text of the source files.

The information is made for code at some origin. `DebugInfo.relocatedTo` moves it with the code:
every address in it changes by the same distance, modulo the size of the address space.
-/

namespace WordMachine

/-- A line of a source file, counted from 1. -/
structure SourceLocation where
  file : String
  line : Nat
deriving DecidableEq, Repr, Inhabited

namespace SourceLocation

def describe (l : SourceLocation) : String := s!"{l.file}:{l.line}"

end SourceLocation

/-- Where a variable lives: in a register, at a fixed address, or at a distance from the stack
pointer. -/
inductive VariablePlace where
  | register (r : Register)
  | address (a : Word)
  | frameOffset (distance : Word)
deriving DecidableEq, Repr

structure Variable where
  name : String
  typeName : String
  size : Word
  place : VariablePlace
deriving DecidableEq, Repr

namespace Variable

/-- Only a fixed address moves with the code. -/
def shift (distance : Word) (v : Variable) : Variable :=
  match v.place with
  | .address a => { v with place := .address (a + distance) }
  | _ => v

end Variable

/-- A region of code with variables of its own and regions inside it. -/
structure Scope where
  low : Word
  high : Word
  locals : List Variable
  children : List Scope

namespace Scope

/-- Whether an address lies in the region. -/
def Contains (s : Scope) (a : Word) : Prop := s.low ≤ a ∧ a < s.high

instance (s : Scope) (a : Word) : Decidable (s.Contains a) :=
  inferInstanceAs (Decidable (_ ∧ _))

mutual

/-- The variables visible at an address, those of outer regions first. -/
def visible (a : Word) : Scope → List Variable
  | ⟨low, high, locals, children⟩ =>
    if low ≤ a ∧ a < high then locals ++ visibleIn a children else []

/-- The variables visible at an address in some of the regions. -/
def visibleIn (a : Word) : List Scope → List Variable
  | [] => []
  | s :: rest => visible a s ++ visibleIn a rest

end

mutual

/-- Moves a region and all inside it. -/
def shift (distance : Word) : Scope → Scope
  | ⟨low, high, locals, children⟩ =>
    ⟨low + distance, high + distance, locals.map (Variable.shift distance),
      shiftAll distance children⟩

/-- Moves several regions. -/
def shiftAll (distance : Word) : List Scope → List Scope
  | [] => []
  | s :: rest => shift distance s :: shiftAll distance rest

end

end Scope

namespace SourceText

/-- The lines of a text. A line ends at a line feed, which may have one carriage return before it;
the end of the text ends a line only if there is something on it. -/
def split : List Char → List (List Char)
  | [] => []
  | '\n' :: cs => [] :: split cs
  | '\r' :: '\n' :: cs => [] :: split cs
  | c :: cs =>
    match split cs with
    | [] => [[c]]
    | line :: rest => (c :: line) :: rest

/-- The lines of a text. -/
def lines (text : String) : List String := (split text.toList).map String.ofList

end SourceText

structure DebugInfo where
  lines : AddressMap SourceLocation := .empty
  /-- Variables by the address that they are listed from. -/
  listed : AddressMap (List Variable) := .empty
  scopes : NameTable Scope := .empty
  sources : NameTable (List String) := .empty
  /-- The address of the code that the addresses are made for. -/
  origin : Word := 0

namespace DebugInfo

/-- The same information for code at another origin. -/
def relocatedTo (d : DebugInfo) (origin : Word) : DebugInfo :=
  let distance := origin - d.origin
  { lines := d.lines.shift distance id
    listed := d.listed.shift distance (·.map (Variable.shift distance))
    scopes := d.scopes.mapValues (Scope.shift distance)
    sources := d.sources
    origin }

/-- The line that begins at an address. -/
def exactLocation? (d : DebugInfo) (a : Word) : Option SourceLocation := d.lines.get? a

/-- The line that an address belongs to: the last one that begins at or below it. -/
def locationAt? (d : DebugInfo) (a : Word) : Option SourceLocation := d.lines.floor? a

/-- The first address of a line. -/
def addressOfLine? (d : DebugInfo) (l : SourceLocation) : Option Word :=
  d.lines.firstAddress? (· = l)

/-- Adds the variables whose names are not there yet. -/
def addUnseen (seen : List Variable) (vs : List Variable) : List Variable :=
  vs.foldl (fun seen v => if seen.any (·.name = v.name) then seen else seen ++ [v]) seen

/-- The variables visible at an address: those of the regions around it, then those listed at or
below it under names of their own. -/
def variablesAt (d : DebugInfo) (a : Word) : List Variable :=
  addUnseen (d.scopes.values.flatMap (Scope.visible a)) ((d.listed.floor? a).getD [])

/-- The text of a source line. -/
def sourceLine? (d : DebugInfo) (l : SourceLocation) : Option String :=
  if l.line = 0 then none
  else (d.sources.get? l.file).bind (·[l.line - 1]?)

end DebugInfo
end WordMachine
