import WordMachine.Instruction.Basic
import WordMachine.Program.DebugInfo
import WordMachine.Program.Reference

/-!
# WordMachine.Program.Basic

A program: code entries, and the functions, globals and labels that name places in it. A code
entry may come as text, as field values, as an instruction or in several of these forms; placing
the program gives every entry and every global an address.
-/

namespace WordMachine

/-- One instruction of a program, in whichever forms are known. -/
structure CodeEntry where
  address : Option Word := none
  sourceLine : Option Nat := none
  text : Option String := none
  fields : Option FieldValues := none
  instruction : Option Instruction := none
  references : List Reference := []
deriving DecidableEq, Repr

namespace CodeEntry

/-- Whether all three forms are known. -/
def isComplete (e : CodeEntry) : Bool :=
  e.text.isSome && e.fields.isSome && e.instruction.isSome

end CodeEntry

/-- The code entries with indices from `first` up to but not including `last`. -/
structure EntryRange where
  first : Nat
  last : Nat
deriving DecidableEq, Repr

namespace EntryRange

def Contains (r : EntryRange) (i : Nat) : Prop := r.first ≤ i ∧ i < r.last

instance (r : EntryRange) (i : Nat) : Decidable (r.Contains i) :=
  inferInstanceAs (Decidable (_ ∧ _))

end EntryRange

structure Function where
  ranges : List EntryRange
  sourceFile : Option String := none
  /-- The first and the last source line. -/
  lineRange : Option (Nat × Nat) := none
deriving DecidableEq, Repr

namespace Function

/-- The entry that a call goes to: the first one of the first range, if that range has any. -/
def entryIndex? (f : Function) : Option Nat :=
  (f.ranges.head?.filter fun r => r.first < r.last).map EntryRange.first

/-- Whether an entry belongs to the function. -/
def Contains (f : Function) (i : Nat) : Prop := ∃ r ∈ f.ranges, r.Contains i

instance (f : Function) (i : Nat) : Decidable (f.Contains i) :=
  inferInstanceAs (Decidable (∃ r ∈ f.ranges, r.Contains i))

end Function

inductive GlobalKind where
  | function
  | object
  | unknown
deriving DecidableEq, Repr

/-- A named stretch of data memory. -/
structure Global where
  name : String
  size : Word
  /-- The first bytes; the rest are zero. -/
  initial : Option (List Byte) := none
  kind : GlobalKind := .object
  address : Option Word := none
deriving DecidableEq, Repr

/-- A name for a code entry. -/
structure Label where
  name : String
  index : Option Nat := none
deriving DecidableEq, Repr

/-- Where code and data lie. -/
structure MemoryMap where
  base : Word
  codeStart : Word
  codeSize : Word
  dataStart : Word
  dataSize : Word
  totalSize : Word
  /-- The distance from one instruction to the next. -/
  stride : Word
deriving DecidableEq, Repr

namespace MemoryMap

/-- The first address past the code. -/
def codeEnd (m : MemoryMap) : Word := m.codeStart + m.codeSize

/-- The end of everything; it may be the end of the address space itself. -/
def finish (m : MemoryMap) : Nat := m.base.toNat + m.totalSize.toNat

end MemoryMap

structure Program where
  fileName : String
  sourceFile : Option String := none
  functions : NameTable Function := .empty
  code : List CodeEntry := []
  globals : List Global := []
  labels : List Label := []
  memoryMap : Option MemoryMap := none
  debugInfo : Option DebugInfo := none

namespace Program

/-- Whether the program has a memory map and every code entry an address. -/
def isPlaced (p : Program) : Bool :=
  p.memoryMap.isSome && p.code.all (·.address.isSome)

end Program
end WordMachine
