import WordMachine.Machine.Memory
import WordMachine.Machine.Operation
import WordMachine.Program.Forms

/-!
# WordMachine.Machine.Listing

Memory read as code: one row for each word, up to the first address that cannot be read. A word
that is still the one the program put there is shown with the program's names; any other as it
decodes, or as a number if it is no instruction.

Room for all the rows that are asked for is made before the first one is read, and there is none for
very many (`Listing.HasRoom`). Then there is no listing, however little can be read.
-/

namespace WordMachine
namespace Listing

structure Row where
  address : Word
  word : Word
  mnemonic : String
  operands : String
  illegal : Bool
deriving DecidableEq, Repr

namespace Row

/-- The row as a line of text. -/
def text (r : Row) : String :=
  if r.operands.isEmpty then r.mnemonic else r.mnemonic ++ " " ++ r.operands

end Row

/-- The program's instruction at an address, with its names, if the word there is its encoding. -/
def linked? (s : InstructionSet) (p : Program) (a word : Word) :
    Option (Instruction × Assembly.Names) := do
  let e ← p.entryAt? a
  let i ← e.instruction
  if (s.encode i).toOption = some word then pure (i, p.referenceNames e.references) else none

/-- The instruction that a word at an address is shown as, with names for its numbers. -/
def shown? (s : InstructionSet) (p : Program) (a word : Word) :
    Option (Instruction × Assembly.Names) :=
  (linked? s p a word).or ((s.operation? word).map fun x => (x.1, Assembly.Names.none))

/-- The row for an instruction. -/
def legalRow (a word : Word) (f : Format) (i : Instruction) (names : Assembly.Names) : Row where
  address := a
  word
  mnemonic := i.opcode.mnemonic
  operands := Assembly.separated (Assembly.operandTexts names f i)
  illegal := false

/-- The row for a word that is no instruction. -/
def illegalRow (a word : Word) : Row where
  address := a
  word
  mnemonic := ".word"
  operands := Hex.fullUpper word.toNat ++ " ; ILLEGAL"
  illegal := true

/-- The row for a word. -/
def row (s : InstructionSet) (p : Program) (a word : Word) : Row :=
  match shown? s p a word with
  | none => illegalRow a word
  | some (i, names) =>
    match s.format? i.opcode with
    | none => illegalRow a word
    | some f => legalRow a word f i names

/-- The rows from an address on, up to the first one that cannot be read, but at most `count`. -/
def rowsFrom (s : InstructionSet) (p : Program) (m : Memory) : (count : Nat) → Word → List Row
  | 0, _ => []
  | count + 1, a =>
    match m.readWord a with
    | .error _ => []
    | .ok word =>
      let r := row s p a word
      if a.toNat + Word.size < 0x100000000 then r :: rowsFrom s p m count (a + 4) else [r]

/-- The number of bytes that a row takes. -/
def Row.size : Nat := 64

/-- The greatest number of bytes that room is made for at once, that of a signed 64-bit number. -/
def maxRoom : Nat := 0x7FFFFFFFFFFFFFFF

/-- Whether room can be made for so many rows. Memory that runs out before is not modelled. -/
def HasRoom (count : Nat) : Prop := count * Row.size ≤ maxRoom

instance (count : Nat) : Decidable (HasRoom count) := inferInstanceAs (Decidable (_ ≤ _))

/-- At most `count` rows from an address on. A count is a number of 64 bits, and for one that there
is no room for the program ends in a panic, which is `none`; so it is for all greater numbers. -/
def rows (s : InstructionSet) (p : Program) (m : Memory) (count : Nat) (a : Word) :
    Option (List Row) :=
  if HasRoom count then some (rowsFrom s p m count a) else none

end Listing
end WordMachine
