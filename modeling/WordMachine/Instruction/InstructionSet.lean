import WordMachine.Instruction.Format

/-!
# WordMachine.Instruction.InstructionSet

The formats that a machine understands, at most one for each opcode. `InstructionSet.ofFormats`
admits a list of formats when each one fits the word: the fields lie beside one another above the
opcode, and every hidden field can repeat the one before it.
-/

namespace WordMachine

/-- What a field of a format runs into. -/
inductive Neighbour where
  | opcode
  | operand (index : Nat)
deriving DecidableEq, Repr

namespace Neighbour

def describe : Neighbour → String
  | opcode => "opcode"
  | operand i => s!"operand {i}"

end Neighbour

/-- Why a list of formats is no instruction set. -/
inductive FormatError where
  | wordOverflow (opcode : Opcode) (required available : Nat)
  | fieldOutOfBounds (opcode : Opcode) (operand position width : Nat)
  | fieldOverlap (opcode : Opcode) (operand : Nat) (other : Neighbour)
  | zeroWidth (opcode : Opcode) (operand : Nat)
  | hiddenWithoutPredecessor (opcode : Opcode) (operand : Nat)
  | duplicateOpcode (opcode : Opcode)
deriving DecidableEq, Repr

namespace FormatError

def message : FormatError → String
  | wordOverflow op required available =>
    s!"{op}: layout needs {required} bits but the word has {available}"
  | fieldOutOfBounds op i position width =>
    s!"{op}: operand {i} at bit {position} width {width} leaves the word"
  | fieldOverlap op i other => s!"{op}: operand {i} overlaps {other.describe}"
  | zeroWidth op i => s!"{op}: operand {i} has zero width"
  | hiddenWithoutPredecessor op i =>
    s!"{op}: hidden operand {i} has no preceding operand to copy"
  | duplicateOpcode op => s!"{op}: described more than once"

end FormatError

namespace Format

/-- Whether a hidden field after `previous` can hold every value that `previous` holds. -/
def CanRepeat (previous : Option Field) (f : Field) : Prop :=
  match previous with
  | some p => p.kind = f.kind ∧ p.width ≤ f.width
  | none => False

instance (previous : Option Field) (f : Field) : Decidable (CanRepeat previous f) := by
  unfold CanRepeat; cases previous <;> infer_instance

/-- Checks one field against the word, the opcode and the fields before it, which are given in
order. -/
def checkField (op : Opcode) (earlier : List Field) (f : Field) : Except FormatError Unit := do
  let i := earlier.length
  if f.width = 0 then throw (.zeroWidth op i)
  if f.stop > 32 then throw (.fieldOutOfBounds op i f.position f.width)
  if f.position < Opcode.bits then throw (.fieldOverlap op i .opcode)
  match earlier.findIdx? (fun g => decide (f.Overlaps g)) with
  | some j => throw (.fieldOverlap op i (.operand j))
  | none => pure ()
  if f.hidden ∧ ¬ CanRepeat earlier.getLast? f then throw (.hiddenWithoutPredecessor op i)

/-- Checks the fields that follow `earlier`, from left to right. -/
def checkFields (op : Opcode) (earlier : List Field) : List Field → Except FormatError Unit
  | [] => pure ()
  | f :: rest => do
    checkField op earlier f
    checkFields op (earlier ++ [f]) rest

/-- Checks that the format fits the word. -/
def check (f : Format) : Except FormatError Unit := do
  let required := Opcode.bits + f.operandBits
  if required > 32 then throw (.wordOverflow f.opcode required 32)
  checkFields f.opcode [] f.fields

end Format

structure InstructionSet where
  formats : List Format
deriving DecidableEq, Repr

namespace InstructionSet

/-- Checks formats from left to right: each fits the word and has an opcode that no format
before it has. -/
def checkAll (seen : List Opcode) : List Format → Except FormatError Unit
  | [] => pure ()
  | f :: rest => do
    f.check
    if f.opcode ∈ seen then throw (.duplicateOpcode f.opcode)
    checkAll (f.opcode :: seen) rest

/-- The instruction set with exactly these formats. -/
def ofFormats (fs : List Format) : Except FormatError InstructionSet := do
  checkAll [] fs
  pure ⟨fs⟩

/-- The usual format of every opcode. -/
def standard : InstructionSet := ⟨Opcode.all.map Format.standard⟩

/-- The format of an opcode, if the machine has it. -/
def format? (s : InstructionSet) (op : Opcode) : Option Format :=
  s.formats.find? (·.opcode = op)

/-- The format of the opcode with this mnemonic. -/
def formatNamed? (s : InstructionSet) (name : String) : Option Format :=
  (Opcode.ofMnemonic? name).bind s.format?

/-- The formats in the order of the ordinals. -/
def listing (s : InstructionSet) : List Format := Opcode.all.filterMap s.format?

/-- The number of opcodes that the machine has. -/
def size (s : InstructionSet) : Nat := s.listing.length

/-- Whether the machine has no opcode at all. -/
def isEmpty (s : InstructionSet) : Bool := s.size = 0

/-- Whether two sets give every opcode the same format. -/
def Agrees (s t : InstructionSet) : Prop := s.listing = t.listing

instance (s t : InstructionSet) : Decidable (s.Agrees t) :=
  inferInstanceAs (Decidable (_ = _))

end InstructionSet
end WordMachine
