import WordMachine.Instruction.Codec
import WordMachine.Assembly.Token
import WordMachine.Assembly.Printer
import WordMachine.Program.Lookup

/-!
# WordMachine.Program.Forms

Bringing the three forms of a code entry into agreement. The text decides if there is one, else
the instruction, else the field values; the other forms are made from it (`Program.settleEntry`).

In text a number operand may be written as the name of a reference of the entry, and it is printed
so again at the operand that the reference belongs to (`Program.referenceNames`). A hidden operand
is not written: reading repeats the operand before it, and an entry without text whose hidden
operand differs from the one before is refused.
-/

namespace WordMachine

/-- Why a code entry cannot be brought into agreement. -/
inductive EntryError where
  | empty
  | unknownMnemonic (mnemonic : String)
  | operandCount (opcode : Opcode) (expected found : Nat)
  | invalidRegister (token : String)
  | invalidImmediate (token : String)
  | unknownSymbol (name : String)
  | unresolvedSymbol (name : String)
  | unresolvedAddress (name : String)
  | tiedOperandMismatch (opcode : Opcode) (operand : Nat)
  | coding (e : CodingError)
deriving DecidableEq, Repr

namespace EntryError

def message : EntryError → String
  | empty => "instruction has no representation"
  | unknownMnemonic m => s!"unknown mnemonic `{m}`"
  | operandCount op expected found => s!"{op} takes {expected} operands, got {found}"
  | invalidRegister t => s!"`{t}` is not a register"
  | invalidImmediate t => s!"`{t}` is not an immediate or symbol"
  | unknownSymbol n => s!"symbol `{n}` is not referenced by this instruction"
  | unresolvedSymbol n => s!"symbol `{n}` is unresolved"
  | unresolvedAddress n => s!"symbol `{n}` has no address"
  | tiedOperandMismatch op i => s!"{op}: hidden operand {i} differs from the operand before it"
  | coding e => e.message

end EntryError

namespace Assembly

/-- Whether a character may open a name. -/
def opensName (c : Char) : Bool := c.isAlpha || c == '_' || c == '.' || c == '$'

/-- Whether a character may stand inside a name. -/
def continuesName (c : Char) : Bool := opensName c || c.isDigit

/-- Whether a token can name a place: ASCII letters, digits, underscores, dots and dollar signs,
and no digit first. -/
def isName (s : String) : Bool :=
  match s.toList with
  | [] => false
  | c :: cs => opensName c && cs.all continuesName

end Assembly

namespace Program

/-- The first reference with this name and part, else the first with this name. -/
def findReference? (refs : List Reference) (name : String) (part : AddressPart) : Option Nat :=
  (refs.findIdx? fun r => r.name = name ∧ r.part = part).or (refs.findIdx? (·.name = name))

/-- The number that a named token stands for, and the index of the reference it goes through. -/
def namedValue (p : Program) (refs : List Reference) (token : String) :
    Except EntryError (Word × Nat) := do
  let some (name, part) := AddressPart.split? token | throw (.invalidImmediate token)
  if ¬ Assembly.isName name then throw (.invalidImmediate token)
  let some i := findReference? refs name part | throw (.unknownSymbol name)
  let some target := refs[i]?.bind Reference.target | throw (.unresolvedSymbol name)
  let some address := p.targetAddress? target | throw (.unresolvedAddress name)
  pure (part.take address, i)

/-- The operand that a token writes, and the index of the reference it goes through, if any. -/
def readOperand (p : Program) (refs : List Reference) (kind : OperandKind) (token : String) :
    Except EntryError (Operand × Option Nat) := do
  match kind with
  | .register =>
    let some r := Register.ofName? token | throw (.invalidRegister token)
    pure (.register r, none)
  | .immediate =>
    if token.toList.head? = some '#' then
      let some v := Assembly.immediate? token | throw (.invalidImmediate token)
      pure (.immediate v, none)
    else
      let (v, i) ← p.namedValue refs token
      pure (.immediate v.toNat, some i)

/-- Reads the operands of the fields from number `index` on, `previous` being the operand before
them. With the operands come the references used, each with the operand it is used at. -/
def readOperands (p : Program) (refs : List Reference) (f : Format) (index : Nat)
    (previous : Option Operand) : List Field → List String →
      Except EntryError (List Operand × List (Nat × Nat))
  | [], _ => pure ([], [])
  | field :: fields, tokens =>
    if field.hidden then
      match previous with
      | none => throw (.coding (.operandCount f.opcode f.arity index))
      | some x => do
        let (xs, uses) ← readOperands p refs f (index + 1) previous fields tokens
        pure (x :: xs, uses)
    else
      match tokens with
      | [] => throw (.operandCount f.opcode f.visibleArity index)
      | token :: rest => do
        let (x, use) ← p.readOperand refs field.kind token
        let (xs, uses) ← readOperands p refs f (index + 1) (some x) fields rest
        pure (x :: xs, (use.map (·, index)).toList ++ uses)

/-- The instruction that a line writes, with the references it uses. -/
def assemble (s : InstructionSet) (p : Program) (refs : List Reference) (line : String) :
    Except EntryError (Instruction × List (Nat × Nat)) := do
  match Assembly.tokens line with
  | [] => throw .empty
  | mnemonic :: tokens =>
    let some f := s.formatNamed? mnemonic | throw (.unknownMnemonic mnemonic)
    if tokens.length ≠ f.visibleArity then
      throw (.operandCount f.opcode f.visibleArity tokens.length)
    let (operands, uses) ← p.readOperands refs f 0 none f.fields tokens
    pure (⟨f.opcode, operands⟩, uses)

/-- Notes at which operand each reference is used; of several uses the last one stays. -/
def noteUses (refs : List Reference) (uses : List (Nat × Nat)) : List Reference :=
  uses.foldl (fun refs (i, operand) => refs.modify i fun r => { r with operand := some operand })
    refs

/-- The names under which numbers are printed: that of the first reference that belongs to the
operand and stands for the number. -/
def referenceNames (p : Program) (refs : List Reference) : Assembly.Names := fun operand v =>
  (refs.find? fun r =>
    r.operand = some operand && (p.referenceValue? r).any (fun w => (w.toNat : Int) = v)).map
      Reference.token

/-- The line for an instruction, with numbers under the names of references. -/
def print (s : InstructionSet) (p : Program) (refs : List Reference) (i : Instruction) :
    Except CodingError String := do
  let f ← s.format i.opcode
  pure (Assembly.render (p.referenceNames refs) f i)

/-- The first hidden operand that differs from the one before it. -/
def untied? (f : Format) (operands : List Operand) : Option Nat :=
  (f.fields.zipIdx.find? fun (field, k) =>
    k ≠ 0 && field.hidden && operands[k]? ≠ operands[k - 1]?).map (·.2)

/-- Refuses an instruction whose hidden operands do not repeat the operands before them. -/
def checkTied (s : InstructionSet) (i : Instruction) : Except EntryError Unit := do
  let f ← (s.format i.opcode).mapError .coding
  match untied? f i.operands with
  | some k => throw (.tiedOperandMismatch f.opcode k)
  | none => pure ()

/-- The entry with all three forms, which agree. -/
def settleEntry (s : InstructionSet) (p : Program) (e : CodeEntry) :
    Except EntryError CodeEntry := do
  match e.references.find? (·.target.isNone) with
  | some r => throw (.unresolvedSymbol r.name)
  | none => pure ()
  match e.text, e.instruction, e.fields with
  | some line, _, _ =>
    let (i, uses) ← p.assemble s e.references line
    let fields ← (s.toFields i).mapError .coding
    pure { e with
      fields := some fields, instruction := some i, references := noteUses e.references uses }
  | none, some i, _ =>
    let fields ← (s.toFields i).mapError .coding
    checkTied s i
    let line ← (p.print s e.references i).mapError .coding
    pure { e with text := some line, fields := some fields }
  | none, none, some fields =>
    let i ← (s.ofFields fields).mapError .coding
    checkTied s i
    let line ← (p.print s e.references i).mapError .coding
    pure { e with text := some line, instruction := some i }
  | none, none, none => throw .empty

end Program

/-- Why the code of a program cannot be brought into agreement: the entry and the cause. -/
structure CodeError where
  index : Nat
  cause : EntryError
deriving DecidableEq, Repr

namespace CodeError

def message (e : CodeError) : String := s!"instruction {e.index}: {e.cause.message}"

end CodeError

namespace Program

/-- The code entry at an index with all three forms. -/
def settleAt (s : InstructionSet) (p : Program) (i : Nat) : Except CodeError CodeEntry :=
  match p.code[i]? with
  | some e => (p.settleEntry s e).mapError (⟨i, ·⟩)
  | none => .error ⟨i, .empty⟩

/-- Settles the entries from number `index` on, in order. -/
def settleFrom (s : InstructionSet) (p : Program) (index : Nat) :
    List CodeEntry → Except CodeError (List CodeEntry)
  | [] => pure []
  | e :: rest => do
    let e ← (p.settleEntry s e).mapError (⟨index, ·⟩)
    let rest ← settleFrom s p (index + 1) rest
    pure (e :: rest)

/-- The program with all three forms of every code entry. -/
def settle (s : InstructionSet) (p : Program) : Except CodeError Program := do
  pure { p with code := ← settleFrom s p 0 p.code }

end Program
end WordMachine
