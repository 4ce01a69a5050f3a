import WordMachine.Assembly.Immediate
import WordMachine.Instruction.Basic

/-!
# WordMachine.Assembly.Printer

An instruction as a line of assembly: the mnemonic, then the visible operands with commas between
them. A number is printed in digits unless the caller has a name for it.
-/

namespace WordMachine
namespace Assembly

/-- Names for numbers: what to print for a number at an operand instead of its digits. -/
abbrev Names := Nat → Int → Option String

/-- No name for any number. -/
def Names.none : Names := fun _ _ => Option.none

/-- The operands that assembly writes, each with its index among all operands. -/
def visibleOperands (f : Format) (i : Instruction) : List (Nat × Operand) :=
  ((f.fields.zip i.operands).zipIdx.filter (!·.1.1.hidden)).map fun ((_, x), k) => (k, x)

/-- The numbers that assembly writes, each with the index of its operand. -/
def visibleImmediates (f : Format) (i : Instruction) : List (Nat × Int) :=
  (visibleOperands f i).filterMap fun (k, x) => x.immediate?.map (k, ·)

/-- One operand, a number under the name that `names` has for it. -/
def operandText (names : Names) : Nat × Operand → String
  | (_, .register r) => r.name
  | (k, .immediate v) => (names k v).getD (immediateText v)

/-- The operands as they are printed. -/
def operandTexts (names : Names) (f : Format) (i : Instruction) : List String :=
  (visibleOperands f i).map (operandText names)

/-- Puts operands behind one another. -/
def separated (operands : List String) : String := ", ".intercalate operands

/-- The line for an instruction. -/
def render (names : Names) (f : Format) (i : Instruction) : String :=
  match operandTexts names f i with
  | [] => i.opcode.mnemonic
  | operands => i.opcode.mnemonic ++ " " ++ separated operands

/-- The line for an instruction, with every number in digits. -/
def renderPlain (f : Format) (i : Instruction) : String := render Names.none f i

end Assembly
end WordMachine
