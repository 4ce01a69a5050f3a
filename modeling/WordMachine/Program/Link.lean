import WordMachine.Program.Placement
import WordMachine.Program.Forms

/-!
# WordMachine.Program.Link

Linking makes a program ready to run: its references are bound, everything in it has an address,
and every code entry has all three forms.
-/

namespace WordMachine

/-- Why a program does not link. -/
inductive LinkError where
  | binding (e : BindingError)
  | placement (e : PlacementError)
  | code (e : CodeError)
deriving DecidableEq, Repr

namespace LinkError

def message : LinkError → String
  | binding e => e.message
  | placement e => e.message
  | code e => e.message

end LinkError

namespace Program

/-- The program bound, placed and settled. -/
def link (s : InstructionSet) (rules : PlacementRules) (p : Program) :
    Except LinkError Program := do
  let bound ← p.bind.mapError .binding
  let placed ← (bound.place rules).mapError .placement
  (placed.settle s).mapError .code

end Program
end WordMachine
