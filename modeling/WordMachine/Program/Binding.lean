import WordMachine.Program.Lookup

/-!
# WordMachine.Program.Binding

Binding gives every reference the entity that its name stands for. Whatever a reference was bound
to before is forgotten. A program binds exactly when every name in its references is known.
-/

namespace WordMachine
namespace Program

/-- The entry with its references bound as the names stand in `p`. -/
def bindEntry (p : Program) (e : CodeEntry) : CodeEntry :=
  { e with references := e.references.map fun r => { r with target := p.lookup? r.name } }

/-- The program with every reference bound, as far as names are known. -/
def bindReferences (p : Program) : Program := { p with code := p.code.map p.bindEntry }

/-- The names that references use, in the order of the code. -/
def referencedNames (p : Program) : List String :=
  p.code.flatMap fun e => e.references.map Reference.name

/-- The names that stand for nothing, each once, in the order of their first use. -/
def unknownNames (p : Program) : List String :=
  (p.referencedNames.filter fun name => (p.lookup? name).isNone).eraseDups

end Program

/-- Some names that references use stand for nothing. -/
structure BindingError where
  names : List String
deriving DecidableEq, Repr

namespace BindingError

def message (e : BindingError) : String :=
  "unresolved symbols: " ++ ", ".intercalate e.names

end BindingError

namespace Program

/-- The program with every reference bound. -/
def bind (p : Program) : Except BindingError Program :=
  if p.unknownNames = [] then .ok p.bindReferences else .error ⟨p.unknownNames⟩

end Program
end WordMachine
