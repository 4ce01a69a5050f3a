import WordMachine.Machine.Image
import WordMachine.Machine.Effect

/-!
# WordMachine.Debug.CallStack

The calls that have not returned, reconstructed from the transfers of control alone. A call opens
a record. A jump to the return address of an open call closes the innermost such call and all
calls inside it; any other jump stays within the function.
-/

namespace WordMachine

structure CallRecord where
  /-- The address of the calling instruction. -/
  site : Word
  target : Word
  returnAddress : Word
deriving DecidableEq, Repr

/-- The open calls, the innermost first. -/
abbrev CallStack := List CallRecord

namespace CallStack

/-- The open calls after a jump. -/
def afterJump (calls : CallStack) (target : Word) : CallStack :=
  match calls.dropWhile (·.returnAddress ≠ target) with
  | [] => calls
  | _ :: outer => outer

/-- The open calls after the instruction at `pc`. -/
def observe (calls : CallStack) (pc : Word) : Option Transfer → CallStack
  | none => calls
  | some (.call target returnAddress) => ⟨pc, target, returnAddress⟩ :: calls
  | some (.jump target) => calls.afterJump target

/-- The number of open calls. -/
def depth (calls : CallStack) : Nat := calls.length

end CallStack

/-- A place where control is or will return to. -/
structure Frame where
  function : Option String
  address : Word
  location : Option SourceLocation
deriving DecidableEq, Repr

namespace Frame

/-- The frame of the code at an address. -/
def ofAddress (p : Program) (a : Word) : Frame where
  function := (p.functionAt? a).map (·.1)
  address := a
  location := p.debugInfo.bind (·.locationAt? a)

end Frame

namespace CallStack

/-- The call that the link register still points behind, if it is in another function than the
code at `pc`. -/
def linkedCall? (p : Program) (pc lr : Word) : Option Word := do
  let site := lr - 4
  let e ← p.entryAt? site
  let isCall := e.instruction.any (·.opcode.isCall)
  let outside := (p.functionAt? site).map (·.1) ≠ (p.functionAt? pc).map (·.1)
  if lr ≠ sentinel ∧ isCall ∧ outside then some site else none

/-- The frames of the code at `pc`, the innermost first. Where no call is recorded, the link
register may tell of one. -/
def frames (calls : CallStack) (p : Program) (pc lr : Word) : List Frame :=
  let sites := if calls.isEmpty then (linkedCall? p pc lr).toList else calls.map CallRecord.site
  (pc :: sites).map (Frame.ofAddress p)

end CallStack
end WordMachine
