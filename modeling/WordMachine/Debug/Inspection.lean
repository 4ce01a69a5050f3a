import WordMachine.Debug.Session

/-!
# WordMachine.Debug.Inspection

The variables that are visible where a session stands, with the bytes they hold.
-/

namespace WordMachine

structure VariableValue where
  described : Variable
  /-- Where the variable lies in memory, if it does. -/
  address : Option Word
  /-- The bytes it holds, if they can be read. -/
  bytes : Option (List Byte)
deriving DecidableEq, Repr

namespace Machine

/-- What a variable holds. Of a register it takes at most as many bytes as there are. -/
def inspect (m : Machine) (v : Variable) : VariableValue :=
  let inMemory (a : Word) : VariableValue :=
    { described := v, address := some a, bytes := (m.memory.read a v.size.toNat).toOption }
  match v.place with
  | .register r =>
    let bytes := (m.registers.get r).toBytes.take v.size.toNat
    { described := v, address := none, bytes := some bytes }
  | .address a => inMemory a
  | .frameOffset distance => inMemory (m.registers.sp + distance)

end Machine

namespace Session

/-- The visible variables and what they hold. -/
def visibleVariables (s : Session) : List VariableValue :=
  match s.debugInfo? with
  | none => []
  | some d => (d.variablesAt s.pc).map s.machine.inspect

end Session
end WordMachine
