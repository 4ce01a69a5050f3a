import WordMachine.Debug.Session

/-!
# WordMachine.Debug.Command

The commands of a session as data, and what a list of them does. Commands that run the machine have
a result; the others only change the session, and a command that is refused changes nothing.
-/

namespace WordMachine

inductive Command where
  | step (n : Nat)
  | run (n : Nat)
  | resume
  | stepOver
  | stepOut
  | stepLines (n : Nat)
  | addBreakpoint (a : Word)
  | addBreakpointAtLine (l : SourceLocation)
  | addBreakpointAtFunction (name : String)
  | removeBreakpoint (id : Nat)
  | setBreakpointEnabled (id : Nat) (enabled : Bool)
  | addWatchpoint (w : Watch)
  | removeWatchpoint (id : Nat)
  | setWatchpointEnabled (id : Nat) (enabled : Bool)
  | requestStop
  | writeRegister (r : Register) (w : Word)
  | writeMemory (a : Word) (bytes : List Byte)
  | reset
  | enter (name : String)
deriving DecidableEq, Repr

namespace Command

/-- Whether the command is about a breakpoint or a watchpoint. -/
def setsPoints : Command → Bool
  | addBreakpoint _ | addBreakpointAtLine _ | addBreakpointAtFunction _ => true
  | removeBreakpoint _ | setBreakpointEnabled _ _ => true
  | addWatchpoint _ | removeWatchpoint _ | setWatchpointEnabled _ _ => true
  | _ => false

/-- Whether the command leaves the registers, the memory and the state of the machine alone, but
for what the program itself does to them. -/
def isPassive : Command → Bool
  | writeRegister _ _ | writeMemory _ _ | reset | enter _ => false
  | _ => true

end Command

namespace Session

/-- Asks the machine to stop at the next opportunity. -/
def requestStop (s : Session) : Session := { s with machine := s.machine.heed true }

/-- The session after a command that may be refused. -/
def orKept (s : Session) : Except SessionError Session → Session
  | .ok t => t
  | .error _ => s

/-- What a command that runs the machine comes to. -/
def ran : RunResult × Session → Option RunResult × Session
  | (r, s) => (some r, s)

/-- Carries out a command. -/
def perform (s : Session) : Command → Option RunResult × Session
  | .step n => ran (s.step n)
  | .run n => ran (s.run n)
  | .resume => ran s.resume
  | .stepOver => ran s.stepOver
  | .stepOut => ran s.stepOut
  | .stepLines n => ran (s.stepLines n)
  | .addBreakpoint a => (none, (s.addBreakpoint a).2)
  | .addBreakpointAtLine l => (none, s.orKept ((s.addBreakpointAtLine l).map (·.2)))
  | .addBreakpointAtFunction name =>
    (none, s.orKept ((s.addBreakpointAtFunction name).map (·.2)))
  | .removeBreakpoint id => (none, s.orKept ((s.removeBreakpoint id).map (·.2)))
  | .setBreakpointEnabled id enabled => (none, s.orKept (s.setBreakpointEnabled id enabled))
  | .addWatchpoint w => (none, (s.addWatchpoint w).2)
  | .removeWatchpoint id => (none, s.orKept ((s.removeWatchpoint id).map (·.2)))
  | .setWatchpointEnabled id enabled => (none, s.orKept (s.setWatchpointEnabled id enabled))
  | .requestStop => (none, s.requestStop)
  | .writeRegister r w => (none, s.writeRegister r w)
  | .writeMemory a bytes => (none, s.orKept (s.writeMemory a bytes))
  | .reset => (none, s.reset)
  | .enter name => (none, s.orKept (s.enter name))

/-- Carries out commands one after the other. The results are those of the commands that run the
machine, in order. -/
def performAll (s : Session) : List Command → List RunResult × Session
  | [] => ([], s)
  | c :: cs =>
    let (r, s) := s.perform c
    let (rs, s) := performAll s cs
    (r.toList ++ rs, s)

end Session
end WordMachine
