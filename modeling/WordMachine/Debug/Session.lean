import WordMachine.Debug.Tracker
import WordMachine.Machine.Listing

/-!
# WordMachine.Debug.Session

A debugging session: a machine, what is kept of its runs, and the commands on both. Every command
that runs the machine is a single run with a goal (`Session.drive`), but for stepping by source
lines, which is one run for each line.
-/

namespace WordMachine

/-- Why a command is refused. -/
inductive SessionError where
  | unknownBreakpoint (id : Nat)
  | unknownWatchpoint (id : Nat)
  | unknownLocation (l : SourceLocation)
  | unknownFunction (name : String)
  | memory (t : Trap)
  | load (e : LoadError)
deriving DecidableEq, Repr

namespace SessionError

def message : SessionError → String
  | unknownBreakpoint id => s!"no breakpoint BreakpointId({id})"
  | unknownWatchpoint id => s!"no watchpoint WatchpointId({id})"
  | unknownLocation l => s!"no code at {l.describe}"
  | unknownFunction name => s!"unknown function `{name}`"
  | memory t => t.message
  | load e => e.message

end SessionError

/-- The greatest number of instructions that a step by one source line retires by default. -/
def defaultLineLimit : Nat := 10000

structure Session where
  machine : Machine
  tracker : Tracker := {}
  observer : Observer := Observer.quiet
  lineLimit : Nat := defaultLineLimit

namespace Stop

/-- The event that the end of a run is reported as, if hooks have not reported it already. -/
def event? (stop : Stop) (lastPc pc : Word) : Option Event :=
  match stop with
  | terminated value => some (.terminated value)
  | halted => some (.halted lastPc)
  | fault f => some (.error f)
  | interrupted => some (.interrupted pc)
  | _ => none

end Stop

namespace RunResult

/-- The results of two runs, one after the other, as that of one run. -/
def followedBy (r next : RunResult) : RunResult :=
  { next with
    steps := r.steps + next.steps
    cycles := r.cycles + next.cycles
    lagCycles := max r.lagCycles next.lagCycles }

end RunResult

namespace Session

/-- The debugging information of the program. -/
def debugInfo? (s : Session) : Option DebugInfo := s.machine.program.debugInfo

/-- The address of the instruction to come. -/
def pc (s : Session) : Word := s.machine.registers.pc

/-- Sets a breakpoint on an address. -/
def addBreakpoint (s : Session) (a : Word) : Nat × Session :=
  let (id, breakpoints) := s.tracker.breakpoints.insert a
  (id, { s with tracker := { s.tracker with breakpoints } })

/-- Sets a breakpoint on the first address of a source line. -/
def addBreakpointAtLine (s : Session) (l : SourceLocation) : Except SessionError (Nat × Session) :=
  match s.debugInfo?.bind (·.addressOfLine? l) with
  | some a => .ok (s.addBreakpoint a)
  | none => .error (.unknownLocation l)

/-- Sets a breakpoint on the entry of a function. -/
def addBreakpointAtFunction (s : Session) (name : String) : Except SessionError (Nat × Session) :=
  match s.machine.program.functionAddress? name with
  | some a => .ok (s.addBreakpoint a)
  | none => .error (.unknownFunction name)

/-- Takes a breakpoint away. -/
def removeBreakpoint (s : Session) (id : Nat) : Except SessionError (Point Word × Session) :=
  match s.tracker.breakpoints.get? id with
  | some b =>
    let breakpoints := s.tracker.breakpoints.erase id
    .ok (b, { s with tracker := { s.tracker with breakpoints } })
  | none => .error (.unknownBreakpoint id)

/-- Switches a breakpoint on or off. -/
def setBreakpointEnabled (s : Session) (id : Nat) (enabled : Bool) : Except SessionError Session :=
  match s.tracker.breakpoints.get? id with
  | some _ =>
    let breakpoints := s.tracker.breakpoints.setEnabled id enabled
    .ok { s with tracker := { s.tracker with breakpoints } }
  | none => .error (.unknownBreakpoint id)

/-- Sets a watchpoint. -/
def addWatchpoint (s : Session) (w : Watch) : Nat × Session :=
  let (id, watchpoints) := s.tracker.watchpoints.insert w
  (id, { s with tracker := { s.tracker with watchpoints } })

/-- Takes a watchpoint away. -/
def removeWatchpoint (s : Session) (id : Nat) : Except SessionError (Point Watch × Session) :=
  match s.tracker.watchpoints.get? id with
  | some w =>
    let watchpoints := s.tracker.watchpoints.erase id
    .ok (w, { s with tracker := { s.tracker with watchpoints } })
  | none => .error (.unknownWatchpoint id)

/-- Switches a watchpoint on or off. -/
def setWatchpointEnabled (s : Session) (id : Nat) (enabled : Bool) : Except SessionError Session :=
  match s.tracker.watchpoints.get? id with
  | some _ =>
    let watchpoints := s.tracker.watchpoints.setEnabled id enabled
    .ok { s with tracker := { s.tracker with watchpoints } }
  | none => .error (.unknownWatchpoint id)

/-- Reports the end of a run and lets the next run start past the address where this one ended. -/
def conclude (s : Session) (r : RunResult) : Session :=
  let s := { s with tracker := { s.tracker with skip := some s.pc } }
  match r.stop.event? r.lastPc s.pc with
  | none => s
  | some e =>
    let (reply, tracker) := s.tracker.notify s.observer e
    { s with tracker, machine := s.machine.heed reply.interrupt }

/-- Runs the machine on a budget towards a goal. -/
def drive (s : Session) (b : Budget) (g : Goal) : RunResult × Session :=
  let hooks := Tracker.hooks s.observer s.debugInfo? g
  let (r, machine, tracker) := s.machine.runWith b hooks s.tracker
  (r, { s with machine, tracker }.conclude r)

/-- Runs a number of instructions. -/
def step (s : Session) (n : Nat) : RunResult × Session := s.drive (.steps n) .none

/-- Runs at most `n` instructions, or without a limit if `n` is 0. -/
def run (s : Session) (n : Nat) : RunResult × Session := s.drive (.run n) .none

/-- Runs until something stops it. -/
def resume (s : Session) : RunResult × Session := s.run 0

/-- Runs an instruction, and all of the function that it calls. -/
def stepOver (s : Session) : RunResult × Session :=
  s.drive (.run 0) (.atMost s.tracker.calls.depth)

/-- Runs until the function has returned. -/
def stepOut (s : Session) : RunResult × Session :=
  s.drive (.run 0) (.below s.tracker.calls.depth)

/-- Runs from one source line to the next, as often as asked or until something else stops it. -/
def stepLinesFrom (d : DebugInfo) (s : Session) (total : RunResult) :
    (count : Nat) → RunResult × Session
  | 0 => (total, s)
  | n + 1 =>
    let (r, s) := s.drive (.line s.lineLimit) (.line (d.locationAt? s.pc))
    let total := total.followedBy r
    if r.stop = .stepComplete then stepLinesFrom d s total n else (total, s)

/-- Runs a number of source lines; instructions where there is no debugging information. -/
def stepLines (s : Session) (n : Nat) : RunResult × Session :=
  match s.debugInfo? with
  | none => s.step n
  | some d => stepLinesFrom d s { stop := .stepComplete, lastPc := s.pc } n

/-- Brings the machine back to where it was loaded. Points stay, with their counts. -/
def reset (s : Session) : Session :=
  { s with machine := s.machine.reset, tracker := s.tracker.restart }

/-- Makes the machine ready to run a function. -/
def enter (s : Session) (name : String) : Except SessionError Session := do
  let machine ← (s.machine.enter name).mapError .load
  pure { s with machine, tracker := s.tracker.restart }

/-- Writes a register. -/
def writeRegister (s : Session) (r : Register) (w : Word) : Session :=
  { s with machine := s.machine.writeRegister r w }

/-- The bytes at an address. -/
def readMemory (s : Session) (a : Word) (n : Nat) : Except SessionError (List Byte) :=
  (s.machine.memory.read a n).mapError .memory

/-- Writes memory. -/
def writeMemory (s : Session) (a : Word) (bytes : List Byte) : Except SessionError Session := do
  let machine ← (s.machine.writeMemory a bytes).mapError .memory
  pure { s with machine }

/-- Memory read as code, if there is room for so many rows. -/
def listing (s : Session) (a : Word) (count : Nat) : Option (List Listing.Row) :=
  Listing.rows s.machine.instructions s.machine.program s.machine.memory count a

/-- The functions that are running, the innermost first. -/
def callStack (s : Session) : List Frame :=
  s.tracker.calls.frames s.machine.program s.pc s.machine.registers.lr

/-- The source line that the instruction to come belongs to. -/
def currentLocation? (s : Session) : Option SourceLocation :=
  s.debugInfo?.bind (·.locationAt? s.pc)

/-- The text of a source line. -/
def sourceLine? (s : Session) (l : SourceLocation) : Option String :=
  s.debugInfo?.bind (·.sourceLine? l)

end Session
end WordMachine
