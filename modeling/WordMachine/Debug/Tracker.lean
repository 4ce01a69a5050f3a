import WordMachine.Debug.CallStack
import WordMachine.Debug.PointTable
import WordMachine.Debug.Watch
import WordMachine.Machine.Run

/-!
# WordMachine.Debug.Tracker

What a debugging session keeps of a run, and the hooks that keep it. Before an instruction the
hooks look for a breakpoint at its address; the address at which the last run ended is passed over
once, so that a run can get away from where it stopped. After an instruction they update the open
calls, look for a watchpoint on the data touched, report a change of source line, and compare with
the goal of the run.

An observer is told every event and may ask, when a line changes or a run lags, to stop.
-/

namespace WordMachine

inductive Event where
  | breakpoint (b : Point Word) (pc : Word)
  | watchpoint (w : Point Watch) (x : Access)
  | terminated (value : Word)
  | halted (pc : Word)
  | error (f : Fault)
  | interrupted (pc : Word)
  | lagging (cycles : Nat)
  | location (l : SourceLocation)
deriving DecidableEq, Repr

/-- What an observer asks for: that the run stop, or that the machine be requested to stop at the
next opportunity. -/
structure Reply where
  stop : Bool := false
  interrupt : Bool := false
deriving DecidableEq, Repr

namespace Reply

/-- Asks for nothing. -/
def silent : Reply := {}

end Reply

/-- The reply to the events so far, the latest first. -/
abbrev Observer := List Event → Reply

namespace Observer

/-- Asks for nothing. -/
def quiet : Observer := fun _ => Reply.silent

end Observer

/-- What a run is meant to reach. -/
inductive Goal where
  /-- Nothing but the end of its budget. -/
  | none
  /-- A source line other than the one it starts on. -/
  | line (start : Option SourceLocation)
  /-- No more open calls than these. -/
  | atMost (depth : Nat)
  /-- Fewer open calls than these. -/
  | below (depth : Nat)
deriving DecidableEq, Repr

namespace Goal

/-- Whether the goal is reached with these many open calls, at an address where a line begins or
none does. -/
def reached (g : Goal) (depth : Nat) (l : Option SourceLocation) : Bool :=
  match g with
  | none => false
  | line start => l.isSome && l ≠ start
  | atMost d => depth ≤ d
  | below d => depth < d

end Goal

structure Tracker where
  breakpoints : PointTable Word := .empty
  watchpoints : PointTable Watch := .empty
  calls : CallStack := []
  /-- The address at which no breakpoint counts before the next instruction. -/
  skip : Option Word := none
  /-- The source line reported last. -/
  location : Option SourceLocation := none
  /-- The events so far, the latest first. -/
  events : List Event := []

namespace Tracker

/-- Notes an event and lets the observer reply. -/
def notify (t : Tracker) (o : Observer) (e : Event) : Reply × Tracker :=
  let t := { t with events := e :: t.events }
  (o t.events, t)

/-- Forgets where the code was going; the points stay. -/
def restart (t : Tracker) : Tracker := { t with calls := [], skip := none, location := none }

/-- The breakpoint that stops a run before the instruction at an address. -/
def before (o : Observer) (t : Tracker) (pc : Word) : Answer Tracker :=
  let t' := { t with skip := none }
  if t.skip = some pc then { state := t' }
  else
    match t.breakpoints.hit? (· = pc) with
    | none => { state := t' }
    | some (b, breakpoints) =>
      let (reply, t') := { t' with breakpoints }.notify o (.breakpoint b pc)
      { state := t', stop := some (.breakpoint b.id), interrupt := reply.interrupt }

/-- Reports a source line unless it was the last one reported. -/
def moveTo (o : Observer) (t : Tracker) (l : SourceLocation) : Reply × Tracker :=
  if t.location = some l then (Reply.silent, t)
  else { t with location := some l }.notify o (.location l)

/-- The watchpoint that an access triggers. -/
def watched? (t : Tracker) (x : Option Access) :
    Option (Access × Point Watch × PointTable Watch) := do
  let x ← x
  let (w, watchpoints) ← t.watchpoints.hit? fun w => decide (w.Applies x)
  pure (x, w, watchpoints)

/-- What comes after an instruction that triggers no watchpoint. -/
def arrive (o : Observer) (d : Option DebugInfo) (g : Goal) (t : Tracker) (nextPc : Word) :
    Answer Tracker :=
  let l := d.bind (·.exactLocation? nextPc)
  let (reply, t) :=
    match l with
    | none => (Reply.silent, t)
    | some l => t.moveTo o l
  let stop : Option HookStop :=
    if reply.stop then some .requested
    else if g.reached t.calls.depth l then some .stepComplete
    else none
  { state := t, stop, interrupt := reply.interrupt }

/-- What an instruction comes to. -/
def after (o : Observer) (d : Option DebugInfo) (g : Goal) (t : Tracker) (r : StepReport) :
    Answer Tracker :=
  let t := { t with skip := none, calls := t.calls.observe r.pc r.transfer }
  match t.watched? r.access with
  | some (x, w, watchpoints) =>
    let (reply, t) := { t with watchpoints }.notify o (.watchpoint w x)
    { state := t, stop := some (.watchpoint w.id), interrupt := reply.interrupt }
  | none => t.arrive o d g r.nextPc

/-- Passes the notice of a lag on. -/
def lagging (o : Observer) (t : Tracker) (cycles : Nat) : Answer Tracker :=
  let (reply, t) := t.notify o (.lagging cycles)
  { state := t
    stop := if reply.stop then some .requested else none
    interrupt := reply.interrupt }

/-- The hooks of a run with a goal. -/
def hooks (o : Observer) (d : Option DebugInfo) (g : Goal) : Hooks Tracker where
  before := before o
  after := after o d g
  lagging := lagging o

end Tracker
end WordMachine
