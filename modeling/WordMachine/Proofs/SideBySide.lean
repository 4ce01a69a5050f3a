import WordMachine.Proofs.CountedPoints
import WordMachine.Proofs.RelatedRuns
import WordMachine.Proofs.Watchpoints

/-!
# WordMachine.Proofs.SideBySide

Two sessions of which one has a past: its points have counted stops before, and it has told events
before. Where the observer asks for nothing, this past is all in which the sessions ever differ
(`Session.Recalls`). The hooks of the two match (`Tracker.hooks_recalls`), so the sessions stay side
by side in every run, and so in every command (`Session.Recalls.perform`).
-/

namespace WordMachine

/-- What a session brings along from before: the stops that its points had counted, by their
numbers, and the events that it had told. -/
structure Past where
  breakpoints : Nat → Nat
  watchpoints : Nat → Nat
  events : List Event

/-- No count from before is for a number that is still to be given. -/
structure Past.Fits (past : Past) (t : Tracker) : Prop where
  breakpoints : ∀ id, t.breakpoints.nextId ≤ id → past.breakpoints id = 0
  watchpoints : ∀ id, t.watchpoints.nextId ≤ id → past.watchpoints id = 0

namespace Event

/-- The event as it is told by points that have counted before. -/
def withPast (past : Past) : Event → Event
  | breakpoint b pc => breakpoint (b.withHits past.breakpoints) pc
  | watchpoint w x => watchpoint (w.withHits past.watchpoints) x
  | e => e

end Event

namespace Tracker

variable {past : Past} {t u : Tracker} {d : Option DebugInfo} {g : Goal}

/-- The tracker with what comes from before. -/
def withPast (past : Past) (t : Tracker) : Tracker where
  breakpoints := t.breakpoints.withHits past.breakpoints
  watchpoints := t.watchpoints.withHits past.watchpoints
  calls := t.calls
  skip := t.skip
  location := t.location
  events := t.events.map (·.withPast past) ++ past.events

/-- A tracker is another one with what comes from before. -/
structure Recalls (past : Past) (t u : Tracker) : Prop where
  eq : u = t.withPast past
  fits : past.Fits t

theorem Recalls.of_nextId {t' : Tracker} (h : Recalls past t u)
    (hb : t'.breakpoints.nextId = t.breakpoints.nextId)
    (hw : t'.watchpoints.nextId = t.watchpoints.nextId) : Recalls past t' (t'.withPast past) :=
  ⟨rfl, by rw [hb]; exact h.fits.breakpoints, by rw [hw]; exact h.fits.watchpoints⟩

theorem before_recalls (pc : Word) (h : Recalls past t u) :
    (before Observer.quiet t pc).Same (Recalls past) (before Observer.quiet u pc) := by
  obtain rfl := h.eq
  by_cases hskip : t.skip = some pc
  · have hskip' : (t.withPast past).skip = some pc := hskip
    simp only [before, hskip, hskip', if_true]
    exact ⟨h.of_nextId rfl rfl, rfl, rfl⟩
  · have hskip' : (t.withPast past).skip ≠ some pc := hskip
    have hhit : (t.withPast past).breakpoints.hit? (· = pc) =
        (t.breakpoints.hit? (· = pc)).map
          (Prod.map (·.withHits past.breakpoints) (·.withHits past.breakpoints)) :=
      PointTable.hit?_withHits
    rcases hb : t.breakpoints.hit? (· = pc) with _ | ⟨b, breakpoints⟩
    · simp only [before, hskip, hskip', if_false, hhit, hb, Option.map_none]
      exact ⟨h.of_nextId rfl rfl, rfl, rfl⟩
    · simp only [before, hskip, hskip', if_false, hhit, hb, Option.map_some]
      exact ⟨h.of_nextId (PointTable.nextId_of_hit? hb) rfl, rfl, rfl⟩

theorem arrive_recalls (pc : Word) (h : Recalls past t u) :
    (t.arrive Observer.quiet d g pc).Same (Recalls past) (u.arrive Observer.quiet d g pc) := by
  obtain rfl := h.eq
  rcases hl : d.bind (·.exactLocation? pc) with _ | l
  · simp only [arrive, hl]
    exact ⟨h, rfl, rfl⟩
  · by_cases hlocation : t.location = some l
    · have hlocation' : (t.withPast past).location = some l := hlocation
      simp only [arrive, hl, moveTo, hlocation, hlocation', if_true]
      exact ⟨h, rfl, rfl⟩
    · have hlocation' : (t.withPast past).location ≠ some l := hlocation
      simp only [arrive, hl, moveTo, hlocation, hlocation', if_false]
      exact ⟨h.of_nextId rfl rfl, rfl, rfl⟩

theorem watched?_withPast (past : Past) (x : Option Access) :
    (t.withPast past).watched? x =
      (t.watched? x).map (Prod.map id
        (Prod.map (·.withHits past.watchpoints) (·.withHits past.watchpoints))) := by
  rcases x with _ | x
  · rfl
  · have hhit : (t.withPast past).watchpoints.hit? (fun w => decide (w.Applies x)) =
        (t.watchpoints.hit? fun w => decide (w.Applies x)).map
          (Prod.map (·.withHits past.watchpoints) (·.withHits past.watchpoints)) :=
      PointTable.hit?_withHits
    rcases hw : t.watchpoints.hit? (fun w => decide (w.Applies x)) with _ | ⟨w, watchpoints⟩ <;>
      simp [watched?, hhit, hw]

theorem nextId_of_watched? {x : Option Access} {w : Point Watch} {watchpoints : PointTable Watch}
    {z : Access} (h : t.watched? x = some (z, w, watchpoints)) :
    watchpoints.nextId = t.watchpoints.nextId := by
  simp only [watched?, Option.bind_eq_bind, Option.bind_eq_some_iff, Option.pure_def,
    Option.some.injEq, Prod.mk.injEq] at h
  obtain ⟨x, -, ⟨w', watchpoints'⟩, hhit, -, rfl, rfl⟩ := h
  exact PointTable.nextId_of_hit? hhit

theorem after_recalls (r : StepReport) (h : Recalls past t u) :
    (after Observer.quiet d g t r).Same (Recalls past) (after Observer.quiet d g u r) := by
  obtain rfl := h.eq
  have hcalls : Recalls past { t with skip := none, calls := t.calls.observe r.pc r.transfer }
      { t.withPast past with
        skip := none, calls := (t.withPast past).calls.observe r.pc r.transfer } :=
    h.of_nextId rfl rfl
  have hwatched := watched?_withPast
    (t := { t with skip := none, calls := t.calls.observe r.pc r.transfer }) past r.access
  rcases hx : Tracker.watched? { t with skip := none, calls := t.calls.observe r.pc r.transfer }
    r.access with _ | ⟨x, w, watchpoints⟩
  · rw [hx] at hwatched
    have hwatched' : Tracker.watched? { t.withPast past with
        skip := none, calls := (t.withPast past).calls.observe r.pc r.transfer } r.access = none :=
      hwatched
    simp only [after, hx, hwatched']
    exact arrive_recalls r.nextPc hcalls
  · rw [hx] at hwatched
    have hwatched' : Tracker.watched? { t.withPast past with
        skip := none, calls := (t.withPast past).calls.observe r.pc r.transfer } r.access =
          some (x, w.withHits past.watchpoints, watchpoints.withHits past.watchpoints) := hwatched
    simp only [after, hx, hwatched']
    exact ⟨hcalls.of_nextId rfl (nextId_of_watched? hx), rfl, rfl⟩

theorem hooks_recalls :
    (hooks Observer.quiet d g).Matches (Recalls past) (hooks Observer.quiet d g) where
  before := before_recalls
  after := after_recalls
  lagging _ h := by
    obtain rfl := h.eq
    exact ⟨h.of_nextId rfl rfl, rfl, rfl⟩

end Tracker

namespace Session

variable {past : Past} {s t : Session} {b : Budget} {g : Goal} {r : RunResult} {c : Command}

/-- The session with what comes from before. -/
def withPast (past : Past) (s : Session) : Session :=
  { s with tracker := s.tracker.withPast past }

/-- A session is another one with what comes from before, and its observer asks for nothing. -/
structure Recalls (past : Past) (s t : Session) : Prop where
  eq : t = s.withPast past
  quiet : s.observer = Observer.quiet
  fits : past.Fits s.tracker

/-- No stop of the program or the machine is about a point. -/
theorem withPast_of_event? {stop : Stop} {lastPc pc : Word} {e : Event}
    (h : stop.event? lastPc pc = some e) : e.withPast past = e := by
  cases stop <;> cases h <;> rfl

theorem Recalls.conclude (h : Recalls past s t) (r : RunResult) :
    Recalls past (s.conclude r) (t.conclude r) := by
  obtain ⟨machine, tracker, observer, lineLimit⟩ := s
  obtain ⟨rfl, hquiet, hfits⟩ := h
  obtain rfl : observer = Observer.quiet := hquiet
  rcases hevent : r.stop.event? r.lastPc machine.registers.pc with _ | e
  · simp only [Session.conclude, pc, withPast, hevent]
    exact ⟨rfl, rfl, hfits.breakpoints, hfits.watchpoints⟩
  · simp only [Session.conclude, pc, withPast, hevent]
    refine ⟨?_, rfl, hfits.breakpoints, hfits.watchpoints⟩
    simp only [withPast, Tracker.notify, Tracker.withPast, List.map_cons, List.cons_append,
      withPast_of_event? hevent]
    rfl

theorem Recalls.drive (h : Recalls past s t) (b : Budget) (g : Goal) :
    (t.drive b g).1 = (s.drive b g).1 ∧ Recalls past (s.drive b g).2 (t.drive b g).2 := by
  obtain ⟨machine, tracker, observer, lineLimit⟩ := s
  obtain ⟨rfl, hquiet, hfits⟩ := h
  obtain rfl : observer = Observer.quiet := hquiet
  obtain ⟨hresult, hmachine, htracker⟩ := Machine.runWith_same (m := machine)
    (Tracker.hooks_recalls (d := machine.program.debugInfo) (g := g)) ⟨rfl, hfits⟩ b
  simp only [Session.drive, withPast, debugInfo?]
  rw [hresult, hmachine]
  refine ⟨rfl, Recalls.conclude ⟨?_, rfl, htracker.fits⟩ _⟩
  simp only [withPast, htracker.eq]

theorem Recalls.stepLinesFrom {d : DebugInfo} :
    ∀ {n : Nat} {s t : Session} {total : RunResult}, Recalls past s t →
      (Session.stepLinesFrom d t total n).1 = (Session.stepLinesFrom d s total n).1 ∧
        Recalls past (Session.stepLinesFrom d s total n).2
          (Session.stepLinesFrom d t total n).2 := by
  intro n
  induction n with
  | zero => exact fun h => ⟨rfl, h⟩
  | succ n ih =>
    intro s t total h
    have hpc : t.pc = s.pc := by rw [h.eq]; rfl
    have hlimit : t.lineLimit = s.lineLimit := by rw [h.eq]; rfl
    obtain ⟨hresult, hnext⟩ := h.drive (.line s.lineLimit) (.line (d.locationAt? s.pc))
    simp only [Session.stepLinesFrom, hpc, hlimit, hresult]
    split
    · exact ih hnext
    · exact ⟨rfl, hnext⟩

end Session

/-! ## What commands return -/

/-- What a command returns. -/
inductive Response where
  | ran (r : RunResult)
  | added (id : Nat)
  | removedBreakpoint (b : Point Word)
  | removedWatchpoint (w : Point Watch)
  | refused (e : SessionError)
  | done
deriving DecidableEq, Repr

namespace Response

/-- The return of a command that may be refused. -/
def ofExcept : Except SessionError Response → Response
  | .ok x => x
  | .error e => refused e

/-- The return as it is of points that have counted before. -/
def withPast (past : Past) : Response → Response
  | removedBreakpoint b => removedBreakpoint (b.withHits past.breakpoints)
  | removedWatchpoint w => removedWatchpoint (w.withHits past.watchpoints)
  | x => x

end Response

namespace Session

variable {past : Past} {s t : Session} {c : Command}

/-- What a command returns to a session. -/
def response (s : Session) : Command → Response
  | .addBreakpoint a => .added (s.addBreakpoint a).1
  | .addBreakpointAtLine l => .ofExcept ((s.addBreakpointAtLine l).map fun x => .added x.1)
  | .addBreakpointAtFunction name =>
    .ofExcept ((s.addBreakpointAtFunction name).map fun x => .added x.1)
  | .removeBreakpoint id =>
    .ofExcept ((s.removeBreakpoint id).map fun x => .removedBreakpoint x.1)
  | .setBreakpointEnabled id enabled =>
    .ofExcept ((s.setBreakpointEnabled id enabled).map fun _ => .done)
  | .addWatchpoint w => .added (s.addWatchpoint w).1
  | .removeWatchpoint id =>
    .ofExcept ((s.removeWatchpoint id).map fun x => .removedWatchpoint x.1)
  | .setWatchpointEnabled id enabled =>
    .ofExcept ((s.setWatchpointEnabled id enabled).map fun _ => .done)
  | .writeMemory a bytes => .ofExcept ((s.writeMemory a bytes).map fun _ => .done)
  | .enter name => .ofExcept ((s.enter name).map fun _ => .done)
  | c => ((s.perform c).1.map Response.ran).getD .done

/-- What commands return that are carried out one after the other. -/
def responses (s : Session) : List Command → List Response
  | [] => []
  | c :: cs => s.response c :: (s.perform c).2.responses cs

/-- A command that runs the machine comes to the same in both sessions. -/
theorem Recalls.perform_of_runs (h : Recalls past s t) (hc : c.runs) :
    (t.perform c).1 = (s.perform c).1 ∧ Recalls past (s.perform c).2 (t.perform c).2 := by
  have hdrive : ∀ (b : Budget) (g : Goal), (ran (t.drive b g)).1 = (ran (s.drive b g)).1 ∧
      Recalls past (ran (s.drive b g)).2 (ran (t.drive b g)).2 := fun b g =>
    ⟨congrArg some (h.drive b g).1, (h.drive b g).2⟩
  have hcalls : t.tracker.calls = s.tracker.calls := by rw [h.eq]; rfl
  cases c with
  | step n => exact hdrive (.steps n) .none
  | run n => exact hdrive (.run n) .none
  | resume => exact hdrive (.run 0) .none
  | stepOver =>
    simp only [perform, stepOver, hcalls]
    exact hdrive (.run 0) (.atMost s.tracker.calls.depth)
  | stepOut =>
    simp only [perform, stepOut, hcalls]
    exact hdrive (.run 0) (.below s.tracker.calls.depth)
  | stepLines n =>
    have hinfo : t.debugInfo? = s.debugInfo? := by rw [h.eq]; rfl
    have hpc : t.pc = s.pc := by rw [h.eq]; rfl
    rcases hd : s.debugInfo? with _ | d
    · simp only [perform, stepLines, hinfo, hd]
      exact hdrive (.steps n) .none
    · simp only [perform, stepLines, hinfo, hd, hpc]
      exact ⟨congrArg some h.stepLinesFrom.1, h.stepLinesFrom.2⟩
  | _ => cases hc

/-- What a command does in a session with a past: it returns the same, but for the counts of
points, and leads to the same session with the same past. -/
structure SameCommand (past : Past) (s t : Session) (c : Command) : Prop where
  response : t.response c = (s.response c).withPast past
  next : Recalls past (s.perform c).2 (t.perform c).2

theorem Recalls.addBreakpoint (h : Recalls past s t) (a : Word) :
    (t.addBreakpoint a).1 = (s.addBreakpoint a).1 ∧
      Recalls past (s.addBreakpoint a).2 (t.addBreakpoint a).2 := by
  obtain ⟨rfl, hquiet, hfits⟩ := h
  have hinsert := PointTable.insert_withHits a (hfits.breakpoints _ (Nat.le_refl _))
  refine ⟨rfl, ?_, hquiet, fun id hid => ?_, hfits.watchpoints⟩
  · simp only [Session.addBreakpoint, withPast, Tracker.withPast, hinsert]
  · exact hfits.breakpoints id (Nat.le_of_succ_le hid)

theorem Recalls.addWatchpoint (h : Recalls past s t) (w : Watch) :
    (t.addWatchpoint w).1 = (s.addWatchpoint w).1 ∧
      Recalls past (s.addWatchpoint w).2 (t.addWatchpoint w).2 := by
  obtain ⟨rfl, hquiet, hfits⟩ := h
  have hinsert := PointTable.insert_withHits w (hfits.watchpoints _ (Nat.le_refl _))
  refine ⟨rfl, ?_, hquiet, hfits.breakpoints, fun id hid => ?_⟩
  · simp only [Session.addWatchpoint, withPast, Tracker.withPast, hinsert]
  · exact hfits.watchpoints id (Nat.le_of_succ_le hid)

theorem Recalls.addBreakpointAtLine (h : Recalls past s t) (l : SourceLocation) :
    SameCommand past s t (.addBreakpointAtLine l) := by
  have hinfo : t.debugInfo? = s.debugInfo? := by rw [h.eq]; rfl
  rcases ha : s.debugInfo?.bind (·.addressOfLine? l) with _ | a
  · refine ⟨?_, ?_⟩ <;> simp only [perform, response, Session.addBreakpointAtLine, hinfo, ha]
    · rfl
    · exact h
  · obtain ⟨hid, hnext⟩ := h.addBreakpoint a
    refine ⟨?_, ?_⟩ <;> simp only [perform, response, Session.addBreakpointAtLine, hinfo, ha]
    · exact congrArg Response.added hid
    · exact hnext

theorem Recalls.addBreakpointAtFunction (h : Recalls past s t) (name : String) :
    SameCommand past s t (.addBreakpointAtFunction name) := by
  have hprogram : t.machine.program = s.machine.program := by rw [h.eq]; rfl
  rcases ha : s.machine.program.functionAddress? name with _ | a
  · refine ⟨?_, ?_⟩ <;>
      simp only [perform, response, Session.addBreakpointAtFunction, hprogram, ha]
    · rfl
    · exact h
  · obtain ⟨hid, hnext⟩ := h.addBreakpoint a
    refine ⟨?_, ?_⟩ <;>
      simp only [perform, response, Session.addBreakpointAtFunction, hprogram, ha]
    · exact congrArg Response.added hid
    · exact hnext

theorem Recalls.removeBreakpoint (h : Recalls past s t) (id : Nat) :
    SameCommand past s t (.removeBreakpoint id) := by
  obtain ⟨rfl, hquiet, hfits⟩ := h
  have hget : (s.withPast past).tracker.breakpoints.get? id =
      (s.tracker.breakpoints.get? id).map (·.withHits past.breakpoints) :=
    PointTable.get?_withHits
  rcases hb : s.tracker.breakpoints.get? id with _ | b <;> rw [hb] at hget
  · refine ⟨?_, ?_⟩ <;> simp only [perform, response, Session.removeBreakpoint, hget, hb]
    · rfl
    · exact ⟨rfl, hquiet, hfits⟩
  · refine ⟨?_, ?_⟩ <;> simp only [perform, response, Session.removeBreakpoint, hget, hb]
    · rfl
    · refine ⟨?_, hquiet, hfits.breakpoints, hfits.watchpoints⟩
      simp only [withPast, Tracker.withPast, orKept, Except.map, Option.map,
        PointTable.erase_withHits]

theorem Recalls.removeWatchpoint (h : Recalls past s t) (id : Nat) :
    SameCommand past s t (.removeWatchpoint id) := by
  obtain ⟨rfl, hquiet, hfits⟩ := h
  have hget : (s.withPast past).tracker.watchpoints.get? id =
      (s.tracker.watchpoints.get? id).map (·.withHits past.watchpoints) :=
    PointTable.get?_withHits
  rcases hw : s.tracker.watchpoints.get? id with _ | w <;> rw [hw] at hget
  · refine ⟨?_, ?_⟩ <;> simp only [perform, response, Session.removeWatchpoint, hget, hw]
    · rfl
    · exact ⟨rfl, hquiet, hfits⟩
  · refine ⟨?_, ?_⟩ <;> simp only [perform, response, Session.removeWatchpoint, hget, hw]
    · rfl
    · refine ⟨?_, hquiet, hfits.breakpoints, hfits.watchpoints⟩
      simp only [withPast, Tracker.withPast, orKept, Except.map, Option.map,
        PointTable.erase_withHits]

theorem Recalls.setBreakpointEnabled (h : Recalls past s t) (id : Nat) (enabled : Bool) :
    SameCommand past s t (.setBreakpointEnabled id enabled) := by
  obtain ⟨rfl, hquiet, hfits⟩ := h
  have hget : (s.withPast past).tracker.breakpoints.get? id =
      (s.tracker.breakpoints.get? id).map (·.withHits past.breakpoints) :=
    PointTable.get?_withHits
  rcases hb : s.tracker.breakpoints.get? id with _ | b <;> rw [hb] at hget
  · refine ⟨?_, ?_⟩ <;> simp only [perform, response, Session.setBreakpointEnabled, hget, hb]
    · rfl
    · exact ⟨rfl, hquiet, hfits⟩
  · refine ⟨?_, ?_⟩ <;> simp only [perform, response, Session.setBreakpointEnabled, hget, hb]
    · rfl
    · refine ⟨?_, hquiet, hfits.breakpoints, hfits.watchpoints⟩
      simp only [withPast, Tracker.withPast, orKept, Option.map, PointTable.setEnabled_withHits]

theorem Recalls.setWatchpointEnabled (h : Recalls past s t) (id : Nat) (enabled : Bool) :
    SameCommand past s t (.setWatchpointEnabled id enabled) := by
  obtain ⟨rfl, hquiet, hfits⟩ := h
  have hget : (s.withPast past).tracker.watchpoints.get? id =
      (s.tracker.watchpoints.get? id).map (·.withHits past.watchpoints) :=
    PointTable.get?_withHits
  rcases hw : s.tracker.watchpoints.get? id with _ | w <;> rw [hw] at hget
  · refine ⟨?_, ?_⟩ <;> simp only [perform, response, Session.setWatchpointEnabled, hget, hw]
    · rfl
    · exact ⟨rfl, hquiet, hfits⟩
  · refine ⟨?_, ?_⟩ <;> simp only [perform, response, Session.setWatchpointEnabled, hget, hw]
    · rfl
    · refine ⟨?_, hquiet, hfits.breakpoints, hfits.watchpoints⟩
      simp only [withPast, Tracker.withPast, orKept, Option.map, PointTable.setEnabled_withHits]

/-- Commands on the machine alone do not look at points. -/
theorem Recalls.setMachine (h : Recalls past s t) (m : Machine) :
    Recalls past { s with machine := m } { t with machine := m } := by
  obtain ⟨rfl, hquiet, hfits⟩ := h
  exact ⟨rfl, hquiet, hfits⟩

theorem Recalls.restart (h : Recalls past s t) (m : Machine) :
    Recalls past { s with machine := m, tracker := s.tracker.restart }
      { t with machine := m, tracker := t.tracker.restart } := by
  obtain ⟨rfl, hquiet, hfits⟩ := h
  exact ⟨rfl, hquiet, hfits.breakpoints, hfits.watchpoints⟩

theorem Recalls.perform (h : Recalls past s t) (c : Command) : SameCommand past s t c := by
  have hmachine : t.machine = s.machine := by rw [h.eq]; rfl
  have hruns : c.runs → s.response c = ((s.perform c).1.map Response.ran).getD .done →
      t.response c = ((t.perform c).1.map Response.ran).getD .done → SameCommand past s t c := by
    intro hc hs ht
    obtain ⟨hresult, hnext⟩ := h.perform_of_runs hc
    refine ⟨?_, hnext⟩
    rw [ht, hs, hresult]
    cases (s.perform c).1 <;> rfl
  cases c with
  | step | run | resume | stepOver | stepOut | stepLines => exact hruns rfl rfl rfl
  | addBreakpoint a =>
    obtain ⟨hid, hnext⟩ := h.addBreakpoint a
    exact ⟨congrArg Response.added hid, hnext⟩
  | addWatchpoint w =>
    obtain ⟨hid, hnext⟩ := h.addWatchpoint w
    exact ⟨congrArg Response.added hid, hnext⟩
  | addBreakpointAtLine l => exact h.addBreakpointAtLine l
  | addBreakpointAtFunction name => exact h.addBreakpointAtFunction name
  | removeBreakpoint id => exact h.removeBreakpoint id
  | setBreakpointEnabled id enabled => exact h.setBreakpointEnabled id enabled
  | removeWatchpoint id => exact h.removeWatchpoint id
  | setWatchpointEnabled id enabled => exact h.setWatchpointEnabled id enabled
  | requestStop =>
    refine ⟨rfl, ?_⟩
    simp only [Session.perform, requestStop, hmachine]
    exact h.setMachine _
  | writeRegister r w =>
    refine ⟨rfl, ?_⟩
    simp only [Session.perform, writeRegister, hmachine]
    exact h.setMachine _
  | writeMemory a bytes =>
    rcases hm : s.machine.writeMemory a bytes with e | m
    · refine ⟨?_, ?_⟩ <;> simp only [Session.perform, response, writeMemory, hmachine, hm]
      · rfl
      · exact h
    · refine ⟨?_, ?_⟩ <;> simp only [Session.perform, response, writeMemory, hmachine, hm]
      · rfl
      · exact h.setMachine m
  | reset =>
    refine ⟨rfl, ?_⟩
    simp only [Session.perform, reset, hmachine]
    exact h.restart _
  | enter name =>
    rcases hm : s.machine.enter name with e | m
    · refine ⟨?_, ?_⟩ <;> simp only [Session.perform, response, enter, hmachine, hm]
      · rfl
      · exact h
    · refine ⟨?_, ?_⟩ <;> simp only [Session.perform, response, enter, hmachine, hm]
      · rfl
      · exact h.restart m

theorem Recalls.performAll : ∀ (cs : List Command) {s t : Session}, Recalls past s t →
    t.responses cs = (s.responses cs).map (·.withPast past) ∧
      Recalls past (s.performAll cs).2 (t.performAll cs).2 := by
  intro cs
  induction cs with
  | nil => exact fun h => ⟨rfl, h⟩
  | cons c cs ih =>
    intro s t h
    obtain ⟨hresponse, hnext⟩ := h.perform c
    obtain ⟨hresponses, hlast⟩ := ih hnext
    refine ⟨?_, hlast⟩
    rw [responses, responses, List.map_cons, hresponse, hresponses]

/-- The observer of a session stays. -/
theorem quiet_performAll (hquiet : s.observer = Observer.quiet) (cs : List Command) :
    (s.performAll cs).2.observer = Observer.quiet := by
  have hself : Recalls ⟨fun _ => 0, fun _ => 0, []⟩ s (s.withPast ⟨fun _ => 0, fun _ => 0, []⟩) :=
    ⟨rfl, hquiet, fun _ _ => rfl, fun _ _ => rfl⟩
  exact (Recalls.performAll cs hself).2.quiet

end Session

end WordMachine
