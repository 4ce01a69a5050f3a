import WordMachine.Proofs.Events

/-!
# WordMachine.Proofs.LineEvents

Which source lines an observer is told of. The line that counts as reported last is known from the
commands and from what they told alone (`Session.reportedAfter`), and from there on a command tells
of one line for each instruction that comes to where another line begins
(`Session.perform_reports`). An instruction that triggers a watchpoint is passed over: the line that
it comes to is not told of (`Session.exists_line_untold`).
-/

namespace WordMachine
namespace Session

open Machine

variable {s : Session} {c : Command}

/-- What a command tells the observer, in order. -/
def told (s : Session) (c : Command) : List Event :=
  let events := (s.perform c).2.tracker.events
  (events.take (events.length - s.tracker.events.length)).reverse

/-- The source line that was reported last, once a command has been carried out; there is none after
a reset or entering a function. -/
def reportedAfter (s : Session) (last : Option SourceLocation) : Command → Option SourceLocation
  | .reset => none
  | .enter name => if (s.enter name).isOk then none else last
  | c => (Event.lines (s.told c)).getLast?.or last

/-- The source line that was reported last by some commands. -/
def reportedAfterAll (s : Session) (last : Option SourceLocation) :
    List Command → Option SourceLocation
  | [] => last
  | c :: cs => (s.perform c).2.reportedAfterAll (s.reportedAfter last c) cs

theorem told_eq {es : List Event} (h : Tracker.Told s.tracker es (s.perform c).2.tracker) :
    s.told c = es := by
  have hlength : (es.reverse ++ s.tracker.events).length - s.tracker.events.length =
      es.reverse.length := by
    rw [List.length_append, Nat.add_sub_cancel]
  rw [told, h.events, hlength, List.take_left, List.reverse_reverse]

/-- What a tracker takes for the line reported last is the line that was reported last. -/
theorem location_perform :
    (s.perform c).2.tracker.location = s.reportedAfter s.tracker.location c := by
  by_cases hc : c.restarts
  · cases c with
    | reset => rfl
    | enter name =>
      rcases hm : s.machine.enter name with e | m <;>
        simp only [perform, reportedAfter, enter, hm] <;> rfl
    | _ => cases hc
  · obtain ⟨es, htold⟩ := exists_told (s := s) hc
    have hreported : s.reportedAfter s.tracker.location c =
        (Event.lines (s.told c)).getLast?.or s.tracker.location := by
      cases c <;> first | rfl | exact absurd rfl hc
    rw [hreported, told_eq htold, htold.location]

theorem location_performAll (s : Session) : ∀ cs : List Command,
    (s.performAll cs).2.tracker.location = s.reportedAfterAll s.tracker.location cs := by
  intro cs
  induction cs generalizing s with
  | nil => rfl
  | cons c cs ih =>
    rw [reportedAfterAll, ← location_perform]
    exact ih (s.perform c).2

/-- **Every line that is reached is told of once.** Whatever commands have come before, a command
that runs the machine tells, for each instruction that it retires and in this order, of the source
line that begins where the instruction leads, if that is not the line reported last, and of no other
line. Left out are instructions that halt, that return to the sentinel or that trigger a
watchpoint. -/
theorem perform_reports (m : Machine) (o : Observer) (lineLimit : Nat) (cs : List Command)
    (hc : c.runs)
    (hs : (Session.performAll { machine := m, observer := o, lineLimit } cs).2 = s) :
    ∃ r s' rs, s.perform c = (some r, s') ∧ s.Retired rs s' ∧ r.steps = rs.length ∧
      s'.tracker.events = (s.told c).reverse ++ s.tracker.events ∧
      s.tracker.Reports s.lineAt?
        (Session.reportedAfterAll { machine := m, observer := o, lineLimit } none cs) rs
        (Event.lines (s.told c)) := by
  obtain ⟨r, s', rs, es, e?, hperform, hretired, hsteps, hannounces, htells⟩ :=
    tells_of_runs (s := s) True hc (.inl trivial)
  have htold : s.told c = es ++ e?.toList := told_eq (by rw [hperform]; exact htells.told)
  have hlocation : s.tracker.location =
      Session.reportedAfterAll { machine := m, observer := o, lineLimit } none cs := by
    rw [← hs, location_performAll]
  -- The event of the stop tells of no line.
  have hlines : Event.lines (s.told c) = Event.lines es := by
    rw [htold, Event.lines_append, hannounces.lines, List.append_nil]
  refine ⟨r, s', rs, hperform, hretired, hsteps, ?_, ?_⟩
  · rw [htold]
    exact htells.told.events
  · rw [← hlocation, hlines]
    exact htells.reports

/-- The line that was reported before a reset is told of again. -/
theorem perform_reports_again : ∃ m s r s' rs,
    Machine.load adderByLines .standard { stackSize := 8 } = .ok m ∧
      (Session.performAll { machine := m } [.step 1, .reset]).2 = s ∧
      s.perform .resume = (some r, s') ∧ s.Retired rs s' ∧ r.steps = rs.length ∧
      s'.tracker.events = (s.told .resume).reverse ++ s.tracker.events ∧
      s.tracker.Reports s.lineAt?
        (Session.reportedAfterAll { machine := m } none [.step 1, .reset]) rs
        (Event.lines (s.told .resume)) ∧
      r.steps = 3 ∧ Event.lines (s.told .resume) = [⟨"adder.c", 2⟩] := by
  obtain ⟨m, hload, hsteps, hlines⟩ : ∃ m,
      Machine.load adderByLines .standard { stackSize := 8 } = .ok m ∧
      ((Session.performAll { machine := m } [.step 1, .reset]).2.perform .resume).1.map
        RunResult.steps = some 3 ∧
      Event.lines ((Session.performAll { machine := m } [.step 1, .reset]).2.told .resume) =
        [⟨"adder.c", 2⟩] :=
    ⟨_, rfl, by decide +kernel, by decide +kernel⟩
  obtain ⟨r, s', rs, hperform, hretired, hlength, hevents, hreports⟩ :=
    perform_reports m Observer.quiet defaultLineLimit [.step 1, .reset] (c := .resume) rfl rfl
  simp only [hperform, Option.map_some, Option.some.injEq] at hsteps
  exact ⟨m, _, r, s', rs, hload, rfl, hperform, hretired, hlength, hevents, hreports, hsteps,
    hlines⟩

/-- A push and a halt on two source lines. -/
def pusherByLines : Program :=
  { pusher with
    debugInfo := some
      { lines := ⟨[(0x1000, ⟨"pusher.c", 1⟩), (0x1004, ⟨"pusher.c", 2⟩)], by decide⟩
        origin := 0x1000 } }

/-- Where the push triggers a watchpoint, the line that it comes to is not told of. -/
theorem exists_line_untold : ∃ m s r s' x,
    Machine.load pusherByLines .standard { stackSize := 8 } = .ok m ∧
      (Session.performAll { machine := m } [.addWatchpoint ⟨0x1008, 8, .write⟩]).2 = s ∧
      s.perform (.step 1) = (some r, s') ∧ s.Retired [x] s' ∧ x.opcode ≠ .halt ∧
      x.nextPc ≠ sentinel ∧ s.lineAt? x.nextPc = some ⟨"pusher.c", 2⟩ ∧
      Session.reportedAfterAll { machine := m } none [.addWatchpoint ⟨0x1008, 8, .write⟩] = none ∧
      Event.lines (s.told (.step 1)) = [] := by
  obtain ⟨m, s, hload, hset, hsteps, hstep, hline, hreported, hlines⟩ : ∃ m s,
      Machine.load pusherByLines .standard { stackSize := 8 } = .ok m ∧
      (Session.performAll { machine := m } [.addWatchpoint ⟨0x1008, 8, .write⟩]).2 = s ∧
      (s.perform (.step 1)).1.map RunResult.steps = some 1 ∧
      s.machine.unrequested.step.1.toOption.map (fun x => (x.opcode, x.nextPc)) =
        some (.push, 0x1004) ∧
      s.lineAt? 0x1004 = some ⟨"pusher.c", 2⟩ ∧
      Session.reportedAfterAll { machine := m } none [.addWatchpoint ⟨0x1008, 8, .write⟩] = none ∧
      Event.lines (s.told (.step 1)) = [] :=
    ⟨_, _, rfl, rfl, by decide +kernel, by decide +kernel, by decide +kernel, by decide +kernel,
      by decide +kernel⟩
  obtain ⟨r, s', rs, es, e?, hperform, hretired, hlength, -⟩ :=
    tells_of_runs (s := s) (c := .step 1) True rfl (.inl trivial)
  simp only [hperform, Option.map_some, Option.some.injEq] at hsteps
  rw [hsteps] at hlength
  obtain ⟨x, rfl⟩ := List.length_eq_one_iff.1 hlength.symm
  obtain ⟨hopcode, hnext⟩ : x.opcode = .push ∧ x.nextPc = 0x1004 := by
    obtain ⟨n, hret, -⟩ := hretired
    cases hret with
    | cons _ _ hx _ =>
      rw [hx] at hstep
      simpa [Except.toOption] using hstep
  refine ⟨m, s, r, s', x, hload, hset, hperform, hretired, ?_, ?_, ?_, hreported, hlines⟩
  · simp [hopcode]
  · rw [hnext]
    decide
  · rw [hnext]
    exact hline

end Session
end WordMachine
