import WordMachine.Proofs.LineSteps
import WordMachine.Proofs.Telling

/-!
# WordMachine.Proofs.Events

The events of a command. Every event comes from one of three places: from the hooks before an
instruction, from the hooks after one, or from the end of the run. The first two tell of source
lines and of a point that stops the run (`Machine.Round.tells`), and the last one of any other stop
that has an event (`Session.conclude_tells`), so that a command tells of lines and then at most of
the one reason for which it stops (`Session.perform_announces`).
-/

namespace WordMachine

namespace Operation

theorem ofInstruction?_eq_halt {i : Instruction} :
    ofInstruction? i = some .halt ↔ i.opcode = .halt := by
  obtain ⟨op, xs⟩ := i
  cases op <;> simp [ofInstruction?, alu?, load?, store?, Option.bind_eq_some_iff]

end Operation

namespace Machine

variable {m m' : Machine} {r : StepReport}

/-- Whether the runs of a machine are not held back to a rate. -/
def Unthrottled (m : Machine) : Prop :=
  ∀ t, m.settings.throttle = some t → t.cyclesPerSecond = 0

/-- The opcode alone decides whether an instruction halts. -/
theorem halted_iff_of_step (hs : m.step = (.ok r, m')) (hready : m.state = .ready) :
    m'.state = .halted ↔ r.opcode = .halt := by
  obtain ⟨op, e, heffect, -, rfl, rfl⟩ := step_ok hs
  obtain ⟨w, i, o, e', -, -, hmeant, rfl, he', rfl⟩ := changes_of_nextEffect heffect
  rw [halted_retire_iff hready]
  constructor
  · intro h
    obtain rfl := Effect.eq_halt_of_halts he' h
    exact Operation.ofInstruction?_eq_halt.1 hmeant
  · intro h
    cases hmeant.symm.trans (Operation.ofInstruction?_eq_halt.2 h)
    cases he'
    rfl

theorem Ran.settings {σ : Type} {rs : List StepReport} {p p' : Progress σ}
    (h : Ran rs m p m' p') : m'.settings = m.settings := by
  obtain ⟨⟨n, hret, hleft⟩, -, -⟩ := h
  exact hleft.sameSetup.settings.trans hret.sameSetup.settings

theorem Unthrottled.heed (hm : m.Unthrottled) (b : Bool) : (m.heed b).Unthrottled := hm

theorem pace_of_unthrottled {σ : Type} {h : Hooks σ} {p : Progress σ} (hm : m.Unthrottled) :
    pace h m p = (none, m, p) := by
  have hlag : m.settings.throttle.bind (·.lag? p.steps p.cycles) = none := by
    rw [Option.bind_eq_none_iff]
    intro t ht
    simp [Throttle.lag?, hm t ht]
  simp only [pace, hlag]

end Machine

/-! ## Rounds -/

namespace Machine

variable {o : Observer} {d : Option DebugInfo} {g : Goal} {m m' : Machine}
  {p p' : Progress Tracker} {r : StepReport} {rs : List StepReport} {stop : Stop}
  {stop? : Option Stop} {e? : Option Event} {held : Prop}

/-- What the hooks tell where a round stops with the machine `m`: of the point that they stop for. -/
inductive Heard (m : Machine) : Option Stop → Option Event → Prop where
  | breakpoint {b : Point Word} :
      Heard m (some (.breakpoint b.id)) (some (.breakpoint b m.registers.pc))
  | watchpoint {w : Point Watch} {x : Access} :
      Heard m (some (.watchpoint w.id)) (some (.watchpoint w x))
  | nothing {stop? : Option Stop}
      (hnot : ∀ id, stop? ≠ some (.breakpoint id) ∧ stop? ≠ some (.watchpoint id)) :
      Heard m stop? none

theorem Heard.eq_none (h : Heard m none e?) : e? = none := by
  cases h
  rfl

theorem Settled.tells (hs : Settled (Tracker.hooks o d g) m p r stop? m' p')
    (hhalted : m.state = .halted ↔ r.opcode = .halt) (hheld : held ∨ m.Unthrottled) :
    ∃ es e?, Heard m' stop? e? ∧
      Tracker.Tells held (fun a => d.bind (·.exactLocation? a)) p.hooks [r] es e? p'.hooks := by
  cases hs with
  | halted hstate =>
    have hopcode := hhalted.1 hstate
    exact ⟨[], none, .nothing (by simp), .nil rfl rfl, by simp,
      .old (fun l h => h.1.1 hopcode) .nil, rfl⟩
  | returned hstate hnext =>
    exact ⟨[], none, .nothing (by simp), .nil rfl rfl, by simp,
      .old (fun l h => h.1.2.1 hnext) .nil, rfl⟩
  | @held a stop hstate hnext ha hstop =>
    subst ha
    rcases Tracker.tells_after (o := o) (d := d) (g := g) (t := p.hooks) held
      (fun hopcode => hstate (hhalted.2 hopcode)) hnext with
      ⟨w, x, hwatch, htells⟩ | ⟨hnot, es, htells⟩
    · cases hstop.symm.trans hwatch
      exact ⟨[], _, .watchpoint, htells⟩
    · refine ⟨es, none, .nothing fun id => ⟨fun hid => ?_, fun hid => ?_⟩, htells⟩
      · exact (Tracker.stop_after hstop).1 id (HookStop.toStop_eq_breakpoint.1 (Option.some.inj hid))
      · rw [HookStop.toStop_eq_watchpoint.1 (Option.some.inj hid)] at hstop
        exact hnot id hstop
  | paced hstate hnext ha hgo hpace =>
    subst ha
    rcases Tracker.tells_after (o := o) (d := d) (g := g) (t := p.hooks) held
      (fun hopcode => hstate (hhalted.2 hopcode)) hnext with
      ⟨w, x, hwatch, -⟩ | ⟨-, es, htells⟩
    · cases hgo.symm.trans hwatch
    · rcases hheld with hheld | hm
      · rcases pace_ends hpace with ⟨rfl, -, hsame⟩ | ⟨lag, hlagging, -, hsame⟩
        · rw [hsame]
          exact ⟨es, none, .nothing (by simp), htells⟩
        · rw [hsame]
          refine ⟨es ++ [.lagging lag], none, .nothing fun id => ?_,
            htells.trans (Tracker.tells_lagging hheld)⟩
          rw [hlagging]
          rcases hstop : (Tracker.lagging o (Tracker.after o d g p.hooks r).state lag).stop with
            _ | stop
          · simp [Tracker.hooks, hstop]
          · simp [Tracker.hooks, hstop, Tracker.stop_lagging hstop]
      · rw [pace_of_unthrottled (hm.heed _)] at hpace
        cases hpace
        exact ⟨es, none, .nothing (by simp), htells⟩

theorem Round.tells (hr : Round (Tracker.hooks o d g) m p rs stop? m' p')
    (hready : m.state = .ready) (hheld : held ∨ m.Unthrottled) :
    ∃ es e?, Heard m' stop? e? ∧
      Tracker.Tells held (fun a => d.bind (·.exactLocation? a)) p.hooks rs es e? p'.hooks := by
  have hbefore := Tracker.tells_before (o := o) (t := p.hooks) held
    (fun a => d.bind (·.exactLocation? a)) m.registers.pc
  cases hr with
  | interrupted _ => exact ⟨[], none, .nothing (by simp), .nothing rfl rfl rfl⟩
  | returned _ => exact ⟨[], none, .nothing (by simp), .nothing rfl rfl rfl⟩
  | held _ ha hstop =>
    subst ha
    rcases hbefore with ⟨hnone, -⟩ | ⟨b, hb, htells⟩
    · cases hstop.symm.trans hnone
    · cases hstop.symm.trans hb
      exact ⟨[], _, .breakpoint, htells⟩
  | faulted _ ha hgo _ =>
    subst ha
    rcases hbefore with ⟨-, htells⟩ | ⟨b, hb, -⟩
    · exact ⟨[], none, .nothing (by simp), htells⟩
    · cases hgo.symm.trans hb
  | retired _ ha hgo hstep hsettled =>
    subst ha
    rcases hbefore with ⟨-, htells⟩ | ⟨b, hb, -⟩
    · obtain ⟨_, _, -, -, -, rfl⟩ := step_ok hstep
      obtain ⟨es, e?, hheard, hrest⟩ := hsettled.tells (halted_iff_of_step hstep hready) hheld
      exact ⟨es, e?, hheard, htells.trans hrest⟩
    · cases hgo.symm.trans hb

theorem Advances.tells (ha : Advances (Tracker.hooks o d g) rs m p m' p')
    (hready : m.state = .ready) (hheld : held ∨ m.Unthrottled) :
    ∃ es, Tracker.Tells held (fun a => d.bind (·.exactLocation? a)) p.hooks rs es none p'.hooks := by
  induction ha with
  | nil => exact ⟨[], .nothing rfl rfl rfl⟩
  | cons hround _ ih =>
    obtain ⟨hran, hgoes⟩ := hround.ran hready
    obtain ⟨es, e?, hheard, htells⟩ := hround.tells hready hheld
    obtain rfl := hheard.eq_none
    obtain ⟨es', htells'⟩ := ih (hgoes rfl)
      (hheld.imp_right fun hm t ht => hm t (hran.settings ▸ ht))
    exact ⟨es ++ es', htells.trans htells'⟩

/-- Where a round stops at the end of the program, the machine does not run any more for the same
reason. -/
theorem Round.stopped? (hr : Round (Tracker.hooks o d g) m p rs (some stop) m' p') :
    (∃ stop', stop = HookStop.toStop stop') ∨ stop = .interrupted ∨ m'.stopped? = some stop := by
  cases hr with
  | interrupted _ => exact .inr (.inl rfl)
  | returned _ => exact .inr (.inr rfl)
  | @held a stop _ _ _ => exact .inl ⟨stop, rfl⟩
  | faulted _ _ _ hstep =>
    rw [step_error hstep]
    exact .inr (.inr rfl)
  | retired _ _ _ _ hsettled =>
    cases hsettled with
    | halted hstate => exact .inr (.inr (by rw [Machine.stopped?, hstate]))
    | returned _ _ => exact .inr (.inr rfl)
    | @held a stop _ _ _ _ => exact .inl ⟨stop, rfl⟩
    | paced _ _ _ _ hpace =>
      rcases pace_ends hpace with ⟨hnone, -⟩ | ⟨lag, hlagging, -⟩
      · cases hnone
      · obtain ⟨stop', -, rfl⟩ := Option.map_eq_some_iff.1 hlagging.symm
        exact .inl ⟨stop', rfl⟩

end Machine

/-! ## Commands that run the machine -/

namespace Session

open Machine

variable {s s₁ s' : Session} {b : Budget} {g : Goal} {r : RunResult} {rs rs' : List StepReport}
  {m₁ m' : Machine} {p₁ p' : Progress Tracker} {stop : Stop} {c : Command} {cs : List Command}
  {e? : Option Event} {es : List Event} {t : Tracker} {held : Prop}

/-- The source line that begins at an address. -/
def lineAt? (s : Session) (a : Word) : Option SourceLocation :=
  s.debugInfo?.bind (·.exactLocation? a)

/-- What an observer is told where a command ends with the session `s`, as far as it is not a source
line: of the reason for the stop, with what the result and the machine say of it. -/
inductive Announces (s : Session) (lastPc : Word) : Stop → Option Event → Prop where
  | breakpoint {b : Point Word} :
      Announces s lastPc (.breakpoint b.id) (some (.breakpoint b s.pc))
  | watchpoint {w : Point Watch} {x : Access} :
      Announces s lastPc (.watchpoint w.id) (some (.watchpoint w x))
  | terminated {value : Word} (hstate : s.machine.state = .terminated)
      (hvalue : value = s.machine.registers.get returnRegister) :
      Announces s lastPc (.terminated value) (some (.terminated value))
  | halted (hstate : s.machine.state = .halted) : Announces s lastPc .halted (some (.halted lastPc))
  | fault {f : Fault} (hstate : s.machine.state = .faulted f) :
      Announces s lastPc (.fault f) (some (.error f))
  | interrupted : Announces s lastPc .interrupted (some (.interrupted s.pc))
  | silent {stop : Stop}
      (hstop : stop = .stepComplete ∨ stop = .maxSteps ∨ stop = .stepLimit ∨ stop = .requested) :
      Announces s lastPc stop none

theorem Announces.eq_none {lastPc : Word} (h : s.Announces lastPc .stepComplete e?) :
    e? = none := by
  cases h
  rfl

theorem Announces.lines {lastPc : Word} (h : s.Announces lastPc stop e?) :
    Event.lines e?.toList = [] := by
  cases h <;> rfl

theorem Retired.lineAt? (h : Retired rs s s') : s'.lineAt? = s.lineAt? := by
  funext a
  rw [Session.lineAt?, Session.lineAt?, h.debugInfo]

/-- The end of a command that has no event of its own. -/
theorem conclude_of_event?_eq_none (h : r.stop.event? r.lastPc s.pc = none) :
    s.conclude r = { s with tracker := { s.tracker with skip := some s.pc } } := by
  simp only [conclude]
  split
  · rfl
  · rename_i hsome
    cases h.symm.trans hsome

theorem conclude_of_event?_eq_some {e : Event} (h : r.stop.event? r.lastPc s.pc = some e) :
    ∃ request, s.conclude r = { s with
      tracker := { s.tracker with skip := some s.pc, events := e :: s.tracker.events }
      machine := s.machine.heed request } := by
  simp only [conclude]
  split
  · rename_i hnone
    cases h.symm.trans hnone
  · rename_i hsome
    cases h.symm.trans hsome
    exact ⟨_, rfl⟩

/-- The hooks have told of a stop that has no event of its own, if it has one at all. -/
theorem announces_of_heard {lastPc : Word} (hheard : Heard s.machine (some stop) e?)
    (hevent : stop.event? lastPc s.pc = none) : s.Announces lastPc stop e? := by
  cases hheard with
  | breakpoint => exact .breakpoint
  | watchpoint => exact .watchpoint
  | nothing hnot =>
    cases stop with
    | breakpoint id => exact absurd rfl (hnot id).1
    | watchpoint id => exact absurd rfl (hnot id).2
    | stepComplete | maxSteps | stepLimit | requested => exact .silent (by simp)
    | terminated | halted | fault | interrupted => cases hevent

theorem announces_of_event {lastPc : Word} {e : Event}
    (hends : stop = .interrupted ∨ s.machine.stopped? = some stop)
    (hevent : stop.event? lastPc s.pc = some e) : s.Announces lastPc stop (some e) := by
  rcases hends with rfl | hstopped
  · cases hevent
    exact .interrupted
  · simp only [stopped?] at hstopped
    split at hstopped
    · cases hstopped
    all_goals
      rename_i hstate
      cases hstopped
      cases hevent
    · exact .halted hstate
    · exact .terminated hstate rfl
    · exact .fault hstate

/-- A stop that has an event of its own is none that the hooks tell of. -/
theorem eq_none_of_heard {lastPc pc : Word} {e : Event} {m : Machine}
    (hheard : Heard m (some stop) e?) (hevent : stop.event? lastPc pc = some e) : e? = none := by
  cases hheard with
  | breakpoint | watchpoint => cases hevent
  | nothing _ => rfl

theorem line?_of_event {lastPc pc : Word} {e : Event} (hevent : stop.event? lastPc pc = some e) :
    e.line? = none := by
  cases stop <;> cases hevent <;> rfl

/-- Ending a command tells of the reason for the stop, unless the hooks have told of it. -/
theorem conclude_tells (htells : Tracker.Tells held s₁.lineAt? t rs es e? s.tracker)
    (hheard : Heard s.machine (some r.stop) e?)
    (hends : ∀ e, r.stop.event? r.lastPc s.pc = some e →
      r.stop = .interrupted ∨ s.machine.stopped? = some r.stop) :
    ∃ e?, (s.conclude r).Announces r.lastPc r.stop e? ∧
      Tracker.Tells held s₁.lineAt? t rs es e? (s.conclude r).tracker := by
  rcases hevent : r.stop.event? r.lastPc s.pc with _ | e
  · rw [conclude_of_event?_eq_none hevent]
    have htold := htells.told
    exact ⟨e?, announces_of_heard hheard hevent, ⟨htold.events, htold.location, htold.changing⟩,
      htells.underway, htells.reports, htells.watchpoints⟩
  · obtain rfl := eq_none_of_heard hheard hevent
    obtain ⟨request, hconclude⟩ := conclude_of_event?_eq_some hevent
    rw [hconclude]
    exact ⟨some e, announces_of_event (hends e hevent) hevent,
      htells.concluded (line?_of_event hevent) rfl rfl rfl⟩

theorem RunsTo.tells (h : RunsTo s b g rs m₁ p₁ stop rs' m' p')
    (hready : s.machine.state = .ready) (hb : b.Plain) (hheld : held ∨ s.machine.Unthrottled) :
    ∃ es e?, Heard m' (some stop) e? ∧
      Tracker.Tells held s.lineAt? s.tracker (rs ++ rs') es e? p'.hooks := by
  obtain ⟨es, htells⟩ := h.advances.tells hready hheld
  obtain ⟨hran, hready'⟩ := h.advances.ran hready
  rcases h.ends with ⟨rfl, rfl, -, rfl⟩ | hround
  · rw [List.append_nil]
    refine ⟨es, none, .nothing fun id => ?_, htells⟩
    rcases hb with hb | hb | hb <;> simp [hb]
  · obtain ⟨es', e?, hheard, htells'⟩ := hround.tells hready'
      (hheld.imp_right fun hm t ht => hm t (hran.settings ▸ ht))
    exact ⟨es ++ es', e?, hheard, htells.trans htells'⟩

/-- A run that ends with an event of its own has been interrupted, or the machine has stopped. -/
theorem RunsTo.stopped? {lastPc pc : Word} {e : Event}
    (h : RunsTo s b g rs m₁ p₁ stop rs' m' p') (hb : b.Plain)
    (hevent : stop.event? lastPc pc = some e) :
    stop = .interrupted ∨ m'.stopped? = some stop := by
  rcases h.ends with ⟨-, rfl, -, -⟩ | hround
  · rcases hb with hb | hb | hb <;> rw [hb] at hevent <;> cases hevent
  · rcases hround.stopped? with ⟨stop', rfl⟩ | hstop
    · cases stop' <;> cases hevent
    · exact hstop

theorem drive_tells (hb : b.Plain) (hheld : held ∨ s.machine.Unthrottled)
    (hd : s.drive b g = (r, s')) :
    ∃ rs es e?, Retired rs s s' ∧ r.steps = rs.length ∧ s'.Announces r.lastPc r.stop e? ∧
      Tracker.Tells held s.lineAt? s.tracker rs es e? s'.tracker := by
  rcases drive_ends hd with ⟨stop, hstopped, rfl, rfl⟩ |
    ⟨hready, rs, m₁, p₁, stop, rs', m', p', hruns, rfl, rfl⟩
  · obtain ⟨-, hnot⟩ := stop_of_stopped hstopped
    have hnothing : Tracker.Tells held s.lineAt? s.tracker [] [] none s.tracker :=
      .nothing rfl rfl rfl
    obtain ⟨e?, hannounces, htells⟩ := conclude_tells (r := { stop, lastPc := s.pc }) hnothing
      (.nothing fun id => by simpa using hnot id) (fun _ _ => .inr hstopped)
    exact ⟨[], [], e?, ⟨_, .nil, leftAs_conclude (leftAs_unrequested _)⟩, rfl, hannounces, htells⟩
  · obtain ⟨⟨n, hret, hleft⟩, hsteps⟩ := hruns.ran hready
    obtain ⟨es, e?, hheard, htells⟩ := hruns.tells hready hb hheld
    obtain ⟨e?, hannounces, htells⟩ := conclude_tells
      (s := { s with machine := m', tracker := p'.hooks }) (r := p'.result stop) htells hheard
      (fun _ => hruns.stopped? hb)
    exact ⟨rs ++ rs', es, e?, ⟨n, hret, leftAs_conclude hleft⟩, hsteps, hannounces, htells⟩

theorem stepLinesFrom_tells {d : DebugInfo} :
    ∀ {n : Nat} {s : Session} {total : RunResult}, held ∨ s.machine.Unthrottled →
      total.stop = .stepComplete → stepLinesFrom d s total n = (r, s') →
        ∃ rs es e?, Retired rs s s' ∧ r.steps = total.steps + rs.length ∧
          s'.Announces r.lastPc r.stop e? ∧
            Tracker.Tells held s.lineAt? s.tracker rs es e? s'.tracker := by
  -- A line that is done has told of no stop, so that the next one may tell of more lines.
  intro n
  induction n with
  | zero =>
    intro s total _ htotal hs
    cases hs
    exact ⟨[], [], none, .nil rfl, rfl, .silent (.inl htotal), .nothing rfl rfl rfl⟩
  | succ n ih =>
    intro s total hheld _ hs
    rcases hd : s.drive (.line s.lineLimit) (.line (d.locationAt? s.pc)) with ⟨r₁, s₁⟩
    obtain ⟨rs₁, es₁, e₁?, hretired₁, hsteps₁, hannounces₁, htells₁⟩ :=
      drive_tells (Budget.plain_line _) hheld hd
    simp only [stepLinesFrom, hd] at hs
    split at hs
    · rename_i hcomplete
      have htotal : (total.followedBy r₁).stop = .stepComplete := hcomplete
      rw [hcomplete] at hannounces₁
      obtain rfl := hannounces₁.eq_none
      obtain ⟨rs, es, e?, hretired, hsteps, hannounces, htells⟩ :=
        ih (hheld.imp_right fun hm t ht => hm t (hretired₁.sameSetup.settings ▸ ht)) htotal hs
      rw [hretired₁.lineAt?] at htells
      refine ⟨rs₁ ++ rs, es₁ ++ es, e?, hretired₁.trans hretired, ?_, hannounces,
        htells₁.trans htells⟩
      rw [hsteps, RunResult.followedBy, hsteps₁, List.length_append, Nat.add_assoc]
    · cases hs
      exact ⟨rs₁, es₁, e₁?, hretired₁, by rw [RunResult.followedBy, hsteps₁], hannounces₁, htells₁⟩

theorem tells_of_runs (held : Prop) (hc : c.runs) (hheld : held ∨ s.machine.Unthrottled) :
    ∃ r s' rs es e?, s.perform c = (some r, s') ∧ Retired rs s s' ∧ r.steps = rs.length ∧
      s'.Announces r.lastPc r.stop e? ∧
        Tracker.Tells held s.lineAt? s.tracker rs es e? s'.tracker := by
  rcases perform_of_runs (s := s) hc with ⟨b, g, hb, hperform⟩ | ⟨d, n, -, hperform⟩
  · rcases hd : s.drive b g with ⟨r, s'⟩
    obtain ⟨rs, es, e?, htells⟩ := drive_tells hb hheld hd
    exact ⟨r, s', rs, es, e?, by rw [hperform, hd, ran], htells⟩
  · rcases hs : stepLinesFrom d s { stop := .stepComplete, lastPc := s.pc } n with ⟨r, s'⟩
    obtain ⟨rs, es, e?, hretired, hsteps, htells⟩ := stepLinesFrom_tells hheld rfl hs
    rw [Nat.zero_add] at hsteps
    exact ⟨r, s', rs, es, e?, by rw [hperform, hs, ran], hretired, hsteps, htells⟩

end Session

/-! ## All commands -/

namespace Command

/-- Whether the command begins anew: with the program, or with one of its functions. -/
def restarts : Command → Bool
  | reset | enter _ => true
  | _ => false

end Command

namespace Session

variable {s : Session} {c : Command} {cs : List Command}

/-- A command on points tells nothing. -/
theorem told_of_setsPoints (hc : c.setsPoints) :
    Tracker.Told s.tracker [] (s.perform c).2.tracker := by
  cases c with
  | addBreakpoint a => exact .nil rfl rfl
  | addBreakpointAtLine l =>
    simp only [perform, addBreakpointAtLine]
    split <;> exact .nil rfl rfl
  | addBreakpointAtFunction name =>
    simp only [perform, addBreakpointAtFunction]
    split <;> exact .nil rfl rfl
  | removeBreakpoint id =>
    simp only [perform, removeBreakpoint]
    split <;> exact .nil rfl rfl
  | setBreakpointEnabled id enabled =>
    simp only [perform, setBreakpointEnabled]
    split <;> exact .nil rfl rfl
  | addWatchpoint w => exact .nil rfl rfl
  | removeWatchpoint id =>
    simp only [perform, removeWatchpoint]
    split <;> exact .nil rfl rfl
  | setWatchpointEnabled id enabled =>
    simp only [perform, setWatchpointEnabled]
    split <;> exact .nil rfl rfl
  | _ => cases hc

/-- A command that does not begin anew tells of no line twice in a row. -/
theorem exists_told (hc : ¬ c.restarts) : ∃ es, Tracker.Told s.tracker es (s.perform c).2.tracker := by
  by_cases hruns : c.runs
  · obtain ⟨r, s', rs, es, e?, hperform, -, -, -, htells⟩ :=
      tells_of_runs (s := s) True hruns (.inl trivial)
    rw [hperform]
    exact ⟨_, htells.told⟩
  · refine ⟨[], ?_⟩
    by_cases hpoints : c.setsPoints
    · exact told_of_setsPoints hpoints
    · cases c with
      | requestStop => exact .nil rfl rfl
      | writeRegister r w => exact .nil rfl rfl
      | writeMemory a bytes =>
        simp only [perform, writeMemory]
        cases s.machine.writeMemory a bytes <;> exact .nil rfl rfl
      | reset | enter => exact absurd rfl hc
      | step | run | resume | stepOver | stepOut | stepLines => exact absurd rfl hruns
      | _ => exact absurd rfl hpoints

theorem exists_told_performAll (s : Session) : ∀ (cs : List Command), (∀ c ∈ cs, ¬ c.restarts) →
    ∃ es, Tracker.Told s.tracker es (s.performAll cs).2.tracker := by
  intro cs
  induction cs generalizing s with
  | nil => exact fun _ => ⟨[], .nil rfl rfl⟩
  | cons c cs ih =>
    intro hcs
    rw [List.forall_mem_cons] at hcs
    obtain ⟨es, htold⟩ := exists_told (s := s) hcs.1
    obtain ⟨es', htold'⟩ := ih (s.perform c).2 hcs.2
    exact ⟨es ++ es', htold.trans htold'⟩

/-- **A run announces why it stops.** Where a session is not held back to a rate, a command that
runs the machine tells the observer of source lines and then, if the reason for its stop has an
event, of that event, with what the result and the machine say of it. Between two restarts, no
source line is told of twice in a row. -/
theorem perform_announces (s : Session) (hs : s.machine.Unthrottled) :
    (∀ c : Command, c.runs → ∃ (r : RunResult) (s' : Session) (ls : List SourceLocation)
      (e? : Option Event), s.perform c = (some r, s') ∧
        s'.tracker.events = (ls.map Event.location ++ e?.toList).reverse ++ s.tracker.events ∧
          s'.Announces r.lastPc r.stop e?) ∧
      ∀ cs : List Command, (∀ c ∈ cs, ¬ c.restarts) → ∃ es,
        (s.performAll cs).2.tracker.events = es.reverse ++ s.tracker.events ∧
          (Event.lines es).IsChain (· ≠ ·) := by
  constructor
  · intro c hc
    obtain ⟨r, s', rs, es, e?, hperform, -, -, hannounces, htells⟩ :=
      tells_of_runs (s := s) False hc (.inr hs)
    refine ⟨r, s', Event.lines es, e?, hperform, ?_, hannounces⟩
    rw [← Event.eq_map_lines htells.underway]
    exact htells.told.events
  · intro cs hcs
    obtain ⟨es, htold⟩ := exists_told_performAll s cs hcs
    exact ⟨es, htold.events, (List.isChain_append.1 htold.changing).2.1⟩

/-- The program of two lines runs into its end: the second line is told of, and then the halt. -/
theorem perform_announces_adder : ∃ m r s' ls e?,
    Machine.load adderByLines .standard { stackSize := 8 } = .ok m ∧ m.Unthrottled ∧
      ({ machine := m } : Session).perform .resume = (some r, s') ∧ r.stop = .halted ∧
      s'.tracker.events = (List.map Event.location ls ++ Option.toList e?).reverse ++ [] ∧
      s'.Announces r.lastPc r.stop e? ∧
      s'.tracker.events = [.halted 0x1008, .location ⟨"adder.c", 2⟩] := by
  obtain ⟨m, hload, hthrottle, hstop, hevents⟩ : ∃ m,
      Machine.load adderByLines .standard { stackSize := 8 } = .ok m ∧
      m.settings.throttle = none ∧
      (({ machine := m } : Session).perform .resume).1.map RunResult.stop = some .halted ∧
      (({ machine := m } : Session).perform .resume).2.tracker.events =
        [.halted 0x1008, .location ⟨"adder.c", 2⟩] :=
    ⟨_, rfl, rfl, by decide +kernel, by decide +kernel⟩
  have hunthrottled : m.Unthrottled := fun t ht => by cases hthrottle.symm.trans ht
  obtain ⟨r, s', ls, e?, hperform, htold, hannounces⟩ :=
    (perform_announces { machine := m } hunthrottled).1 .resume rfl
  simp only [hperform, Option.map_some, Option.some.injEq] at hstop hevents
  exact ⟨m, r, s', ls, e?, hload, hunthrottled, hperform, hstop, htold, hannounces, hevents⟩

end Session
end WordMachine
