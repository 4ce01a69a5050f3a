import WordMachine.Proofs.Breakpoints
import WordMachine.Proofs.Execution

/-!
# WordMachine.Proofs.Watchpoints

A run stops right after an access that is watched. Only the last instruction that a run retires can
trigger a watchpoint, and then the run reports the lowest one that it triggers, whatever else it
comes to; but a return to the sentinel goes first. A run reports a watchpoint only then
(`Watches`). What one round does about watchpoints (`Machine.Round.watches`) carries over to rounds
in a row, to runs and to runs one after the other (`Watches.append`), and so to every command
(`Session.perform_watches`).
-/

namespace WordMachine

@[simp] theorem HookStop.toStop_eq_watchpoint {stop : HookStop} {id : Nat} :
    stop.toStop = .watchpoint id ↔ stop = .watchpoint id := by
  cases stop <;> simp [toStop]

theorem PointTable.IsLowest.catches {κ : Type} {t : PointTable κ} {applies : κ → Bool} {id : Nat}
    (h : t.IsLowest applies id) : t.Catches applies := by
  obtain ⟨⟨p, hp, -, henabled, hsite⟩, -⟩ := h
  exact ⟨p, hp, henabled, hsite⟩

namespace Tracker

variable {o : Observer} {d : Option DebugInfo} {g : Goal} {t t' : Tracker} {r : StepReport}
  {pc : Word} {id : Nat} {lag : Nat}

/-- Whether an instruction makes an access that an enabled watchpoint is set on. -/
def Triggers (t : Tracker) (r : StepReport) : Prop :=
  ∃ x, r.access = some x ∧ t.watchpoints.Catches fun w => decide (w.Applies x)

/-- Whether a watchpoint is the lowest of those that an instruction triggers. -/
def Trips (t : Tracker) (r : StepReport) (id : Nat) : Prop :=
  ∃ x, r.access = some x ∧ t.watchpoints.IsLowest (fun w => decide (w.Applies x)) id

theorem Trips.triggers (h : t.Trips r id) : t.Triggers r := by
  obtain ⟨x, hx, hlowest⟩ := h
  exact ⟨x, hx, hlowest.catches⟩

theorem Trips.congr (h : t.Trips r id)
    (hsame : t.watchpoints.settings = t'.watchpoints.settings) : t'.Trips r id := by
  obtain ⟨x, hx, hlowest⟩ := h
  exact ⟨x, hx, hlowest.congr hsame⟩

theorem Triggers.congr (h : t.Triggers r)
    (hsame : t.watchpoints.settings = t'.watchpoints.settings) : t'.Triggers r := by
  obtain ⟨x, hx, hcatches⟩ := h
  exact ⟨x, hx, hcatches.congr hsame⟩

/-! ## What the hooks do about watchpoints -/

theorem watched?_ends : (t.watched? r.access = none ∧ ¬ t.Triggers r) ∨
    ∃ x w watchpoints, t.watched? r.access = some (x, w, watchpoints) ∧ t.Trips r w.id ∧
      watchpoints.settings = t.watchpoints.settings := by
  rcases hx : r.access with _ | x
  · refine .inl ⟨rfl, ?_⟩
    rintro ⟨x, hx', -⟩
    cases hx.symm.trans hx'
  · rcases hhit : t.watchpoints.hit? (fun w => decide (w.Applies x)) with _ | ⟨w, watchpoints⟩
    · refine .inl ⟨by simp [watched?, hhit], ?_⟩
      rintro ⟨x', hx', hcatches⟩
      cases hx.symm.trans hx'
      exact PointTable.hit?_eq_none.1 hhit hcatches
    · exact .inr ⟨x, w, watchpoints, by simp [watched?, hhit],
        ⟨x, hx, PointTable.isLowest_of_hit? hhit⟩, PointTable.settings_of_hit? hhit⟩

theorem watchpoints_before (pc : Word) : (before o t pc).state.watchpoints = t.watchpoints := by
  simp only [before]
  split
  · rfl
  · split <;> rfl

theorem watchpoints_arrive : (t.arrive o d g pc).state.watchpoints = t.watchpoints := by
  simp only [arrive]
  split
  · rfl
  · simp only [moveTo]
    split <;> rfl

theorem stop_arrive_ne : (t.arrive o d g pc).stop ≠ some (.watchpoint id) := by
  intro h
  simp only [arrive, ite_eq_iff] at h
  rcases h with ⟨-, h⟩ | ⟨-, ⟨-, h⟩ | ⟨-, h⟩⟩ <;> cases h

/-- After an instruction the hooks stop for the watchpoint that it trips, if there is one, and for
no other. -/
theorem after_watches : (after o d g t r).state.watchpoints.settings = t.watchpoints.settings ∧
    (t.Triggers r → ∃ id, (after o d g t r).stop = some (.watchpoint id)) ∧
    ∀ id, (after o d g t r).stop = some (.watchpoint id) → t.Trips r id := by
  rcases watched?_ends (t := { t with skip := none, calls := t.calls.observe r.pc r.transfer })
    (r := r) with ⟨hnone, hnot⟩ | ⟨x, w, watchpoints, hsome, htrips, hsame⟩
  · simp only [after, hnone]
    rw [watchpoints_arrive]
    exact ⟨rfl, fun h => absurd h hnot, fun id h => absurd h stop_arrive_ne⟩
  · simp only [after, hsome]
    refine ⟨hsame, fun _ => ⟨w.id, rfl⟩, fun id h => ?_⟩
    cases h
    exact htrips

end Tracker

/-! ## Runs -/

/-- What a run does about the watchpoints that are set as in `t`: the instructions that it retires,
and why it stops, if it does. -/
structure Watches (t : Tracker) (rs : List StepReport) (stop? : Option Stop) : Prop where
  last : ∀ i x, rs[i]? = some x → t.Triggers x → i + 1 = rs.length ∧
    if x.nextPc = sentinel then ∃ v, stop? = some (.terminated v)
    else ∃ id, stop? = some (.watchpoint id) ∧ t.Trips x id
  only : ∀ id, stop? = some (.watchpoint id) →
    ∃ x, rs.getLast? = some x ∧ x.nextPc ≠ sentinel ∧ t.Trips x id

namespace Watches

variable {t t' : Tracker} {r : StepReport} {rs rs' : List StepReport} {stop? : Option Stop}

theorem nil (h : ∀ id, stop? ≠ some (.watchpoint id)) : Watches t [] stop? :=
  ⟨by simp, fun id hid => absurd hid (h id)⟩

theorem single (hlast : t.Triggers r → if r.nextPc = sentinel then
      ∃ v, stop? = some (.terminated v) else ∃ id, stop? = some (.watchpoint id) ∧ t.Trips r id)
    (honly : ∀ id, stop? = some (.watchpoint id) → r.nextPc ≠ sentinel ∧ t.Trips r id) :
    Watches t [r] stop? := by
  refine ⟨fun i x hx htriggers => ?_, fun id hid => ⟨r, rfl, honly id hid⟩⟩
  cases i with
  | zero =>
    cases hx
    exact ⟨rfl, hlast htriggers⟩
  | succ i => simp at hx

theorem quiet (hnot : ¬ t.Triggers r) (h : ∀ id, stop? ≠ some (.watchpoint id)) :
    Watches t [r] stop? :=
  single (fun htriggers => absurd htriggers hnot) (fun id hid => absurd hid (h id))

/-- Where a run ends otherwise than by a watchpoint or at the sentinel, nothing is triggered. -/
theorem not_triggers (h : Watches t rs stop?) (hterminated : ∀ v, stop? ≠ some (.terminated v))
    (hwatchpoint : ∀ id, stop? ≠ some (.watchpoint id)) : ∀ x ∈ rs, ¬ t.Triggers x := by
  intro x hx htriggers
  obtain ⟨i, hi⟩ := List.getElem?_of_mem hx
  have hstop := (h.last i x hi htriggers).2
  split at hstop
  · obtain ⟨v, hv⟩ := hstop
    exact hterminated v hv
  · obtain ⟨id, hid, -⟩ := hstop
    exact hwatchpoint id hid

theorem append (hnot : ∀ x ∈ rs, ¬ t.Triggers x) (h : Watches t rs' stop?) :
    Watches t (rs ++ rs') stop? := by
  refine ⟨fun i x hx htriggers => ?_, fun id hid => ?_⟩
  · rw [List.getElem?_append] at hx
    split at hx
    · exact absurd htriggers (hnot x (List.mem_of_getElem? hx))
    · rename_i hi
      obtain ⟨hlast, hstop⟩ := h.last _ x hx htriggers
      rw [List.length_append]
      exact ⟨by omega, hstop⟩
  · obtain ⟨x, hx, hx'⟩ := h.only id hid
    exact ⟨x, by rw [List.getLast?_append, hx, Option.some_or], hx'⟩

theorem congr (h : Watches t rs stop?)
    (hsame : t.watchpoints.settings = t'.watchpoints.settings) : Watches t' rs stop? := by
  refine ⟨fun i x hx htriggers => ?_, fun id hid => ?_⟩
  · obtain ⟨hlast, hstop⟩ := h.last i x hx (htriggers.congr hsame.symm)
    refine ⟨hlast, ?_⟩
    split at hstop
    · rename_i hnext
      rw [if_pos hnext]
      exact hstop
    · rename_i hnext
      obtain ⟨id, hid, htrips⟩ := hstop
      rw [if_neg hnext]
      exact ⟨id, hid, htrips.congr hsame⟩
  · obtain ⟨x, hx, hnext, htrips⟩ := h.only id hid
    exact ⟨x, hx, hnext, htrips.congr hsame⟩

end Watches

/-! ## Instructions that halt -/

namespace Effect

variable {e : Effect} {r : RegisterFile} {m : Memory} {op : Operation} {a : Word} {x : Register}

@[simp] theorem halts_writeRegister : (e.writeRegister x a).halts = e.halts := by
  unfold writeRegister
  split <;> rfl

theorem halts_callTo {pc : Word} : (e.callTo pc a).halts = e.halts := by
  simp [callTo]

theorem halts_of_writeMemory {width : Width} {value : Word} {e' : Effect}
    (h : e.writeMemory m a value width = .ok e') : e'.halts = e.halts := by
  simp only [writeMemory] at h
  split at h
  · cases h
    rfl
  · cases h

open Outcome in
/-- No operation halts but `halt`. -/
theorem eq_halt_of_halts (h : changes r m op = .ok e) (hhalts : e.halts = true) : op = .halt := by
  cases op with
  | halt => rfl
  | store source base offset width =>
    rw [halts_of_writeMemory h] at hhalts
    cases hhalts
  | push source =>
    simp only [changes, bind_ok_iff, pure_ok_iff] at h
    obtain ⟨e', he', rfl⟩ := h
    rw [halts_writeRegister, halts_of_writeMemory he'] at hhalts
    cases hhalts
  | alu op left right target =>
    simp only [changes, bind_ok_iff, pure_ok_iff] at h
    obtain ⟨_, -, rfl⟩ := h
    simp [advance] at hhalts
  | addImm left addend target =>
    simp only [changes, bind_ok_iff, pure_ok_iff] at h
    obtain ⟨_, -, rfl⟩ := h
    simp [advance] at hhalts
  | load base offset target width =>
    simp only [changes, bind_ok_iff, pure_ok_iff] at h
    obtain ⟨_, -, rfl⟩ := h
    simp [advance] at hhalts
  | pop target =>
    simp only [changes, bind_ok_iff, pure_ok_iff] at h
    obtain ⟨_, -, rfl⟩ := h
    simp [advance] at hhalts
  | jumpIf condition mask target =>
    cases h
    split at hhalts <;> cases hhalts
  | mov | movLow | movHigh =>
    cases h
    simp [advance] at hhalts
  | call | callTo =>
    cases h
    rw [halts_callTo] at hhalts
    cases hhalts
  | nop | jump | jumpTo =>
    cases h
    cases hhalts

/-- An operation that halts touches no data. -/
theorem access_of_halts (h : changes r m op = .ok e) (hhalts : e.halts = true) :
    e.access = none := by
  obtain rfl := eq_halt_of_halts h hhalts
  cases h
  rfl

end Effect

/-! ## Rounds -/

namespace Machine

theorem Retires.of_append {rs rs' : List StepReport} {n : Machine} :
    ∀ {m : Machine}, Retires (rs ++ rs') m n → ∃ m₁, Retires rs m m₁ ∧ Retires rs' m₁ n := by
  induction rs with
  | nil =>
    intro m h
    exact ⟨m, .nil, h⟩
  | cons r rs ih =>
    intro m h
    cases h with
    | cons hready hpc hstep hrest =>
      obtain ⟨m₁, hfirst, hrest'⟩ := ih hrest
      exact ⟨m₁, .cons hready hpc hstep hfirst, hrest'⟩

variable {o : Observer} {d : Option DebugInfo} {g : Goal} {m m' : Machine}
  {p p' : Progress Tracker} {r : StepReport} {rs : List StepReport} {stop : Stop}
  {stop? : Option Stop}

theorem halted_retire_iff {e : Effect} (hready : m.state = .ready) :
    (m.retire e).state = .halted ↔ e.halts = true := by
  cases hhalts : e.halts <;> simp [retire, hhalts, hready]

theorem access_of_step (hs : m.step = (.ok r, m')) (hready : m.state = .ready)
    (hhalted : m'.state = .halted) : r.access = none := by
  obtain ⟨op, e, heffect, -, rfl, rfl⟩ := step_ok hs
  have hhalts : e.halts = true := (halted_retire_iff hready).1 hhalted
  obtain ⟨w, i, o, e', -, -, -, -, he', rfl⟩ := changes_of_nextEffect heffect
  exact Effect.access_of_halts (e := e') he' hhalts

theorem Settled.watches (hs : Settled (Tracker.hooks o d g) m p r stop? m' p')
    (hquiet : m.state = .halted → r.access = none) :
    Watches p.hooks [r] stop? ∧
      p'.hooks.watchpoints.settings = p.hooks.watchpoints.settings := by
  obtain ⟨hsame, htriggered, htrips⟩ := Tracker.after_watches (o := o) (d := d) (g := g)
    (t := p.hooks) (r := r)
  cases hs with
  | halted hstate =>
    refine ⟨.quiet ?_ (by simp), rfl⟩
    rintro ⟨x, hx, -⟩
    cases (hquiet hstate).symm.trans hx
  | returned _ hnext =>
    refine ⟨.single (fun _ => ?_) (by simp), rfl⟩
    rw [if_pos hnext]
    exact ⟨_, rfl⟩
  | @held a stop _ hnext ha hstop =>
    subst ha
    refine ⟨.single (fun htriggers => ?_) (fun id hid => ⟨hnext, htrips id ?_⟩), hsame⟩
    · obtain ⟨id, hid⟩ := htriggered htriggers
      cases hstop.symm.trans hid
      rw [if_neg hnext]
      exact ⟨id, rfl, htrips id hid⟩
    · rw [Option.some.injEq, HookStop.toStop_eq_watchpoint] at hid
      rw [← hid]
      exact hstop
  | paced _ _ ha hgo hpace =>
    subst ha
    have hnot : ¬ p.hooks.Triggers r := fun htriggers => by
      obtain ⟨id, hid⟩ := htriggered htriggers
      cases hgo.symm.trans hid
    rcases pace_ends hpace with ⟨rfl, -, hkept⟩ | ⟨lag, hlagging, -, hkept⟩
    · exact ⟨.quiet hnot (by simp), by rw [hkept]; exact hsame⟩
    · refine ⟨.quiet hnot fun id hid => ?_, by rw [hkept]; exact hsame⟩
      obtain ⟨stop, hstop, hwatch⟩ := Option.map_eq_some_iff.1 (hlagging.symm.trans hid)
      cases (Tracker.stop_lagging hstop).symm.trans (HookStop.toStop_eq_watchpoint.1 hwatch)

theorem Round.watches (hr : Round (Tracker.hooks o d g) m p rs stop? m' p')
    (hready : m.state = .ready) :
    Watches p.hooks rs stop? ∧
      p'.hooks.watchpoints.settings = p.hooks.watchpoints.settings := by
  cases hr with
  | interrupted _ => exact ⟨.nil (by simp), rfl⟩
  | returned _ => exact ⟨.nil (by simp), rfl⟩
  | held _ ha hstop =>
    subst ha
    obtain ⟨id, rfl, -⟩ := Tracker.lowest_of_before hstop
    exact ⟨.nil (by simp [HookStop.toStop]), congrArg _ (Tracker.watchpoints_before _)⟩
  | faulted _ ha _ _ =>
    subst ha
    exact ⟨.nil (by simp), congrArg _ (Tracker.watchpoints_before _)⟩
  | retired _ ha _ hstep hsettled =>
    subst ha
    have hkept := congrArg PointTable.settings
      (Tracker.watchpoints_before (o := o) (t := p.hooks) m.registers.pc)
    obtain ⟨hwatches, hsame⟩ := hsettled.watches (access_of_step hstep hready)
    exact ⟨hwatches.congr hkept, hsame.trans hkept⟩

theorem Advances.not_triggers (ha : Advances (Tracker.hooks o d g) rs m p m' p')
    (hready : m.state = .ready) :
    (∀ x ∈ rs, ¬ p.hooks.Triggers x) ∧
      p'.hooks.watchpoints.settings = p.hooks.watchpoints.settings := by
  induction ha with
  | nil => exact ⟨by simp, rfl⟩
  | cons hround _ ih =>
    obtain ⟨hwatches, hsame⟩ := hround.watches hready
    obtain ⟨hrest, hsame'⟩ := ih ((hround.ran hready).2 rfl)
    have hfirst := hwatches.not_triggers (by simp) (by simp)
    refine ⟨?_, hsame'.trans hsame⟩
    rw [List.forall_mem_cons]
    exact ⟨hfirst _ List.mem_cons_self, fun x hx h => hrest x hx (h.congr hsame.symm)⟩

end Machine

/-! ## Commands that run the machine -/

namespace Session

open Machine

variable {s s' : Session} {b : Budget} {g : Goal} {r : RunResult} {rs rs' : List StepReport}
  {m₁ m' : Machine} {p₁ p' : Progress Tracker} {stop : Stop}

theorem RunsTo.watches (h : RunsTo s b g rs m₁ p₁ stop rs' m' p')
    (hready : s.machine.state = .ready) (hb : ∀ id, b.exhausted ≠ .watchpoint id) :
    Watches s.tracker (rs ++ rs') (some stop) ∧
      p'.hooks.watchpoints.settings = s.tracker.watchpoints.settings := by
  obtain ⟨hnot, hsame⟩ := h.advances.not_triggers hready
  rcases h.ends with ⟨rfl, rfl, -, rfl⟩ | hround
  · exact ⟨.append hnot (.nil (by simpa using hb)), hsame⟩
  · obtain ⟨hlast, hsame'⟩ := hround.watches (h.advances.ran hready).2
    exact ⟨.append hnot (hlast.congr hsame), hsame'.trans hsame⟩

theorem watchpoints_conclude :
    (s.conclude r).tracker.watchpoints = s.tracker.watchpoints := by
  simp only [conclude]
  split <;> rfl

theorem drive_watches (hb : ∀ id, b.exhausted ≠ .watchpoint id) (hd : s.drive b g = (r, s')) :
    ∃ rs, Retired rs s s' ∧ r.steps = rs.length ∧ Watches s.tracker rs (some r.stop) ∧
      s'.tracker.watchpoints.settings = s.tracker.watchpoints.settings := by
  rcases drive_ends hd with ⟨stop, hstopped, rfl, rfl⟩ |
    ⟨hready, rs, m₁, p₁, stop, rs', m', p', hruns, rfl, rfl⟩
  · refine ⟨[], ⟨_, .nil, leftAs_conclude (leftAs_unrequested _)⟩, rfl, .nil fun id hid => ?_, ?_⟩
    · exact ((stop_of_stopped hstopped).2 id).2 (Option.some.inj hid)
    · rw [watchpoints_conclude]
  · obtain ⟨⟨n, hret, hleft⟩, hsteps⟩ := hruns.ran hready
    obtain ⟨hwatches, hsame⟩ := hruns.watches hready hb
    refine ⟨rs ++ rs', ⟨n, hret, leftAs_conclude hleft⟩, hsteps, hwatches, ?_⟩
    rw [watchpoints_conclude]
    exact hsame

theorem stepLinesFrom_watches {d : DebugInfo} :
    ∀ {n : Nat} {s : Session} {total : RunResult}, (∀ id, total.stop ≠ .watchpoint id) →
      stepLinesFrom d s total n = (r, s') →
        ∃ rs, Retired rs s s' ∧ r.steps = total.steps + rs.length ∧
          Watches s.tracker rs (some r.stop) := by
  -- A line is done without a watchpoint, or it is the last one.
  intro n
  induction n with
  | zero =>
    intro s total htotal hs
    cases hs
    exact ⟨[], .nil rfl, rfl, .nil fun id hid => htotal id (Option.some.inj hid)⟩
  | succ n ih =>
    intro s total htotal hs
    rcases hd : s.drive (.line s.lineLimit) (.line (d.locationAt? s.pc)) with ⟨r₁, s₁⟩
    have hbudget : ∀ id, (Budget.line s.lineLimit).exhausted ≠ .watchpoint id := by
      simp [Budget.line]
    obtain ⟨rs₁, hretired₁, hsteps₁, hwatches₁, hsame⟩ := drive_watches hbudget hd
    simp only [stepLinesFrom, hd] at hs
    split at hs
    · rename_i hcomplete
      rw [hcomplete] at hwatches₁
      have hnot := hwatches₁.not_triggers (by simp) (by simp)
      obtain ⟨rs, hretired, hsteps, hwatches⟩ :=
        ih (fun id hid => by cases hcomplete.symm.trans hid) hs
      refine ⟨rs₁ ++ rs, hretired₁.trans hretired, ?_, .append hnot (hwatches.congr hsame)⟩
      rw [hsteps, RunResult.followedBy, hsteps₁, List.length_append, Nat.add_assoc]
    · cases hs
      exact ⟨rs₁, hretired₁, by rw [RunResult.followedBy, hsteps₁], hwatches₁⟩

end Session

namespace Command

/-- Whether the command runs the machine. -/
def runs : Command → Bool
  | stepLines _ => true
  | c => c.runsOnce

end Command

namespace Budget

/-- Whether a run that uses the budget up just ends there: nothing has stopped it. -/
def Plain (b : Budget) : Prop :=
  b.exhausted = .stepComplete ∨ b.exhausted = .maxSteps ∨ b.exhausted = .stepLimit

variable {b : Budget} {id : Nat}

theorem plain_steps (n : Nat) : (steps n).Plain := .inl rfl

theorem plain_run (n : Nat) : (run n).Plain := .inr (.inl rfl)

theorem plain_line (n : Nat) : (line n).Plain := .inr (.inr rfl)

theorem Plain.ne_watchpoint (h : b.Plain) : b.exhausted ≠ .watchpoint id := by
  rcases h with h | h | h <;> simp [h]

end Budget

namespace Session

open Machine

variable {s s' : Session} {c : Command} {rs : List StepReport} {x : StepReport}

/-- A command that runs the machine drives it on a budget, or from source line to source line. -/
theorem perform_of_runs (hc : c.runs) :
    (∃ b g, b.Plain ∧ s.perform c = ran (s.drive b g)) ∨
      ∃ d n, s.debugInfo? = some d ∧
        s.perform c = ran (stepLinesFrom d s { stop := .stepComplete, lastPc := s.pc } n) := by
  cases c with
  | step n => exact .inl ⟨.steps n, .none, Budget.plain_steps n, rfl⟩
  | run n => exact .inl ⟨.run n, .none, Budget.plain_run n, rfl⟩
  | resume => exact .inl ⟨.run 0, .none, Budget.plain_run 0, rfl⟩
  | stepOver => exact .inl ⟨.run 0, .atMost s.tracker.calls.depth, Budget.plain_run 0, rfl⟩
  | stepOut => exact .inl ⟨.run 0, .below s.tracker.calls.depth, Budget.plain_run 0, rfl⟩
  | stepLines n =>
    rcases hinfo : s.debugInfo? with _ | d
    · exact .inl ⟨.steps n, .none, Budget.plain_steps n,
        by simp only [perform, stepLines, hinfo, step]⟩
    · exact .inr ⟨d, n, rfl, by simp only [perform, stepLines, hinfo]⟩
  | _ => cases hc

theorem watches_of_runs (hc : c.runs) :
    ∃ r s' rs, s.perform c = (some r, s') ∧ Retired rs s s' ∧ r.steps = rs.length ∧
      Watches s.tracker rs (some r.stop) := by
  rcases perform_of_runs (s := s) hc with ⟨b, g, hb, hperform⟩ | ⟨d, n, -, hperform⟩
  · rcases hd : s.drive b g with ⟨r, s'⟩
    obtain ⟨rs, hretired, hsteps, hwatches, -⟩ := drive_watches (fun _ => hb.ne_watchpoint) hd
    exact ⟨r, s', rs, by rw [hperform, hd, ran], hretired, hsteps, hwatches⟩
  · rcases hs : stepLinesFrom d s { stop := .stepComplete, lastPc := s.pc } n with ⟨r, s'⟩
    obtain ⟨rs, hretired, hsteps, hwatches⟩ := stepLinesFrom_watches (by simp) hs
    rw [Nat.zero_add] at hsteps
    exact ⟨r, s', rs, by rw [hperform, hs, ran], hretired, hsteps, hwatches⟩

/-- The effects of the last instruction that was retired are there. -/
theorem Retired.last (h : Retired rs s s') (hx : rs.getLast? = some x) :
    ∃ n n', Retires rs.dropLast s.machine.unrequested n ∧ n.step = (.ok x, n') ∧
      s'.machine.SameContents n' := by
  obtain ⟨n', hret, hleft⟩ := h
  have hsplit : rs.dropLast ++ [x] = rs := List.dropLast_append_getLast? x hx
  rw [← hsplit] at hret
  obtain ⟨n, hfirst, hlast⟩ := hret.of_append
  cases hlast with
  | cons _ _ hstep hrest =>
    cases hrest with
    | nil => exact ⟨n, n', hfirst, hstep, sameContents_of_settled hleft.settled⟩

/-- **A run stops right after an access that is watched.** An instruction that triggers a
watchpoint is the last one that a command retires, and what it did is done. Unless it went to the
sentinel, the command reports the lowest watchpoint that it triggers. A command reports a watchpoint
only then. -/
theorem perform_watches (s : Session) (hc : c.runs) :
    ∃ r s' rs, s.perform c = (some r, s') ∧ s.Retired rs s' ∧ r.steps = rs.length ∧
      (∀ i x, rs[i]? = some x → s.tracker.Triggers x → i + 1 = rs.length ∧
        (∃ n n', Retires rs.dropLast s.machine.unrequested n ∧ n.step = (.ok x, n') ∧
          s'.machine.SameContents n') ∧
        if x.nextPc = sentinel then ∃ v, r.stop = .terminated v
        else ∃ id, r.stop = .watchpoint id ∧ s.tracker.Trips x id) ∧
      ∀ id, r.stop = .watchpoint id →
        ∃ x, rs.getLast? = some x ∧ x.nextPc ≠ sentinel ∧ s.tracker.Trips x id := by
  obtain ⟨r, s', rs, hperform, hretired, hsteps, hwatches⟩ := watches_of_runs (s := s) hc
  refine ⟨r, s', rs, hperform, hretired, hsteps, fun i x hx htriggers => ?_, fun id hid => ?_⟩
  · obtain ⟨hlast, hstop⟩ := hwatches.last i x hx htriggers
    have hlast? : rs.getLast? = some x := by
      rw [List.getLast?_eq_getElem?, ← hlast, Nat.add_sub_cancel]
      exact hx
    simp only [Option.some.injEq] at hstop
    exact ⟨hlast, hretired.last hlast?, hstop⟩
  · exact hwatches.only id (congrArg some hid)

/-- A push and a halt. -/
def pusher : Program where
  fileName := "unit.o"
  code := [
    { address := some 0x1000, fields := some ⟨.push, [0]⟩ },
    { address := some 0x1004, fields := some ⟨.halt, []⟩ }]
  memoryMap := some ⟨0x1000, 0x1000, 8, 0x1008, 0, 8, 4⟩

/-- Three watchpoints on the word that is pushed: for reading, on its last byte, and on all of the
stack. -/
def threeWatchpoints : List Command :=
  [.addWatchpoint ⟨0x100C, 4, .read⟩, .addWatchpoint ⟨0x100F, 1, .write⟩,
    .addWatchpoint ⟨0x1008, 8, .readWrite⟩]

/-- The second watchpoint stops the run with the only instruction of its budget. -/
theorem perform_watches_pusher : ∃ m s r s' rs x n n',
    Machine.load pusher .standard { stackSize := 8 } = .ok m ∧
      (Session.performAll { machine := m } threeWatchpoints).2 = s ∧
      s.perform (.step 1) = (some r, s') ∧ r.stop = .watchpoint 1 ∧ r.steps = 1 ∧
      s.Retired rs s' ∧ rs.getLast? = some x ∧ s.tracker.Trips x 1 ∧
      Retires rs.dropLast s.machine.unrequested n ∧ n.step = (.ok x, n') ∧
      s'.machine.SameContents n' := by
  obtain ⟨m, hload, hrun⟩ : ∃ m, Machine.load pusher .standard { stackSize := 8 } = .ok m ∧
      (((Session.performAll { machine := m } threeWatchpoints).2.perform (.step 1)).1.map
        fun r => (r.stop, r.steps)) = some (.watchpoint 1, 1) := ⟨_, rfl, by decide +kernel⟩
  obtain ⟨r, s', rs, hperform, hretired, -, hlast, honly⟩ := perform_watches
    (Session.performAll { machine := m } threeWatchpoints).2 (c := .step 1) rfl
  simp only [hperform, Option.map_some, Option.some.injEq, Prod.mk.injEq] at hrun
  obtain ⟨x, hx, -, htrips⟩ := honly 1 hrun.1
  rw [List.getLast?_eq_getElem?] at hx
  obtain ⟨-, ⟨n, n', hret, hstep, hsame⟩, -⟩ := hlast _ x hx htrips.triggers
  exact ⟨m, _, r, s', rs, x, n, n', hload, rfl, hperform, hrun.1, hrun.2,
    hretired, List.getLast?_eq_getElem?.trans hx, htrips, hret, hstep, hsame⟩

end Session
end WordMachine
