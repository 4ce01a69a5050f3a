import Mathlib
import WordMachine.Proofs.Rounds

/-!
# WordMachine.Proofs.Retirement

The instructions that a run retires, whatever budget and hooks it has. `Machine.Retires` relates two
machines by the reports of the instructions that lead from one to the other. The main statements:

* `Machine.rounds_leaves`: a run leaves the machine where the instructions it counted lead to,
  up to the state in which it stopped and a request to stop;
* `Machine.run_steps_of_retires`: a run without hooks for as many instructions comes to the same
  machine.
-/

namespace WordMachine
namespace Machine

variable {σ : Type} {h : Hooks σ} {m n m' n' : Machine} {p p' : Progress σ} {r : StepReport}
  {rs rs' : List StepReport} {stop? : Option Stop}

/-! ## One instruction -/

/-- The machine without a request to stop. -/
def unrequested (m : Machine) : Machine := { m with stopRequested := false }

/-- The machine ready to run and without a request to stop. -/
def settled (m : Machine) : Machine := { m with state := .ready, stopRequested := false }

@[simp] theorem heed_false (m : Machine) : m.heed false = m := by
  simp [heed]

theorem step_error {f : Fault} (hs : m.step = (.error f, m')) : m' = m.latch f := by
  simp only [step] at hs
  split at hs
  · cases hs; rfl
  · split at hs
    · cases hs; rfl
    · cases hs

/-- All that an instruction that is retired does. -/
theorem step_ok (hs : m.step = (.ok r, m')) :
    ∃ op e, m.nextEffect = .ok (op, e) ∧ e.trap? m.memory = none ∧
      r = report m.registers.pc op e ∧ m' = m.retire e := by
  simp only [step] at hs
  split at hs
  · cases hs
  · rename_i op e he
    split at hs
    · cases hs
    · rename_i htrap
      cases hs
      exact ⟨op, e, he, htrap, rfl, rfl⟩

theorem pc_report_of_step (hs : m.step = (.ok r, m')) : r.pc = m.registers.pc := by
  obtain ⟨op, e, -, -, rfl, -⟩ := step_ok hs
  rfl

theorem pc_of_step (hs : m.step = (.ok r, m')) : m'.registers.pc = r.nextPc := by
  obtain ⟨op, e, -, -, rfl, rfl⟩ := step_ok hs
  exact RegisterFile.get_set_self _ _ _

theorem state_of_step (hs : m.step = (.ok r, m')) : m'.state = .halted ∨ m'.state = m.state := by
  obtain ⟨op, e, -, -, rfl, rfl⟩ := step_ok hs
  cases hh : e.halts
  · right; simp [retire, hh]
  · left; simp [retire, hh]

theorem stopRequested_of_step (hs : m.step = (.ok r, m')) : m'.stopRequested = m.stopRequested := by
  obtain ⟨op, e, -, -, rfl, rfl⟩ := step_ok hs
  rfl

/-- A request to stop is nothing to an instruction. -/
theorem step_unrequested (hs : m.step = (.ok r, m')) :
    m.unrequested.step = (.ok r, m'.unrequested) := by
  obtain ⟨op, e, he, htrap, rfl, rfl⟩ := step_ok hs
  have he' : m.unrequested.nextEffect = .ok (op, e) := he
  have htrap' : e.trap? m.unrequested.memory = none := htrap
  simp only [step, he', htrap']
  rfl

/-! ## Instructions in a row -/

/-- The instructions with these reports lead from one machine to another. Each of them begins with
the machine ready and away from the sentinel. -/
inductive Retires : List StepReport → Machine → Machine → Prop where
  | nil {m : Machine} : Retires [] m m
  | cons {m m' n : Machine} {r : StepReport} {rs : List StepReport} (hready : m.state = .ready)
      (hpc : m.registers.pc ≠ sentinel) (hstep : m.step = (.ok r, m'))
      (hrest : Retires rs m' n) : Retires (r :: rs) m n

theorem Retires.trans (h : Retires rs m n) (h' : Retires rs' n n') :
    Retires (rs ++ rs') m n' := by
  induction h with
  | nil => exact h'
  | cons hready hpc hstep _ ih => exact .cons hready hpc hstep (ih h')

/-- Where no instruction can begin, none follows. -/
theorem Retires.eq_of_stopped (h : Retires rs m n)
    (hstop : m.state ≠ .ready ∨ m.registers.pc = sentinel) : rs = [] ∧ m = n := by
  cases h with
  | nil => exact ⟨rfl, rfl⟩
  | cons hready hpc _ _ =>
    rcases hstop with hstate | hpc'
    · exact absurd hready hstate
    · exact absurd hpc' hpc

/-- How a run may leave the machine that its instructions led to: with a request to stop, and no
longer ready, but otherwise the same. -/
structure LeftAs (n m : Machine) : Prop where
  settled : m.settled = n.settled
  ready : m.state = .ready → m.unrequested = n

theorem LeftAs.heed (h : LeftAs n m) (b : Bool) : LeftAs n (m.heed b) :=
  ⟨h.settled, h.ready⟩

theorem leftAs_unrequested (m : Machine) : LeftAs m.unrequested m := ⟨rfl, fun _ => rfl⟩

/-- From a machine that a run has left, go on those instructions that go on from where it led. -/
theorem LeftAs.retires (h : LeftAs n m) (hret : Retires rs m.unrequested n') (h' : LeftAs n' m') :
    ∃ n'', Retires rs n n'' ∧ LeftAs n'' m' := by
  by_cases hready : m.state = .ready
  · rw [h.ready hready] at hret
    exact ⟨n', hret, h'⟩
  · -- A machine that is not ready retires nothing.
    obtain ⟨rfl, rfl⟩ := hret.eq_of_stopped (.inl hready)
    refine ⟨n, .nil, h'.settled.trans h.settled, fun hready' => ?_⟩
    have hstate : m'.unrequested.state = m.unrequested.state := by rw [h'.ready hready']
    exact absurd (hstate.symm.trans hready') hready

/-! ## Rounds -/

/-- Between `m` with progress `p` and `m'` with progress `p'` lie the instructions with these
reports, and nothing else. -/
structure Ran (rs : List StepReport) (m : Machine) (p : Progress σ) (m' : Machine)
    (p' : Progress σ) : Prop where
  leaves : ∃ n, Retires rs m.unrequested n ∧ LeftAs n m'
  steps : p'.steps = p.steps + rs.length
  cycles : p'.cycles = p.cycles + (rs.map StepReport.cycles).sum

/-- Leaving the machine as it is, but for a request to stop or for its state. -/
theorem Ran.none (hm : LeftAs m.unrequested m') (hsteps : p'.steps = p.steps)
    (hcycles : p'.cycles = p.cycles) : Ran [] m p m' p' :=
  ⟨⟨m.unrequested, .nil, hm⟩, hsteps, hcycles⟩

theorem Ran.trans {m₁ : Machine} {p₁ : Progress σ} (h : Ran rs m p m₁ p₁)
    (h' : Ran rs' m₁ p₁ m' p') : Ran (rs ++ rs') m p m' p' := by
  obtain ⟨⟨n, hn, hleft⟩, hsteps, hcycles⟩ := h
  obtain ⟨⟨n', hn', hleft'⟩, hsteps', hcycles'⟩ := h'
  obtain ⟨n'', hn'', hleft''⟩ := hleft.retires hn' hleft'
  refine ⟨⟨n'', hn.trans hn'', hleft''⟩, ?_, ?_⟩
  · rw [hsteps', hsteps, List.length_append, Nat.add_assoc]
  · rw [hcycles', hcycles, List.map_append, List.sum_append, Nat.add_assoc]

theorem pace_leaves (hp : pace h m p = (stop?, m', p')) :
    (∃ b, m' = m.heed b) ∧ p'.steps = p.steps ∧ p'.cycles = p.cycles := by
  simp only [pace] at hp
  split at hp
  · cases hp
    exact ⟨⟨false, (heed_false m).symm⟩, rfl, rfl⟩
  · split at hp
    · cases hp
      exact ⟨⟨_, rfl⟩, rfl, rfl⟩
    · cases hp
      exact ⟨⟨false, (heed_false m).symm⟩, rfl, rfl⟩

/-- What follows an instruction changes no more than the state and the request to stop, and the run
goes on only with a machine that is ready. -/
theorem Settled.leaves (hs : Settled h m p r stop? m' p')
    (hstate : m.state = .halted ∨ m.state = .ready) :
    LeftAs m.unrequested m' ∧ p'.steps = p.steps ∧ p'.cycles = p.cycles ∧
      (stop? = none → m'.state = .ready) := by
  cases hs with
  | halted _ => exact ⟨leftAs_unrequested m, rfl, rfl, by simp⟩
  | returned _ _ => exact ⟨⟨rfl, fun hready => by cases hready⟩, rfl, rfl, by simp⟩
  | held _ _ _ _ => exact ⟨(leftAs_unrequested m).heed _, rfl, rfl, by simp⟩
  | paced hnot _ _ _ hpace =>
    obtain ⟨⟨b, rfl⟩, hsteps, hcycles⟩ := pace_leaves hpace
    exact ⟨((leftAs_unrequested m).heed _).heed b, hsteps, hcycles,
      fun _ => hstate.resolve_left hnot⟩

/-- One round retires what it says and no more. -/
theorem Round.ran (hr : Round h m p rs stop? m' p') (hready : m.state = .ready) :
    Ran rs m p m' p' ∧ (stop? = none → m'.state = .ready) := by
  cases hr with
  | interrupted _ => exact ⟨.none ⟨rfl, fun _ => rfl⟩ rfl rfl, by simp⟩
  | returned _ => exact ⟨.none ⟨rfl, fun hready => by cases hready⟩ rfl rfl, by simp⟩
  | held _ _ _ => exact ⟨.none ((leftAs_unrequested m).heed _) rfl rfl, by simp⟩
  | faulted _ _ _ hstep =>
    refine ⟨.none ⟨?_, ?_⟩ rfl rfl, by simp⟩
    · rw [step_error hstep]
      rfl
    · rw [step_error hstep]
      intro hfaulted
      cases hfaulted
  | @retired a r m₁ _ _ _ hpc _ _ hstep hsettled =>
    have hstate : m₁.state = .halted ∨ m₁.state = .ready := by
      rcases state_of_step hstep with hhalted | hsame
      · exact .inl hhalted
      · exact .inr (hsame.trans hready)
    obtain ⟨hleft, hsteps, hcycles, hgoes⟩ := hsettled.leaves hstate
    have hstep' := step_unrequested hstep
    have hret : Retires [r] m.unrequested m₁.unrequested := .cons hready hpc hstep' .nil
    exact ⟨⟨⟨_, hret, hleft⟩, hsteps, by simpa [Progress.count] using hcycles⟩, hgoes⟩

theorem Advances.ran (ha : Advances h rs m p m' p') (hready : m.state = .ready) :
    Ran rs m p m' p' ∧ m'.state = .ready := by
  induction ha with
  | nil => exact ⟨.none (leftAs_unrequested _) rfl rfl, hready⟩
  | cons hround _ ih =>
    obtain ⟨hran, hgoes⟩ := hround.ran hready
    obtain ⟨hrest, hready'⟩ := ih (hgoes rfl)
    exact ⟨hran.trans hrest, hready'⟩

/-- **A run is the instructions it counts.** Whatever the hooks, a run takes a machine that is ready
to where the instructions that it retired lead to, and counts each of them. -/
theorem rounds_leaves {exhausted stop : Stop} {k : Nat} (hready : m.state = .ready)
    (hr : rounds h exhausted k m p = (stop, m', p')) : ∃ rs, Ran rs m p m' p' := by
  obtain ⟨rs, m₁, p₁, hadvances, hend⟩ := rounds_ends hr
  obtain ⟨hran, hready'⟩ := hadvances.ran hready
  rcases hend with ⟨-, -, rfl, rfl⟩ | ⟨-, rs', hround⟩
  · exact ⟨rs, hran⟩
  · exact ⟨rs ++ rs', hran.trans (hround.ran hready').1⟩

theorem runWith_leaves {b : Budget} {x x' : σ} {result : RunResult}
    (hr : m.runWith b h x = (result, m', x')) :
    ∃ rs, (∃ n, Retires rs m.unrequested n ∧ LeftAs n m') ∧ result.steps = rs.length ∧
      result.cycles = (rs.map StepReport.cycles).sum := by
  rcases runWith_ends hr with ⟨stop, -, rfl, rfl, -⟩ | ⟨hready, stop, p', -, rfl, hrounds⟩
  · exact ⟨[], ⟨_, .nil, leftAs_unrequested _⟩, rfl, rfl⟩
  · obtain ⟨rs, hleaves, hsteps, hcycles⟩ := rounds_leaves hready hrounds
    exact ⟨rs, hleaves, by simpa [Progress.result] using hsteps,
      by simpa [Progress.result] using hcycles⟩

/-! ## Without hooks -/

theorem pace_hooks_none {p : Progress Unit} : ∃ p', pace Hooks.none m p = (none, m, p') := by
  simp only [pace]
  split
  · exact ⟨p, rfl⟩
  · split
    · exact ⟨_, Prod.ext rfl (Prod.ext (heed_false m) rfl)⟩
    · exact ⟨_, rfl⟩

/-- Without hooks and requests, a round at an instruction that can be retired does no more than
that. -/
theorem advance_hooks_none {p : Progress Unit} (hstop : m.stopRequested = false)
    (hpc : m.registers.pc ≠ sentinel) (hstep : m.step = (.ok r, m')) :
    advance Hooks.none m p = settle Hooks.none m' (p.count r) r := by
  simp only [advance, hstop, Bool.false_eq_true, if_false, hpc, Hooks.none, heed_false, perform,
    hstep]

theorem rounds_of_retires (hret : Retires rs m n) :
    ∀ (p : Progress Unit), m.stopRequested = false →
      (rounds Hooks.none .stepComplete rs.length m p).2.1.settled = n.settled := by
  induction hret with
  | nil =>
    intro p _
    rfl
  | @cons m m₁ n r rs hready hpc hstep hrest ih =>
    intro p hstop
    have hstop₁ : m₁.stopRequested = false := (stopRequested_of_step hstep).trans hstop
    rw [List.length_cons, rounds, advance_hooks_none hstop hpc hstep]
    -- Where the run stops early, the instruction was the last of the row.
    by_cases hhalt : m₁.state = .halted
    · obtain ⟨rfl, rfl⟩ := hrest.eq_of_stopped (.inl (by simp [hhalt]))
      simp only [settle, hhalt, if_true]
    · by_cases hsent : r.nextPc = sentinel
      · obtain ⟨rfl, rfl⟩ := hrest.eq_of_stopped (.inr ((pc_of_step hstep).trans hsent))
        simp only [settle, hhalt, if_false, hsent, if_true, terminate]
        rfl
      · obtain ⟨p', hp'⟩ := pace_hooks_none (m := m₁) (p := p.count r)
        have hsettle : settle Hooks.none m₁ (p.count r) r = (none, m₁, p') := by
          simp only [settle, hhalt, if_false, hsent, Hooks.none, heed_false]
          exact hp'
        rw [hsettle]
        exact ih p' hstop₁

/-- A run of as many instructions without hooks leads to the same machine. -/
theorem run_steps_of_retires (hret : Retires rs m n) (hready : m.state = .ready)
    (hstop : m.stopRequested = false) : (m.run (.steps rs.length)).2.settled = n.settled := by
  have hstopped : m.stopped? = none := by rw [stopped?, hready]
  simp only [run, runWith, hstopped]
  exact rounds_of_retires hret _ hstop

end Machine
end WordMachine
