import WordMachine.Proofs.Retirement

/-!
# WordMachine.Proofs.StepSplitting

A number of instructions carried out in two calls. Without hooks, how a round goes depends on the
machine alone: two runs from one machine stay side by side, however far each had come before
(`Machine.rounds_alike`). And a round that nobody asked for to stop stops the run for the reason for
which the machine does not run any more (`Machine.Round.stopped?_of_hooks_none`). So it does not
matter where a run is split (`Machine.run_steps_add`).
-/

namespace WordMachine
namespace Machine

variable {m m' m₁ m₂ : Machine} {p p' q : Progress Unit} {rs : List StepReport}
  {stop exhausted : Stop} {stop? : Option Stop} {d c k n : Nat}

/-! ## Runs side by side -/

/-- The same outcome and machine, with `d` instructions and `c` cycles more in the second run. -/
structure Alike {α : Type} (d c : Nat) (x y : α × Machine × Progress Unit) : Prop where
  outcome : x.1 = y.1
  machine : x.2.1 = y.2.1
  steps : y.2.2.steps = d + x.2.2.steps
  cycles : y.2.2.cycles = c + x.2.2.cycles

theorem pace_alike (hsteps : q.steps = d + p.steps) (hcycles : q.cycles = c + p.cycles) :
    Alike d c (pace Hooks.none m p) (pace Hooks.none m q) := by
  obtain ⟨p', hp⟩ := pace_hooks_none (m := m) (p := p)
  obtain ⟨q', hq⟩ := pace_hooks_none (m := m) (p := q)
  obtain ⟨-, hpsteps, hpcycles⟩ := pace_leaves hp
  obtain ⟨-, hqsteps, hqcycles⟩ := pace_leaves hq
  rw [hp, hq]
  exact ⟨rfl, rfl, by rw [hpsteps, hqsteps, hsteps], by rw [hpcycles, hqcycles, hcycles]⟩

theorem settle_alike {r : StepReport} (hsteps : q.steps = d + p.steps)
    (hcycles : q.cycles = c + p.cycles) :
    Alike d c (settle Hooks.none m p r) (settle Hooks.none m q r) := by
  by_cases hhalted : m.state = .halted
  · simp only [settle, hhalted, if_true]
    exact ⟨rfl, rfl, hsteps, hcycles⟩
  · by_cases hnext : r.nextPc = sentinel
    · simp only [settle, hhalted, if_false, hnext, if_true]
      exact ⟨rfl, rfl, hsteps, hcycles⟩
    · simp only [settle, hhalted, if_false, hnext, Hooks.none, heed_false]
      exact pace_alike hsteps hcycles

theorem advance_alike (hsteps : q.steps = d + p.steps) (hcycles : q.cycles = c + p.cycles) :
    Alike d c (advance Hooks.none m p) (advance Hooks.none m q) := by
  by_cases hstop : m.stopRequested = true
  · simp only [advance, hstop, if_true]
    exact ⟨rfl, rfl, hsteps, hcycles⟩
  · by_cases hpc : m.registers.pc = sentinel
    · simp only [advance, hstop, Bool.false_eq_true, if_false, hpc, if_true]
      exact ⟨rfl, rfl, hsteps, hcycles⟩
    · rcases hstep : m.step with ⟨f | r, m'⟩
      · simp only [advance, hstop, Bool.false_eq_true, if_false, hpc, Hooks.none, heed_false,
          perform, hstep]
        exact ⟨rfl, rfl, hsteps, hcycles⟩
      · rw [Bool.not_eq_true] at hstop
        rw [advance_hooks_none hstop hpc hstep, advance_hooks_none hstop hpc hstep]
        refine settle_alike ?_ ?_
        · simp only [Progress.count, hsteps, Nat.add_assoc]
        · simp only [Progress.count, hcycles, Nat.add_assoc]

theorem rounds_alike :
    ∀ {k : Nat} {m : Machine} {p q : Progress Unit}, q.steps = d + p.steps →
      q.cycles = c + p.cycles →
        Alike d c (rounds Hooks.none exhausted k m p) (rounds Hooks.none exhausted k m q) := by
  intro k
  induction k with
  | zero =>
    intro m p q hsteps hcycles
    exact ⟨rfl, rfl, hsteps, hcycles⟩
  | succ k ih =>
    intro m p q hsteps hcycles
    have hround := advance_alike (m := m) hsteps hcycles
    rcases hp : advance Hooks.none m p with ⟨stop?, m', p'⟩
    rcases hq : advance Hooks.none m q with ⟨_, _, q'⟩
    rw [hp, hq] at hround
    obtain ⟨rfl, rfl, hsteps', hcycles'⟩ := hround
    simp only [rounds, hp, hq]
    cases stop? with
    | none => exact ih hsteps' hcycles'
    | some stop => exact ⟨rfl, rfl, hsteps', hcycles'⟩

/-! ## Where a run is split -/

theorem stopped?_eq_none : m.stopped? = none ↔ m.state = .ready := by
  rw [stopped?]
  cases m.state <;> simp

/-- Without hooks and requests, a round that stops leaves a machine that is stopped for the same
reason, and a round that goes on leaves one that is ready. -/
theorem Round.stopped?_of_hooks_none (hr : Round Hooks.none m p rs stop? m' p')
    (hready : m.stopped? = none) (hrequest : m.stopRequested = false) :
    m'.stopped? = stop? ∧ m'.stopRequested = false := by
  cases hr with
  | interrupted hstop => exact absurd (hrequest.symm.trans hstop) (by simp)
  | returned _ => exact ⟨rfl, hrequest⟩
  | held _ ha hstop =>
    subst ha
    cases hstop
  | faulted _ ha _ hstep =>
    subst ha
    rw [step_error hstep]
    exact ⟨rfl, by simpa [latch, Hooks.none] using hrequest⟩
  | retired _ ha _ hstep hsettled =>
    subst ha
    simp only [Hooks.none, heed_false] at hstep
    have hrequest₁ := (stopRequested_of_step hstep).trans hrequest
    cases hsettled with
    | halted hhalted => exact ⟨by rw [stopped?, hhalted], hrequest₁⟩
    | returned _ _ => exact ⟨rfl, hrequest₁⟩
    | held _ _ ha hstop =>
      subst ha
      cases hstop
    | paced hnot _ ha _ hpace =>
      subst ha
      simp only [Hooks.none, heed_false] at hpace
      obtain ⟨p₁, hp₁⟩ := pace_hooks_none
      cases hp₁.symm.trans hpace
      have hstate := (state_of_step hstep).resolve_left hnot
      exact ⟨stopped?_eq_none.2 (hstate.trans (stopped?_eq_none.1 hready)), hrequest₁⟩

/-- A run of `n + k` instructions goes on after `n`, unless it has stopped by then. -/
theorem rounds_add :
    ∀ {n : Nat} {m : Machine} {p : Progress Unit}, m.stopped? = none → m.stopRequested = false →
      rounds Hooks.none exhausted n m p = (stop, m', p') →
        m'.stopRequested = false ∧
          ((m'.stopped? = none ∧ rounds Hooks.none exhausted (n + k) m p =
              rounds Hooks.none exhausted k m' p') ∨
            (m'.stopped? = some stop ∧
              rounds Hooks.none exhausted (n + k) m p = (stop, m', p'))) := by
  intro n
  induction n with
  | zero =>
    intro m p hready hrequest hr
    cases hr
    exact ⟨hrequest, .inl ⟨hready, by rw [Nat.zero_add]⟩⟩
  | succ n ih =>
    intro m p hready hrequest hr
    rcases hround : advance Hooks.none m p with ⟨stop?, m₁, p₁⟩
    obtain ⟨_, hr₁⟩ := round_of_advance hround
    obtain ⟨hstopped, hrequest₁⟩ := hr₁.stopped?_of_hooks_none hready hrequest
    rw [Nat.succ_add]
    simp only [rounds, hround] at hr ⊢
    cases stop? with
    | none => exact ih hstopped hrequest₁ hr
    | some stop =>
      cases hr
      exact ⟨hrequest₁, .inr ⟨hstopped, rfl⟩⟩

theorem run_of_stopped {b : Budget} (h : m.stopped? = some stop) :
    m.run b = ({ stop, lastPc := m.registers.pc }, m) := by
  simp only [run, runWith, h]

theorem run_of_ready {b : Budget} (h : m.stopped? = none)
    (hr : rounds Hooks.none b.exhausted b.allowance m { hooks := (), lastPc := m.registers.pc } =
      (stop, m', p')) : m.run b = (p'.result stop, m') := by
  simp only [run, runWith, h, hr]

/-- **It does not matter where a run is split.** A number of instructions and then another leave the
machine that both together in one call leave, count as many instructions and cycles, and the second
call ends for the reason for which the one call ends. -/
theorem run_steps_add {r₁ r₂ : RunResult} (hrequest : m.stopRequested = false)
    (hfirst : m.run (.steps n) = (r₁, m₁)) (hsecond : m₁.run (.steps k) = (r₂, m₂)) :
    ∃ r, m.run (.steps (n + k)) = (r, m₂) ∧ r.steps = r₁.steps + r₂.steps ∧
      r.cycles = r₁.cycles + r₂.cycles ∧ r.stop = r₂.stop := by
  rcases hstopped : m.stopped? with _ | stop
  · rcases hr₁ : rounds Hooks.none .stepComplete n m { hooks := (), lastPc := m.registers.pc } with
      ⟨stop, m', p₁⟩
    cases (run_of_ready (b := .steps n) hstopped hr₁).symm.trans hfirst
    obtain ⟨-, ⟨hready, hboth⟩ | ⟨hstop, hboth⟩⟩ := rounds_add (k := k) hstopped hrequest hr₁
    · rcases hr₂ : rounds Hooks.none .stepComplete k m₁
        { hooks := (), lastPc := m₁.registers.pc } with ⟨stop₂, m', p₂⟩
      cases (run_of_ready (b := .steps k) hready hr₂).symm.trans hsecond
      -- The second run and the rest of the whole run differ in what came before them.
      have halike : Alike p₁.steps p₁.cycles
          (rounds Hooks.none .stepComplete k m₁ { hooks := (), lastPc := m₁.registers.pc })
          (rounds Hooks.none .stepComplete k m₁ p₁) := rounds_alike rfl rfl
      rcases hr : rounds Hooks.none .stepComplete k m₁ p₁ with ⟨stop, m', p⟩
      rw [hr₂, hr] at halike
      obtain ⟨rfl, rfl, hsteps, hcycles⟩ := halike
      exact ⟨_, run_of_ready (b := .steps (n + k)) hstopped (hboth.trans hr), hsteps, hcycles, rfl⟩
    · cases (run_of_stopped hstop).symm.trans hsecond
      exact ⟨_, run_of_ready (b := .steps (n + k)) hstopped hboth, rfl, rfl, rfl⟩
  · cases (run_of_stopped hstopped).symm.trans hfirst
    cases (run_of_stopped hstopped).symm.trans hsecond
    exact ⟨_, run_of_stopped hstopped, rfl, rfl, rfl⟩

/-- A function that returns 5. -/
def returning : Program where
  fileName := "unit.o"
  code := [
    { address := some 0x1000, fields := some ⟨.movImm16L, [5, 0]⟩ },
    { address := some 0x1004, fields := some ⟨.jmp, [11]⟩ }]
  memoryMap := some ⟨0x1000, 0x1000, 8, 0x1008, 0, 8, 4⟩

/-- The function returns with the last instruction of the first call. -/
theorem run_steps_add_returning : ∃ m r₁ m₁ r₂ m₂ r,
    load returning .standard { stackSize := 8 } = .ok m ∧ m.run (.steps 2) = (r₁, m₁) ∧
      m₁.run (.steps 3) = (r₂, m₂) ∧ r₁.steps = 2 ∧ r₂.stop = .terminated 5 ∧
      m.run (.steps (2 + 3)) = (r, m₂) ∧ r.steps = r₁.steps + r₂.steps ∧
      r.cycles = r₁.cycles + r₂.cycles ∧ r.stop = r₂.stop := by
  obtain ⟨m, hload, hrequest, hsteps, hstop⟩ : ∃ m,
      load returning .standard { stackSize := 8 } = .ok m ∧ m.stopRequested = false ∧
        (m.run (.steps 2)).1.steps = 2 ∧
        ((m.run (.steps 2)).2.run (.steps 3)).1.stop = .terminated 5 :=
    ⟨_, rfl, rfl, by decide +kernel, by decide +kernel⟩
  obtain ⟨r, hrun, hsum⟩ := run_steps_add (n := 2) (k := 3) hrequest rfl rfl
  exact ⟨m, _, _, _, _, r, hload, rfl, rfl, hsteps, hstop, hrun, hsum⟩

end Machine
end WordMachine
