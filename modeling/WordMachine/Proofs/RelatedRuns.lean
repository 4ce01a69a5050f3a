import WordMachine.Proofs.Rounds

/-!
# WordMachine.Proofs.RelatedRuns

Two runs of one machine with different hooks. Hooks are matched by others when, from related states,
they answer alike and come to related states again (`Hooks.Matches`). Then whatever happens to the
machine happens in both runs: a run has one result and leaves one machine (`Machine.runWith_same`).
-/

namespace WordMachine

section Relations

variable {σ τ α : Type} {R : σ → τ → Prop}

/-- Two answers that a run takes alike. -/
structure Answer.Same (R : σ → τ → Prop) (a : Answer σ) (a' : Answer τ) : Prop where
  state : R a.state a'.state
  stop : a'.stop = a.stop
  interrupt : a'.interrupt = a.interrupt

/-- Hooks that answer alike from related states on. -/
structure Hooks.Matches (R : σ → τ → Prop) (h : Hooks σ) (h' : Hooks τ) : Prop where
  before : ∀ {x : σ} {y : τ} (pc : Word), R x y → (h.before x pc).Same R (h'.before y pc)
  after : ∀ {x : σ} {y : τ} (r : StepReport), R x y → (h.after x r).Same R (h'.after y r)
  lagging : ∀ {x : σ} {y : τ} (cycles : Nat), R x y →
    (h.lagging x cycles).Same R (h'.lagging y cycles)

/-- Two runs that have come as far, but for the states of their hooks. -/
structure Progress.Same (R : σ → τ → Prop) (p : Progress σ) (q : Progress τ) : Prop where
  hooks : R p.hooks q.hooks
  steps : q.steps = p.steps
  cycles : q.cycles = p.cycles
  lastPc : q.lastPc = p.lastPc
  lagCycles : q.lagCycles = p.lagCycles
  lagNoticed : q.lagNoticed = p.lagNoticed

namespace Progress

variable {p : Progress σ} {q : Progress τ}

theorem Same.count (h : Same R p q) (r : StepReport) : Same R (p.count r) (q.count r) where
  hooks := h.hooks
  steps := congrArg (· + 1) h.steps
  cycles := congrArg (· + r.cycles) h.cycles
  lastPc := rfl
  lagCycles := h.lagCycles
  lagNoticed := h.lagNoticed

theorem Same.answered (h : Same R p q) {x : σ} {y : τ} (hxy : R x y) :
    Same R { p with hooks := x } { q with hooks := y } :=
  { h with hooks := hxy }

theorem Same.result (h : Same R p q) (stop : Stop) : q.result stop = p.result stop := by
  simp only [Progress.result, h.steps, h.cycles, h.lastPc, h.lagCycles]

end Progress

namespace Machine

variable {h : Hooks σ} {h' : Hooks τ} {m : Machine} {p : Progress σ} {q : Progress τ}
  {r : StepReport}

/-- Two runs that have come to the same outcome and machine. -/
structure SameRun (R : σ → τ → Prop) (x : α × Machine × Progress σ)
    (y : α × Machine × Progress τ) : Prop where
  outcome : y.1 = x.1
  machine : y.2.1 = x.2.1
  progress : x.2.2.Same R y.2.2

theorem pace_same (hh : h.Matches R h') (hp : p.Same R q) :
    SameRun R (pace h m p) (pace h' m q) := by
  simp only [pace, hp.steps, hp.cycles, hp.lagCycles, hp.lagNoticed]
  split
  · exact ⟨rfl, rfl, hp⟩
  · rename_i lag _
    split
    · have hanswer := hh.lagging lag hp.hooks
      refine ⟨by rw [hanswer.stop], by rw [hanswer.interrupt], ?_⟩
      exact ⟨hanswer.state, rfl, rfl, hp.lastPc, rfl, rfl⟩
    · exact ⟨rfl, rfl, hp.hooks, rfl, rfl, hp.lastPc, rfl, rfl⟩

theorem settle_same (hh : h.Matches R h') (hp : p.Same R q) :
    SameRun R (settle h m p r) (settle h' m q r) := by
  simp only [settle]
  split
  · exact ⟨rfl, rfl, hp⟩
  · split
    · exact ⟨rfl, rfl, hp⟩
    · have hanswer := hh.after r hp.hooks
      rw [hanswer.stop, hanswer.interrupt]
      split
      · exact ⟨rfl, rfl, hp.answered hanswer.state⟩
      · exact pace_same hh (hp.answered hanswer.state)

theorem perform_same (hh : h.Matches R h') (hp : p.Same R q) :
    SameRun R (perform h m p) (perform h' m q) := by
  simp only [perform]
  split
  · exact ⟨rfl, rfl, { hp with lastPc := rfl }⟩
  · exact settle_same hh (hp.count _)

theorem advance_same (hh : h.Matches R h') (hp : p.Same R q) :
    SameRun R (advance h m p) (advance h' m q) := by
  simp only [advance]
  split
  · exact ⟨rfl, rfl, hp⟩
  · split
    · exact ⟨rfl, rfl, hp⟩
    · have hanswer := hh.before m.registers.pc hp.hooks
      rw [hanswer.stop, hanswer.interrupt]
      split
      · exact ⟨rfl, rfl, hp.answered hanswer.state⟩
      · exact perform_same hh (hp.answered hanswer.state)

theorem rounds_same (hh : h.Matches R h') (exhausted : Stop) :
    ∀ {k : Nat} {m : Machine} {p : Progress σ} {q : Progress τ}, p.Same R q →
      SameRun R (rounds h exhausted k m p) (rounds h' exhausted k m q) := by
  intro k
  induction k with
  | zero => exact fun hp => ⟨rfl, rfl, hp⟩
  | succ k ih =>
    intro m p q hp
    have hround := advance_same (m := m) hh hp
    rcases ha : advance h m p with ⟨stop?, m₁, p₁⟩
    rcases ha' : advance h' m q with ⟨stop?', m₁', q₁⟩
    rw [ha, ha'] at hround
    obtain ⟨rfl, rfl, hp₁⟩ := hround
    simp only [rounds, ha, ha']
    cases stop?' with
    | none => exact ih hp₁
    | some stop => exact ⟨rfl, rfl, hp₁⟩

/-- Matching hooks do not change what comes of a run. -/
theorem runWith_same (hh : h.Matches R h') {x : σ} {y : τ} (hxy : R x y) (b : Budget) :
    (m.runWith b h' y).1 = (m.runWith b h x).1 ∧
      (m.runWith b h' y).2.1 = (m.runWith b h x).2.1 ∧
        R (m.runWith b h x).2.2 (m.runWith b h' y).2.2 := by
  simp only [runWith]
  split
  · exact ⟨rfl, rfl, hxy⟩
  · have hstart : Progress.Same R { hooks := x, lastPc := m.registers.pc }
        { hooks := y, lastPc := m.registers.pc } := ⟨hxy, rfl, rfl, rfl, rfl, rfl⟩
    obtain ⟨hstop, hmachine, hp⟩ := rounds_same hh b.exhausted hstart
    refine ⟨?_, hmachine, hp.hooks⟩
    rw [hp.result, hstop]

end Machine
end Relations
end WordMachine
