import WordMachine.Machine.Run

/-!
# WordMachine.Proofs.Rounds

The ways in which a run can go, as relations. `Machine.Round` has a constructor for each way in
which a round can end, and `Machine.Advances` puts rounds in a row after each of which the run goes
on. A run is such a row, and then the end of its budget or one round that stops it
(`Machine.rounds_ends`).
-/

namespace WordMachine
namespace Machine

variable {σ : Type} {h : Hooks σ} {m m' : Machine} {p p' : Progress σ} {r : StepReport}
  {stop? : Option Stop}

/-- What follows an instruction that has been retired. -/
inductive Settled (h : Hooks σ) (m : Machine) (p : Progress σ) (r : StepReport) :
    Option Stop → Machine → Progress σ → Prop where
  | halted (hstate : m.state = .halted) : Settled h m p r (some .halted) m p
  | returned (hstate : m.state ≠ .halted) (hnext : r.nextPc = sentinel) :
      Settled h m p r (some (.terminated (m.registers.get returnRegister)))
        { m with state := .terminated } p
  | held {a : Answer σ} {stop : HookStop} (hstate : m.state ≠ .halted)
      (hnext : r.nextPc ≠ sentinel) (ha : h.after p.hooks r = a) (hstop : a.stop = some stop) :
      Settled h m p r (some stop.toStop) (m.heed a.interrupt) { p with hooks := a.state }
  | paced {a : Answer σ} {stop? : Option Stop} {m' : Machine} {p' : Progress σ}
      (hstate : m.state ≠ .halted) (hnext : r.nextPc ≠ sentinel) (ha : h.after p.hooks r = a)
      (hgo : a.stop = none)
      (hpace : pace h (m.heed a.interrupt) { p with hooks := a.state } = (stop?, m', p')) :
      Settled h m p r stop? m' p'

theorem settled_of_settle (hs : settle h m p r = (stop?, m', p')) :
    Settled h m p r stop? m' p' := by
  simp only [settle] at hs
  split at hs
  · rename_i hstate
    cases hs
    exact .halted hstate
  · rename_i hstate
    split at hs
    · rename_i hnext
      cases hs
      exact .returned hstate hnext
    · rename_i hnext
      split at hs
      · rename_i stop hstop
        cases hs
        exact .held hstate hnext rfl hstop
      · rename_i hgo
        exact .paced hstate hnext rfl hgo hs

/-- Comparing a run with the clock leaves it alone, or tells the hooks. -/
theorem pace_ends (hp : pace h m p = (stop?, m', p')) :
    (stop? = none ∧ m' = m ∧ p'.hooks = p.hooks) ∨
      ∃ lag, stop? = (h.lagging p.hooks lag).stop.map HookStop.toStop ∧
        m' = m.heed (h.lagging p.hooks lag).interrupt ∧
          p'.hooks = (h.lagging p.hooks lag).state := by
  simp only [pace] at hp
  split at hp
  · cases hp
    exact .inl ⟨rfl, rfl, rfl⟩
  · rename_i lag _
    split at hp
    · cases hp
      exact .inr ⟨lag, rfl, rfl, rfl⟩
    · cases hp
      exact .inl ⟨rfl, rfl, rfl⟩

/-- One round: the instruction it retires, if any, and how it ends. -/
inductive Round (h : Hooks σ) (m : Machine) (p : Progress σ) :
    List StepReport → Option Stop → Machine → Progress σ → Prop where
  | interrupted (hstop : m.stopRequested = true) :
      Round h m p [] (some .interrupted) { m with stopRequested := false } p
  | returned (hpc : m.registers.pc = sentinel) :
      Round h m p [] (some (.terminated (m.registers.get returnRegister)))
        { m with state := .terminated } p
  | held {a : Answer σ} {stop : HookStop} (hpc : m.registers.pc ≠ sentinel)
      (ha : h.before p.hooks m.registers.pc = a) (hstop : a.stop = some stop) :
      Round h m p [] (some stop.toStop) (m.heed a.interrupt) { p with hooks := a.state }
  | faulted {a : Answer σ} {f : Fault} {m' : Machine} (hpc : m.registers.pc ≠ sentinel)
      (ha : h.before p.hooks m.registers.pc = a) (hgo : a.stop = none)
      (hstep : (m.heed a.interrupt).step = (.error f, m')) :
      Round h m p [] (some (.fault f)) m' { p with hooks := a.state, lastPc := f.pc }
  | retired {a : Answer σ} {r : StepReport} {m₁ m' : Machine} {p' : Progress σ}
      {stop? : Option Stop} (hpc : m.registers.pc ≠ sentinel)
      (ha : h.before p.hooks m.registers.pc = a) (hgo : a.stop = none)
      (hstep : (m.heed a.interrupt).step = (.ok r, m₁))
      (hsettled : Settled h m₁ (Progress.count { p with hooks := a.state } r) r stop? m' p') :
      Round h m p [r] stop? m' p'

theorem round_of_advance (ha : advance h m p = (stop?, m', p')) :
    ∃ rs, Round h m p rs stop? m' p' := by
  simp only [advance] at ha
  split at ha
  · rename_i hstop
    cases ha
    exact ⟨[], .interrupted hstop⟩
  · split at ha
    · rename_i hpc
      cases ha
      exact ⟨[], .returned hpc⟩
    · rename_i hpc
      split at ha
      · rename_i stop hstop
        cases ha
        exact ⟨[], .held hpc rfl hstop⟩
      · rename_i hgo
        simp only [perform] at ha
        split at ha
        · rename_i f m₁ hstep
          cases ha
          exact ⟨[], .faulted hpc rfl hgo hstep⟩
        · rename_i r m₁ hstep
          exact ⟨[r], .retired hpc rfl hgo hstep (settled_of_settle ha)⟩

/-- Rounds in a row, each of which retires an instruction and lets the run go on. -/
inductive Advances (h : Hooks σ) :
    List StepReport → Machine → Progress σ → Machine → Progress σ → Prop where
  | nil {m : Machine} {p : Progress σ} : Advances h [] m p m p
  | cons {m m₁ m' : Machine} {p p₁ p' : Progress σ} {r : StepReport} {rs : List StepReport}
      (hround : Round h m p [r] none m₁ p₁) (hrest : Advances h rs m₁ p₁ m' p') :
      Advances h (r :: rs) m p m' p'

/-- A run goes on until its budget is exhausted or a round stops it. -/
theorem rounds_ends {exhausted stop : Stop} :
    ∀ {k : Nat} {m : Machine} {p : Progress σ}, rounds h exhausted k m p = (stop, m', p') →
      ∃ rs m₁ p₁, Advances h rs m p m₁ p₁ ∧
        ((rs.length = k ∧ stop = exhausted ∧ m' = m₁ ∧ p' = p₁) ∨
          (rs.length < k ∧ ∃ rs', Round h m₁ p₁ rs' (some stop) m' p')) := by
  intro k
  induction k with
  | zero =>
    intro m p hr
    cases hr
    exact ⟨[], _, _, .nil, .inl ⟨rfl, rfl, rfl, rfl⟩⟩
  | succ k ih =>
    intro m p hr
    simp only [rounds] at hr
    split at hr
    · rename_i ha
      cases hr
      obtain ⟨rs', hround⟩ := round_of_advance ha
      exact ⟨[], m, p, .nil, .inr ⟨Nat.zero_lt_succ k, rs', hround⟩⟩
    · rename_i m₂ p₂ ha
      obtain ⟨rs₂, hround⟩ := round_of_advance ha
      obtain ⟨rs, m₁, p₁, hrest, hend⟩ := ih hr
      cases hround with
      | retired hpc hbefore hgo hstep hsettled =>
        refine ⟨_ :: rs, m₁, p₁, .cons (.retired hpc hbefore hgo hstep hsettled) hrest, ?_⟩
        rw [List.length_cons]
        rcases hend with ⟨hlen, hend⟩ | ⟨hlen, hend⟩
        · exact .inl ⟨congrArg (· + 1) hlen, hend⟩
        · exact .inr ⟨Nat.succ_lt_succ hlen, hend⟩

/-- A machine that is not ready does not run; a ready one runs its rounds. -/
theorem runWith_ends {b : Budget} {x x' : σ} {result : RunResult}
    (hr : m.runWith b h x = (result, m', x')) :
    (∃ stop, m.stopped? = some stop ∧ result = { stop, lastPc := m.registers.pc } ∧ m' = m ∧
        x' = x) ∨
      (m.state = .ready ∧ ∃ stop p', x' = p'.hooks ∧ result = p'.result stop ∧
        rounds h b.exhausted b.allowance m { hooks := x, lastPc := m.registers.pc } =
          (stop, m', p')) := by
  simp only [runWith] at hr
  split at hr
  · rename_i stop hstopped
    cases hr
    exact .inl ⟨stop, hstopped, rfl, rfl, rfl⟩
  · rename_i hstopped
    have hready : m.state = .ready := by
      simp only [stopped?] at hstopped
      split at hstopped <;> first | assumption | cases hstopped
    cases hr
    exact .inr ⟨hready, _, _, rfl, rfl, rfl⟩

end Machine
end WordMachine
