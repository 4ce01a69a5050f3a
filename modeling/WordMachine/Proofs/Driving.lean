import WordMachine.Debug.Command
import WordMachine.Proofs.Retirement

/-!
# WordMachine.Proofs.Driving

What a command that runs the machine of a session is made of: the instructions that it retires
(`Session.Retired`), and the rounds in which it retires them (`Session.drive_ends`).
-/

namespace WordMachine

namespace Machine

variable {m n : Machine} {rs : List StepReport}

theorem pc_of_mem_head? {r : StepReport} (h : Retires rs m n) (hr : r ∈ rs.head?) :
    r.pc = m.registers.pc := by
  cases h with
  | nil => cases hr
  | cons _ _ hstep _ =>
    cases hr
    exact pc_report_of_step hstep

/-- What no instruction changes: the program and what it was loaded with. -/
structure SameSetup (m n : Machine) : Prop where
  program : m.program = n.program
  instructions : m.instructions = n.instructions
  settings : m.settings = n.settings
  image : m.image = n.image
  stackTop : m.stackTop = n.stackTop

theorem SameSetup.trans {m₁ : Machine} (h : m.SameSetup m₁) (h' : m₁.SameSetup n) :
    m.SameSetup n where
  program := h.program.trans h'.program
  instructions := h.instructions.trans h'.instructions
  settings := h.settings.trans h'.settings
  image := h.image.trans h'.image
  stackTop := h.stackTop.trans h'.stackTop

theorem sameSetup_unrequested (m : Machine) : m.unrequested.SameSetup m :=
  ⟨rfl, rfl, rfl, rfl, rfl⟩

theorem Retires.sameSetup (h : Retires rs m n) : n.SameSetup m := by
  induction h with
  | nil => exact ⟨rfl, rfl, rfl, rfl, rfl⟩
  | cons _ _ hstep _ ih =>
    obtain ⟨_, _, _, _, _, rfl⟩ := step_ok hstep
    exact ⟨ih.program, ih.instructions, ih.settings, ih.image, ih.stackTop⟩

theorem LeftAs.sameSetup (h : LeftAs n m) : m.SameSetup n where
  program := congrArg (·.program) h.settled
  instructions := congrArg (·.instructions) h.settled
  settings := congrArg (·.settings) h.settled
  image := congrArg (·.image) h.settled
  stackTop := congrArg (·.stackTop) h.settled

end Machine

namespace Session

open Machine

variable {s s₁ s' : Session} {rs rs' : List StepReport} {b : Budget} {g : Goal} {r : RunResult}

/-- The instructions with these reports lead from where one session stands to where another does. -/
def Retired (rs : List StepReport) (s s' : Session) : Prop :=
  ∃ n, Retires rs s.machine.unrequested n ∧ LeftAs n s'.machine

theorem Retired.nil (hm : s'.machine = s.machine) : Retired [] s s' :=
  ⟨_, .nil, hm ▸ leftAs_unrequested _⟩

theorem Retired.trans (h : Retired rs s s₁) (h' : Retired rs' s₁ s') :
    Retired (rs ++ rs') s s' := by
  obtain ⟨n, hret, hleft⟩ := h
  obtain ⟨n', hret', hleft'⟩ := h'
  obtain ⟨n'', hret'', hleft''⟩ := hleft.retires hret' hleft'
  exact ⟨n'', hret.trans hret'', hleft''⟩

theorem Retired.pc_head {x : StepReport} (h : Retired rs s s') (hx : x ∈ rs.head?) :
    x.pc = s.pc := by
  obtain ⟨n, hret, -⟩ := h
  have hpc := pc_of_mem_head? hret hx
  exact hpc

theorem Retired.sameSetup (h : Retired rs s s') : s'.machine.SameSetup s.machine := by
  obtain ⟨n, hret, hleft⟩ := h
  exact (hleft.sameSetup.trans hret.sameSetup).trans (sameSetup_unrequested _)

theorem Retired.debugInfo (h : Retired rs s s') : s'.debugInfo? = s.debugInfo? :=
  congrArg Program.debugInfo h.sameSetup.program

/-! ## The end of a command -/

theorem pc_conclude : (s.conclude r).pc = s.pc := by
  simp only [conclude]
  split <;> rfl

theorem skip_conclude : (s.conclude r).tracker.skip = some s.pc := by
  simp only [conclude]
  split <;> rfl

theorem breakpoints_conclude :
    (s.conclude r).tracker.breakpoints = s.tracker.breakpoints := by
  simp only [conclude]
  split <;> rfl

theorem leftAs_conclude {n : Machine} (h : LeftAs n s.machine) :
    LeftAs n (s.conclude r).machine := by
  simp only [conclude]
  split
  · exact h
  · exact h.heed _

/-- A run of a session: rounds after which it goes on, and how it ends. -/
structure RunsTo (s : Session) (b : Budget) (g : Goal) (rs : List StepReport) (m₁ : Machine)
    (p₁ : Progress Tracker) (stop : Stop) (rs' : List StepReport) (m' : Machine)
    (p' : Progress Tracker) : Prop where
  advances : Advances (Tracker.hooks s.observer s.debugInfo? g) rs s.machine
    { hooks := s.tracker, lastPc := s.pc } m₁ p₁
  ends : (rs' = [] ∧ stop = b.exhausted ∧ m' = m₁ ∧ p' = p₁) ∨
    Round (Tracker.hooks s.observer s.debugInfo? g) m₁ p₁ rs' (some stop) m' p'

/-- A command runs nothing where the machine is not ready, and else rounds to an end. -/
theorem drive_ends (hd : s.drive b g = (r, s')) :
    (∃ stop, s.machine.stopped? = some stop ∧ r = { stop, lastPc := s.pc } ∧
        s' = s.conclude r) ∨
      (s.machine.state = .ready ∧ ∃ rs m₁ p₁ stop rs' m' p',
        RunsTo s b g rs m₁ p₁ stop rs' m' p' ∧ r = p'.result stop ∧
          s' = { s with machine := m', tracker := p'.hooks : Session }.conclude r) := by
  rcases hrun : s.machine.runWith b (Tracker.hooks s.observer s.debugInfo? g) s.tracker with
    ⟨r₀, m', tracker⟩
  simp only [drive, hrun] at hd
  cases hd
  rcases runWith_ends hrun with ⟨stop, hstopped, hr, rfl, rfl⟩ |
    ⟨hready, stop, p', rfl, hr, hrounds⟩
  · exact .inl ⟨stop, hstopped, hr, rfl⟩
  · obtain ⟨rs, m₁, p₁, hadvances, hend⟩ := rounds_ends hrounds
    refine .inr ⟨hready, rs, m₁, p₁, stop, ?_⟩
    rcases hend with ⟨-, rfl, rfl, rfl⟩ | ⟨-, rs', hround⟩
    · exact ⟨[], _, _, ⟨hadvances, .inl ⟨rfl, rfl, rfl, rfl⟩⟩, hr, rfl⟩
    · exact ⟨rs', _, _, ⟨hadvances, .inr hround⟩, hr, rfl⟩

/-- The rounds of a run retire what they say, and the run counts each instruction. -/
theorem RunsTo.ran {m₁ m' : Machine} {p₁ p' : Progress Tracker} {stop : Stop}
    (h : RunsTo s b g rs m₁ p₁ stop rs' m' p') (hready : s.machine.state = .ready) :
    (∃ n, Retires (rs ++ rs') s.machine.unrequested n ∧ LeftAs n m') ∧
      p'.steps = (rs ++ rs').length := by
  obtain ⟨hran, hready'⟩ := h.advances.ran hready
  rcases h.ends with ⟨rfl, -, rfl, rfl⟩ | hround
  · rw [List.append_nil]
    exact ⟨hran.leaves, by simpa using hran.steps⟩
  · have hall := hran.trans (hround.ran hready').1
    exact ⟨hall.leaves, by simpa using hall.steps⟩

end Session
end WordMachine
