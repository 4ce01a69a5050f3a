import WordMachine.Proofs.Goals
import WordMachine.Proofs.OpenCalls

/-!
# WordMachine.Proofs.Returning

Stepping out of functions and over calls. A run whose goal is that a call be returned from
(`Goal.Closes`) keeps the calls up to it open, whatever it calls and wherever it jumps, until the
first instruction that leaves fewer of them (`Goal.Misses.keeps`). That one is a jump to where one
of them comes back to (`CallStack.observe_unwinds`), so that the run stands behind a call.

`Session.steps_return` says this of both commands. That an instruction goes to where its transfer
says, and a call comes back to the next instruction, is a matter of the machine
(`Machine.leads_of_step`).
-/

namespace WordMachine

open Outcome

/-! ## How control leaves an instruction -/

namespace Operation

/-- Whether the operation records a return address. -/
def isCall : Operation → Bool
  | call _ | callTo _ => true
  | _ => false

theorem isCall_of_ofInstruction? {i : Instruction} {o : Operation} (h : ofInstruction? i = some o) :
    i.opcode.isCall = o.isCall := by
  obtain ⟨op, xs⟩ := i
  cases op <;> simp [ofInstruction?, alu?, load?, store?, Option.bind_eq_some_iff] at h
  all_goals grind [isCall, Opcode.isCall]

end Operation

namespace Effect

variable {e : Effect} {r : RegisterFile} {m : Memory} {op : Operation} {a : Word} {x : Register}

/-- Whether the effect leaves the instruction by no transfer or by a jump to the instruction to
come. -/
def GoesOn (e : Effect) : Prop := e.transfer = none ∨ e.transfer = some (.jump e.nextPc)

theorem goesOn_advance (pc : Word) : (advance pc).GoesOn := .inl rfl

theorem goesOn_jumpTo : (e.jumpTo a).GoesOn := .inr rfl

theorem GoesOn.writeRegister (h : e.GoesOn) : (e.writeRegister x a).GoesOn := by
  unfold Effect.writeRegister
  split
  · exact goesOn_jumpTo
  · exact h

theorem GoesOn.writeMemory {width : Width} {value : Word} {e' : Effect} (h : e.GoesOn)
    (hwrite : e.writeMemory m a value width = .ok e') : e'.GoesOn := by
  simp only [Effect.writeMemory] at hwrite
  split at hwrite
  · cases hwrite
    exact h
  · cases hwrite

theorem transfer_of_call (h : changes r m op = .ok e) (hcall : op.isCall = true) :
    e.transfer = some (.call e.nextPc (r.pc + 4)) := by
  cases op with
  | call | callTo =>
    cases h
    rfl
  | _ => cases hcall

theorem goesOn_of_changes (h : changes r m op = .ok e) (hcall : op.isCall = false) : e.GoesOn := by
  have hnext := goesOn_advance r.pc
  cases op with
  | call | callTo => cases hcall
  | nop | halt =>
    cases h
    exact hnext
  | jump | jumpTo =>
    cases h
    exact goesOn_jumpTo
  | jumpIf condition mask target =>
    cases h
    split
    · exact goesOn_jumpTo
    · exact hnext
  | mov | movLow | movHigh =>
    cases h
    exact hnext.writeRegister
  | alu | addImm | load =>
    simp only [changes, bind_ok_iff, pure_ok_iff] at h
    obtain ⟨_, -, rfl⟩ := h
    exact hnext.writeRegister
  | store source base offset width => exact hnext.writeMemory h
  | push source =>
    simp only [changes, bind_ok_iff, pure_ok_iff] at h
    obtain ⟨e', he', rfl⟩ := h
    exact (hnext.writeMemory he').writeRegister
  | pop target =>
    simp only [changes, bind_ok_iff, pure_ok_iff] at h
    obtain ⟨_, -, rfl⟩ := h
    exact hnext.writeRegister.writeRegister

end Effect

namespace StepReport

/-- Whether the instruction leads to where its transfer says: a call to its target, with the way
back to the next instruction, and any other instruction without a transfer or by a jump. -/
structure Leads (r : StepReport) : Prop where
  call : r.opcode.isCall = true → r.transfer = some (.call r.nextPc (r.pc + 4))
  other : r.opcode.isCall = false → r.transfer = none ∨ r.transfer = some (.jump r.nextPc)

theorem Leads.nextPc {r : StepReport} {target : Word} (h : r.Leads)
    (ht : r.transfer = some (.jump target)) : r.nextPc = target := by
  cases hcall : r.opcode.isCall with
  | true => cases ht.symm.trans (h.call hcall)
  | false =>
    rcases h.other hcall with hnone | hjump
    · cases ht.symm.trans hnone
    · cases ht.symm.trans hjump
      rfl

end StepReport

namespace Machine

variable {m m' n : Machine} {r : StepReport} {rs : List StepReport}

theorem leads_of_step (hs : m.step = (.ok r, m')) : r.Leads := by
  obtain ⟨op, e, heffect, -, rfl, -⟩ := step_ok hs
  obtain ⟨w, i, o, e', -, -, hmeant, rfl, he', rfl⟩ := changes_of_nextEffect heffect
  have hsame := Operation.isCall_of_ofInstruction? hmeant
  exact
    { call := fun hcall => Effect.transfer_of_call he' (hsame.symm.trans hcall)
      other := fun hcall => Effect.goesOn_of_changes he' (hsame.symm.trans hcall) }

theorem Retires.leads (h : Retires rs m n) : ∀ x ∈ rs, x.Leads := by
  induction h with
  | nil => simp
  | cons _ _ hstep _ ih => exact List.forall_mem_cons.2 ⟨leads_of_step hstep, ih⟩

end Machine

/-! ## Calls that stay open -/

namespace CallStack

variable {calls outer : CallStack} {pc : Word} {t : Option Transfer}

/-- An instruction keeps the open calls, or it is a jump to where one of them comes back to and
keeps those outside it. -/
theorem observe_ends (calls : CallStack) (pc : Word) (t : Option Transfer) :
    calls <:+ calls.observe pc t ∨
      ∃ c, t = some (.jump c.returnAddress) ∧ c :: calls.observe pc t <:+ calls := by
  cases t with
  | none => exact .inl List.suffix_rfl
  | some t =>
    cases t with
    | call target back => exact .inl (List.suffix_cons _ _)
    | jump target =>
      rcases calls.afterJump_ends target with ⟨inner, c, hsplit, rfl, -⟩ | ⟨hsame, -⟩
      · exact .inr ⟨c, rfl, inner, hsplit.symm⟩
      · rw [observe, hsame]
        exact .inl List.suffix_rfl

/-- An instruction that leaves as many calls open leaves the outer ones open. -/
theorem observe_keeps (h : outer <:+ calls) (hdepth : outer.depth ≤ (calls.observe pc t).depth) :
    outer <:+ calls.observe pc t := by
  rcases calls.observe_ends pc t with hkept | ⟨c, -, hunwound⟩
  · exact h.trans hkept
  · have hrest := (List.suffix_cons c _).trans hunwound
    exact List.suffix_of_suffix_length_le h hrest hdepth

/-- An instruction that leaves fewer calls open comes back from one of the outer ones. -/
theorem observe_unwinds (h : outer <:+ calls) (hdepth : (calls.observe pc t).depth < outer.depth) :
    ∃ c, t = some (.jump c.returnAddress) ∧ c :: calls.observe pc t <:+ outer := by
  rcases calls.observe_ends pc t with hkept | ⟨c, ht, hunwound⟩
  · exact absurd (h.trans hkept).length_le (Nat.not_le.2 hdepth)
  · exact ⟨c, ht, List.suffix_of_suffix_length_le hunwound h hdepth⟩

theorem depth_observe_lt_iff {r : StepReport} (hr : r.Leads) :
    calls.depth < (calls.observe r.pc r.transfer).depth ↔ r.opcode.isCall = true := by
  refine ⟨fun hdepth => ?_, fun hcall => ?_⟩
  · by_contra hcall
    rcases hr.other (Bool.eq_false_of_not_eq_true hcall) with hnone | hjump
    · simp [hnone, observe] at hdepth
    · rcases calls.afterJump_ends r.nextPc with ⟨inner, c, hsplit, -, -⟩ | ⟨hsame, -⟩
      · have hlength := congrArg List.length hsplit
        simp only [hjump, observe, depth, List.length_append, List.length_cons] at hdepth hlength
        omega
      · simp [hjump, observe, hsame] at hdepth
  · simp [hr.call hcall, observe, depth]

end CallStack

namespace Goal

variable {g : Goal} {line? : Word → Option SourceLocation} {calls calls' outer : CallStack}
  {rs : List StepReport} {x : StepReport}

/-- Whether the goal is that the innermost of these calls be returned from. -/
def Closes (g : Goal) (outer : CallStack) : Prop := ∀ n l, g.reached n l = true ↔ n < outer.depth

theorem closes_below (outer : CallStack) : (below outer.depth).Closes outer :=
  fun _ _ => decide_eq_true_iff

theorem closes_atMost (c : CallRecord) (outer : CallStack) :
    (atMost outer.depth).Closes (c :: outer) :=
  fun _ _ => decide_eq_true_iff.trans Nat.lt_succ_iff.symm

/-- As long as the goal is missed, the calls are open. -/
theorem Misses.keeps (hg : g.Closes outer) (h : g.Misses line? calls rs calls')
    (houter : outer <:+ calls) : outer <:+ calls' := by
  induction h with
  | nil => exact houter
  | cons hmiss _ ih =>
    have hdepth := mt (hg _ _).2 (Bool.not_eq_true _ ▸ hmiss)
    exact ih (CallStack.observe_keeps houter (Nat.not_lt.1 hdepth))

/-- The instruction that reaches the goal comes back from one of the calls. -/
theorem Misses.unwinds (hg : g.Closes outer) (h : g.Misses line? calls rs calls')
    (houter : outer <:+ calls) (hx : g.reachedBy line? calls' x = true) (hleads : x.Leads) :
    ∃ c, x.nextPc = c.returnAddress ∧ c :: calls'.observe x.pc x.transfer <:+ outer := by
  obtain ⟨c, htransfer, hunwound⟩ :=
    CallStack.observe_unwinds (h.keeps hg houter) ((hg _ _).1 hx)
  exact ⟨c, hleads.nextPc htransfer, hunwound⟩

end Goal

/-! ## Stepping out and over -/

namespace Session

open Machine

variable {s s' : Session} {r : RunResult} {rs : List StepReport}

/-- The open calls, the outermost first. -/
def openCalls (s : Session) : List CallRecord := s.tracker.calls.reverse

/-- Whether one of the calls that are open in the first session has been returned from in the
second: control is where that call comes back to, and the calls outside it are open. -/
def ReturnedFrom (s s' : Session) : Prop :=
  ∃ j, ∃ hj : j < s.openCalls.length,
    s'.pc = s.openCalls[j].returnAddress ∧ s'.openCalls = s.openCalls.take j

theorem returnedFrom_of_suffix {c : CallRecord} (hpc : s'.pc = c.returnAddress)
    (h : c :: s'.tracker.calls <:+ s.tracker.calls) : s.ReturnedFrom s' := by
  obtain ⟨inner, hsplit⟩ := h
  have hcalls : s.openCalls = s'.openCalls ++ c :: inner.reverse := by
    simp [openCalls, ← hsplit]
  refine ⟨s'.openCalls.length, by simp [hcalls], ?_, ?_⟩
  · simp [hcalls, hpc]
  · simp [hcalls]

theorem Retired.leads (h : Retired rs s s') : ∀ x ∈ rs, x.Leads := by
  obtain ⟨n, hret, -⟩ := h
  exact hret.leads

theorem stepOut_returns (hs : s.stepOut = (r, s')) (hstop : r.stop = .stepComplete) :
    s.ReturnedFrom s' := by
  obtain ⟨rs, x, calls, hretired, -, hmisses, hreached, hcalls⟩ :=
    drive_completes (by simp [Budget.run]) hs hstop
  obtain ⟨c, hpc, hunwound⟩ := hmisses.unwinds (Goal.closes_below _) List.suffix_rfl hreached
    (hretired.leads x (by simp))
  rw [← hcalls] at hunwound
  exact returnedFrom_of_suffix ((hretired.pc_last List.getLast?_concat).trans hpc) hunwound

theorem stepOver_returns (hs : s.stepOver = (r, s')) (hstop : r.stop = .stepComplete) :
    ∃ rs x, Retired rs s s' ∧ r.steps = rs.length ∧ rs.head? = some x ∧
      (x.opcode.isCall = false ∧ rs = [x] ∨
        x.opcode.isCall = true ∧
          (s'.pc = x.pc + 4 ∧ s'.openCalls = s.openCalls ∨ s.ReturnedFrom s')) := by
  obtain ⟨rs, x, calls, hretired, hsteps, hmisses, hreached, hcalls⟩ :=
    drive_completes (by simp [Budget.run]) hs hstop
  have hleads := hretired.leads
  cases hmisses with
  | nil =>
    -- The first instruction leaves no more calls open than there were.
    refine ⟨[x], x, hretired, hsteps, rfl, .inl ⟨?_, rfl⟩⟩
    rw [Bool.eq_false_iff, Ne, ← CallStack.depth_observe_lt_iff (hleads x (by simp)), Nat.not_lt]
    exact of_decide_eq_true hreached
  | @cons _ _ y rs hmiss hrest =>
    have hcall : y.opcode.isCall = true := by
      rw [← CallStack.depth_observe_lt_iff (hleads y (by simp)), ← Nat.not_le]
      exact of_decide_eq_false hmiss
    refine ⟨y :: (rs ++ [x]), y, hretired, hsteps, rfl, .inr ⟨hcall, ?_⟩⟩
    -- From there on it is a run until the call of the first instruction is returned from.
    rw [(hleads y (by simp)).call hcall] at hrest
    obtain ⟨c, hpc, hunwound⟩ := hrest.unwinds (Goal.closes_atMost _ _) List.suffix_rfl hreached
      (hleads x (by simp))
    rw [← hcalls] at hunwound
    have hpc' := (hretired.pc_last (List.getLast?_concat (l := y :: rs))).trans hpc
    rcases List.suffix_cons_iff.1 hunwound with hsame | houtside
    · obtain ⟨rfl, hcalls'⟩ := List.cons.inj hsame
      exact .inl ⟨hpc', congrArg List.reverse hcalls'⟩
    · exact .inr (returnedFrom_of_suffix hpc' houtside)

/-- **A completed step out or over stands behind a call.** Whatever the calls, the points and the
observer are, a step out that completes has returned from one of the open calls, and left exactly
those outside it open. A step over that completes is one instruction other than a call; or it is a
call, and either control is behind it with the same calls open as before, or one of those has been
returned from. -/
theorem steps_return (s : Session) :
    (∃ r s' rs, s.perform .stepOut = (some r, s') ∧ s.Retired rs s' ∧ r.steps = rs.length ∧
      (r.stop = .stepComplete → s.ReturnedFrom s')) ∧
    ∃ r s' rs, s.perform .stepOver = (some r, s') ∧ s.Retired rs s' ∧ r.steps = rs.length ∧
      (r.stop = .stepComplete → ∃ x, rs.head? = some x ∧
        (x.opcode.isCall = false ∧ rs = [x] ∨
          x.opcode.isCall = true ∧
            (s'.pc = x.pc + 4 ∧ s'.openCalls = s.openCalls ∨ s.ReturnedFrom s'))) := by
  constructor
  · rcases hs : s.stepOut with ⟨r, s'⟩
    obtain ⟨⟨rs, hreports⟩, -⟩ := drive_reports hs
    exact ⟨r, s', rs, by rw [perform, hs, ran], hreports.retired, hreports.steps,
      stepOut_returns hs⟩
  · rcases hs : s.stepOver with ⟨r, s'⟩
    have hperform : s.perform .stepOver = (some r, s') := by rw [perform, hs, ran]
    by_cases hstop : r.stop = .stepComplete
    · obtain ⟨rs, x, hretired, hsteps, hx, hreturns⟩ := stepOver_returns hs hstop
      exact ⟨r, s', rs, hperform, hretired, hsteps, fun _ => ⟨x, hx, hreturns⟩⟩
    · obtain ⟨⟨rs, hreports⟩, -⟩ := drive_reports hs
      exact ⟨r, s', rs, hperform, hreports.retired, hreports.steps, fun h => absurd h hstop⟩

/-- A function that saves its return address and calls another one, and the call of it. -/
def nested : Program where
  fileName := "unit.o"
  code := [
    { address := some 0x1000, fields := some ⟨.callImm, [0x1008]⟩ },
    { address := some 0x1004, fields := some ⟨.halt, []⟩ },
    { address := some 0x1008, fields := some ⟨.push, [11]⟩ },
    { address := some 0x100C, fields := some ⟨.callImm, [0x1014]⟩ },
    { address := some 0x1010, fields := some ⟨.pop, [12]⟩ },
    { address := some 0x1014, fields := some ⟨.jmp, [11]⟩ }]
  memoryMap := some ⟨0x1000, 0x1000, 24, 0x1018, 0, 24, 4⟩

/-- At the inner call a step over comes back behind it, and a step out behind the outer one. -/
theorem steps_return_nested : ∃ m s r s' rs r₁ s₁ rs₁ x,
    Machine.load nested .standard { stackSize := 8 } = .ok m ∧
      (Session.performAll { machine := m } [.step 2]).2 = s ∧
      s.openCalls = [⟨0x1000, 0x1008, 0x1004⟩] ∧
      s.perform .stepOut = (some r, s') ∧ r.stop = .stepComplete ∧ s.Retired rs s' ∧
      rs.length = 3 ∧ s.ReturnedFrom s' ∧
      s.perform .stepOver = (some r₁, s₁) ∧ r₁.stop = .stepComplete ∧ s.Retired rs₁ s₁ ∧
      rs₁.length = 2 ∧ rs₁.head? = some x ∧ x.opcode.isCall = true ∧
      (s₁.pc = x.pc + 4 ∧ s₁.openCalls = s.openCalls ∨ s.ReturnedFrom s₁) := by
  obtain ⟨m, s, hload, hs, hcalls, hout, hover⟩ : ∃ m s,
      Machine.load nested .standard { stackSize := 8 } = .ok m ∧
      (Session.performAll { machine := m } [.step 2]).2 = s ∧
      s.openCalls = [⟨0x1000, 0x1008, 0x1004⟩] ∧
      (s.perform .stepOut).1.map (fun r => (r.stop, r.steps)) = some (.stepComplete, 3) ∧
      (s.perform .stepOver).1.map (fun r => (r.stop, r.steps)) = some (.stepComplete, 2) :=
    ⟨_, _, rfl, rfl, by decide +kernel, by decide +kernel, by decide +kernel⟩
  obtain ⟨⟨r, s', rs, hperform, hretired, hsteps, hreturns⟩,
    ⟨r₁, s₁, rs₁, hperform₁, hretired₁, hsteps₁, hreturns₁⟩⟩ := steps_return s
  simp only [hperform, Option.map_some, Option.some.injEq, Prod.mk.injEq] at hout
  simp only [hperform₁, Option.map_some, Option.some.injEq, Prod.mk.injEq] at hover
  have hlength := hsteps₁.symm.trans hover.2
  obtain ⟨x, hx, ⟨-, rfl⟩ | ⟨hcall, hbehind⟩⟩ := hreturns₁ hover.1
  · cases hlength
  · exact ⟨m, s, r, s', rs, r₁, s₁, rs₁, x, hload, hs, hcalls, hperform, hout.1, hretired,
      hsteps.symm.trans hout.2, hreturns hout.1, hperform₁, hover.1, hretired₁, hlength, hx, hcall,
      hbehind⟩

end Session
end WordMachine
