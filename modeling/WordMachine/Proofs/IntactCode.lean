import WordMachine.Proofs.Execution
import WordMachine.Proofs.LoadedImage
import WordMachine.Proofs.MemoryFrame
import WordMachine.Proofs.Retirement

/-!
# WordMachine.Proofs.IntactCode

Code that nobody writes to stays what was linked. `Machine.Undisturbed` relates two machines between
which anything may have happened but a write to the code, a run among other things
(`Machine.Undisturbed.runWith`). What was loaded stays where it was
(`Machine.Undisturbed.intact`), so every step at an instruction of the program carries out that
instruction, as long as the program was linked at a multiple of the word size
(`Machine.step_linked`). Linking and loading do not see to that (`Machine.exists_misaligned_load`).
-/

namespace WordMachine

open Outcome

namespace Program

/-- Whether none of `n` bytes at an address belongs to the code. -/
def Spares (q : Program) (a : Word) (n : Nat) : Prop :=
  ∀ e ∈ q.code, ∀ b, e.address = some b → ∀ j, b.toNat ≤ j → j < b.toNat + Word.size →
    j < a.toNat ∨ a.toNat + n ≤ j

/-- Whether the word of every entry is in memory at the address of the entry. -/
def CodeIn (q : Program) (m : Memory) : Prop :=
  ∀ e ∈ q.code, ∃ a w, e.address = some a ∧ e.HasWord .standard w ∧ m.readWord a = .ok w

theorem CodeIn.put {q : Program} {m : Memory} {a : Word} {data : List Byte} (h : q.CodeIn m)
    (ha : m.base.toNat ≤ a.toNat) (hs : q.Spares a data.length) : q.CodeIn (m.put a data) := by
  intro e he
  obtain ⟨b, w, hb, hw, hread⟩ := h e he
  refine ⟨b, w, hb, hw, ?_⟩
  rw [Memory.readWord, Memory.read_put ha (hs e he b hb)]
  exact hread

end Program

namespace StepReport

/-- Whether the instruction wrote nothing to the code. -/
def Spares (r : StepReport) (q : Program) : Prop :=
  ∀ x, r.access = some x → x.direction = .write → q.Spares x.address x.size

end StepReport

namespace Machine

variable {q : Program} {m n n' : Machine} {rs : List StepReport}

/-- From the first machine to the second lead instructions, writes to registers and memory, entries,
resets, stops and requests to stop, in any order, none of which writes to the code. -/
inductive Undisturbed (q : Program) (m : Machine) : Machine → Prop where
  | refl : Undisturbed q m m
  | step {n : Machine} (h : Undisturbed q m n) (hs : ∀ r, n.step.1 = .ok r → r.Spares q) :
      Undisturbed q m n.step.2
  | turn {n : Machine} (h : Undisturbed q m n) (state : RunState) (stopRequested : Bool) :
      Undisturbed q m { n with state, stopRequested }
  | writeRegister {n : Machine} (h : Undisturbed q m n) (x : Register) (w : Word) :
      Undisturbed q m (n.writeRegister x w)
  | writeMemory {n n' : Machine} {a : Word} {bytes : List Byte} (h : Undisturbed q m n)
      (hw : n.writeMemory a bytes = .ok n') (hs : q.Spares a bytes.length) : Undisturbed q m n'
  | enterAt {n : Machine} (h : Undisturbed q m n) (a : Word) : Undisturbed q m (n.enterAt a)
  | reset {n : Machine} (h : Undisturbed q m n) : Undisturbed q m n.reset

/-! ## Runs -/

theorem Undisturbed.retires (h : Undisturbed q m n) (hret : Retires rs n n')
    (hs : ∀ r ∈ rs, r.Spares q) : Undisturbed q m n' := by
  induction hret with
  | nil => exact h
  | cons _ _ hstep _ ih =>
    rw [List.forall_mem_cons] at hs
    refine ih ?_ hs.2
    have hnext := h.step (fun r hr => by rw [hstep] at hr; cases hr; exact hs.1)
    rw [hstep] at hnext
    exact hnext

theorem Undisturbed.leftAs (h : Undisturbed q m n) (hleft : LeftAs n n') : Undisturbed q m n' := by
  have hsame : n' = { n with state := n'.state, stopRequested := n'.stopRequested } := by
    have := hleft.settled
    cases n'; cases n
    simp only [settled, mk.injEq] at this ⊢
    simp [this]
  rw [hsame]
  exact h.turn _ _

/-- A run that retires no instruction that writes to the code. -/
theorem Undisturbed.runWith {σ : Type} {b : Budget} {hooks : Hooks σ} {x x' : σ}
    {result : RunResult} (h : Undisturbed q m n) (hr : n.runWith b hooks x = (result, n', x'))
    (hs : ∀ rs n₁, Retires rs n.unrequested n₁ → rs.length = result.steps → ∀ r ∈ rs, r.Spares q) :
    Undisturbed q m n' := by
  obtain ⟨rs, ⟨n₁, hret, hleft⟩, hsteps, -⟩ := runWith_leaves hr
  exact ((h.turn n.state false).retires hret (hs rs n₁ hret hsteps.symm)).leftAs hleft

/-! ## What stays -/

/-- The code is in memory, and would be after a reset. -/
structure Intact (q : Program) (n : Machine) : Prop where
  instructions : n.instructions = .standard
  memory : q.CodeIn n.memory
  image : q.CodeIn n.image

theorem Intact.step (h : Intact q n) (hs : ∀ r, n.step.1 = .ok r → r.Spares q) :
    Intact q n.step.2 := by
  rcases hstep : n.step with ⟨f | r, n'⟩
  · rw [step_error hstep]
    exact ⟨h.instructions, h.memory, h.image⟩
  · obtain ⟨op, e, heffect, -, rfl, rfl⟩ := step_ok hstep
    refine ⟨h.instructions, ?_, h.image⟩
    rcases hwrite : e.memoryWrite with _ | w
    · simpa only [retire, Effect.updateMemory, hwrite] using h.memory
    · obtain ⟨_, i, o, -, -, -, -, hoperation⟩ := fetch_of_nextEffect heffect
      obtain ⟨hin, haccess⟩ := Effect.access_of_ofOperation hoperation hwrite
      have hspares : q.Spares w.address w.bytes.length := by
        rw [w.length_bytes]
        refine hs (report n.registers.pc op e) ?_ _ haccess rfl
        rw [hstep]
      simpa only [retire, Effect.updateMemory, hwrite] using h.memory.put hin.1 hspares

theorem Undisturbed.intact (h : Undisturbed q m n) (hm : Intact q m) : Intact q n := by
  induction h with
  | refl => exact hm
  | step _ hs ih => exact ih.step hs
  | turn _ _ _ ih => exact ⟨ih.instructions, ih.memory, ih.image⟩
  | writeRegister _ _ _ ih => exact ⟨ih.instructions, ih.memory, ih.image⟩
  | writeMemory _ hw hs ih =>
    simp only [Machine.writeMemory, Memory.write, bind_ok_iff, pure_ok_iff] at hw
    obtain ⟨memory, hmemory, rfl⟩ := hw
    split at hmemory
    · rename_i hin
      cases hmemory
      exact ⟨ih.instructions, ih.memory.put hin.1 hs, ih.image⟩
    · cases hmemory
  | enterAt _ _ ih => exact ⟨ih.instructions, ih.memory, ih.image⟩
  | reset _ ih => exact ⟨ih.instructions, ih.image, ih.image⟩

/-! ## From linking on -/

variable {p : Program} {rules : PlacementRules} {settings : MachineSettings}

theorem stride_of_load {map : MemoryMap} (hplaced : Program.PlacedBy rules map q)
    (hload : load q .standard settings = .ok m) : map.stride.toNat = Word.size := by
  simp only [load, bind_ok_iff] at hload
  obtain ⟨map', hmap, -⟩ := hload
  simp only [Image.mapOf, hplaced.memoryMap] at hmap
  split at hmap
  · assumption
  · cases hmap

theorem intact_of_load (hforms : ∀ e ∈ p.code, e.text.isSome ∨ e.instruction.isSome)
    (hlink : p.link .standard rules = .ok q) (hload : load q .standard settings = .ok m) :
    Intact q m := by
  obtain ⟨map, hplaced⟩ := Program.placedBy_of_link hlink
  have hstride := stride_of_load hplaced hload
  have hloaded := hload
  simp only [load, bind_ok_iff, pure_ok_iff] at hloaded
  obtain ⟨map', -, image, -, rfl⟩ := hloaded
  have hwords := Program.hasWord_of_link hlink hforms
  have hcode : q.CodeIn image := by
    rcases load_lays settings hplaced hstride hwords with ⟨_, _, hlarge⟩ | ⟨m', hload', hlays⟩
    · rw [hload] at hlarge
      cases hlarge
    · rw [hload] at hload'
      cases hload'
      intro e he
      obtain ⟨k, hk⟩ := List.getElem?_of_mem he
      obtain ⟨w, hw⟩ := hwords e he
      obtain ⟨a, ha, hread⟩ := hlays.readWord hk hw
      exact ⟨a, w, ha, hw, hread⟩
  exact ⟨rfl, hcode, hcode⟩

/-- An instruction of a linked program lies at a multiple of the word size if the first one does. -/
theorem aligned_of_link (hlink : p.link .standard rules = .ok q)
    (hload : load q .standard settings = .ok m) {e : CodeEntry} {a : Word} (he : e ∈ q.code)
    (ha : e.address = some a) : a.toNat % Word.size = rules.base.toNat % Word.size := by
  obtain ⟨map, hplaced⟩ := Program.placedBy_of_link hlink
  obtain ⟨k, hk⟩ := List.getElem?_of_mem he
  obtain ⟨a', ha', hat⟩ := hplaced.code k e hk
  cases ha.symm.trans ha'
  rw [hat, stride_of_load hplaced hload, hplaced.plan.base, Nat.add_mul_mod_self_right]

/-- **Loaded code runs as linked.** As long as nothing is written to the code, a step at an
instruction of a program that came as text or instructions carries out that instruction: it is
fetched and decoded, and only executing it can raise a trap. All this holds for a program that was
linked at a multiple of the word size; at another base every such step is a misaligned fetch. -/
theorem step_linked (hforms : ∀ e ∈ p.code, e.text.isSome ∨ e.instruction.isSome)
    (hlink : p.link .standard rules = .ok q) (hload : load q .standard settings = .ok m)
    (hrun : Undisturbed q m n) {e : CodeEntry} (he : e ∈ q.code)
    (hpc : e.address = some n.registers.pc) :
    ∃ i o, e.instruction = some i ∧ Operation.ofInstruction? i = some o ∧
      (Word.size ∣ rules.base.toNat →
        (∃ w, n.memory.readWord n.registers.pc = .ok w ∧ n.instructions.operation w = .ok (i, o)) ∧
          n.step = n.carryOut i.opcode o ∧ ∀ f, n.step.1 = .error f → f.trap.OfExecution) ∧
      (¬ Word.size ∣ rules.base.toNat →
        n.step = (.error ⟨.misalignedFetch n.registers.pc, n.registers.pc⟩,
          n.latch ⟨.misalignedFetch n.registers.pc, n.registers.pc⟩)) := by
  have hintact := hrun.intact (intact_of_load hforms hlink hload)
  have haligned := aligned_of_link hlink hload he hpc
  obtain ⟨_, x, i, w, _, hx, hi, hw, _, hfields⟩ := Program.agrees_of_link hlink hforms e he
  obtain ⟨o, ho⟩ := InstructionSet.operation_of_toFields hfields hw
  obtain ⟨a, w', ha, ⟨x', hx', hw'⟩, hread⟩ := hintact.memory e he
  cases hpc.symm.trans ha
  cases hx.symm.trans hx'
  cases hw.symm.trans hw'
  rw [← hintact.instructions] at ho
  refine ⟨i, o, hi, (InstructionSet.operation_ok_iff.1 ho).2, fun hbase => ?_, fun hbase => ?_⟩
  · rw [Nat.mod_eq_zero_of_dvd hbase] at haligned
    have hstep := step_of_fetch haligned hread ho
    refine ⟨⟨w, hread, ho⟩, hstep, fun f hf => ?_⟩
    rw [hstep] at hf
    exact trap_of_carryOut hf
  · refine step_of_misaligned ?_
    rw [haligned]
    exact mt Nat.dvd_of_mod_eq_zero hbase

/-- A program that writes to its stack and halts. -/
def pushing : Program where
  fileName := "unit.o"
  code := [{ text := some "push lr" }, { instruction := some ⟨.halt, []⟩ }]

/-- After the write, the second instruction is as it was linked. -/
theorem step_linked_pushing : ∃ q m n, pushing.link .standard {} = .ok q ∧
    load q .standard { stackSize := 8 } = .ok m ∧ (m.run (.steps 1)).2 = n ∧
      n.memory ≠ m.memory ∧ n.step = n.carryOut .halt .halt := by
  obtain ⟨q, m, e, hlink, hload, hcode, haccess, ⟨hsteps, hchanged⟩, he, hi, hpc⟩ : ∃ q m e,
      pushing.link .standard {} = .ok q ∧ load q .standard { stackSize := 8 } = .ok m ∧
      (∀ e ∈ q.code, e.address = some 0x1000 ∨ e.address = some 0x1004) ∧
      m.unrequested.step.1.toOption.bind (·.access) = some ⟨0x100C, 4, .write⟩ ∧
      ((m.run (.steps 1)).1.steps = 1 ∧ (m.run (.steps 1)).2.memory ≠ m.memory) ∧
      e ∈ q.code ∧ e.instruction = some ⟨.halt, []⟩ ∧
      e.address = some (m.run (.steps 1)).2.registers.pc :=
    ⟨_, _, _, rfl, rfl, by decide +kernel, by decide +kernel, by decide +kernel,
      List.mem_cons_of_mem _ List.mem_cons_self, rfl, by decide +kernel⟩
  have hrun : Undisturbed q m (m.run (.steps 1)).2 := by
    have hr : m.runWith (.steps 1) Hooks.none () =
        ((m.run (.steps 1)).1, (m.run (.steps 1)).2, ()) := rfl
    refine Undisturbed.refl.runWith hr fun rs n₁ hret hlen r hmem => ?_
    obtain ⟨r', rfl⟩ := List.length_eq_one_iff.1 (hlen.trans hsteps)
    cases List.mem_singleton.1 hmem
    cases hret with
    | cons _ _ hstep _ =>
      rw [hstep] at haccess
      intro x hx _ e' he' a ha j _ hj
      cases hx.symm.trans haccess
      have hlow : a.toNat ≤ 0x1004 := by
        rcases hcode e' he' with h | h <;> cases ha.symm.trans h <;> decide
      have hsize : Word.size = 4 := rfl
      exact .inl (show j < 0x100C by omega)
  obtain ⟨i, o, hi', ho, haligned, -⟩ := step_linked (by decide) hlink hload hrun he hpc
  cases hi.symm.trans hi'
  cases ho
  exact ⟨q, m, _, hlink, hload, rfl, hchanged, (haligned (by decide)).2.1⟩

/-- A program is linked at any base, and loaded there, and cannot run. -/
theorem exists_misaligned_load : ∃ q m f,
    pushing.link .standard { base := 0x1002 } = .ok q ∧
      load q .standard { stackSize := 8 } = .ok m ∧
      q.code.head?.bind (·.address) = some m.registers.pc ∧ m.step.1 = .error f ∧
      f.trap = .misalignedFetch 0x1002 :=
  ⟨_, _, _, rfl, rfl, by decide +kernel, rfl, by decide +kernel⟩

end Machine
end WordMachine
