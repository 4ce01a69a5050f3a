import WordMachine.Proofs.PreciseFaults

/-!
# WordMachine.Proofs.DataFlow

The roles of operands say what an instruction depends on and what it changes. An operation sees no
registers but those of `Operation.reads`, the program counter and the flags
(`Effect.ofOperation_of_readsAlike`), and writes those of `Operation.writes`
(`Effect.registers_of_changes`). In the usual formats these are the operands with the roles of
source and destination, beside the stack pointer of `push` and `pop` and the link register of calls
(`Operation.flow_of_ofInstruction?`).

`Machine.step_follows_roles` says it of a step: what it may change, and that two machines that
agree on what the instruction reads take the same step.
-/

namespace WordMachine

open Outcome

/-! ## Roles -/

namespace Field

variable {n width : Nat}

@[simp] theorem role_source : (source n).role = .source := rfl

@[simp] theorem role_destination : (destination n).role = .destination := rfl

@[simp] theorem role_unsigned : (unsigned n width).role = .source := rfl

@[simp] theorem role_signed : (signed n width).role = .source := rfl

@[simp] theorem role_tied {f : Field} : f.tied.role = f.role := rfl

end Field

namespace Opcode

/-- The registers that an instruction reads without naming them. -/
def alsoReads : Opcode → List Register
  | push | pop => [.sp]
  | _ => []

/-- The registers that an instruction writes without naming them. -/
def alsoWrites : Opcode → List Register
  | call | callImm => [.lr]
  | push | pop => [.sp]
  | _ => []

/-- Whether the instruction calculates, and so sets flags. -/
def calculates : Opcode → Bool
  | add | addImm | sub | mul | div | mod | and | or | xor | shl | shr | asr | cmp => true
  | _ => false

end Opcode

namespace Instruction

/-- The registers at the operands with a role in the usual format, hidden ones included. -/
def registers (i : Instruction) (role : Role) : List Register :=
  (Format.standardFields i.opcode).zipIdx.filterMap fun (field, n) =>
    if field.role = role then i.register? n else none

/-- The registers that an instruction reads, apart from the program counter and the flags word. -/
def reads (i : Instruction) : List Register := i.registers .source ++ i.opcode.alsoReads

/-- The registers that an instruction writes, apart from the program counter and the flags. -/
def writes (i : Instruction) : List Register := i.opcode.alsoWrites ++ i.registers .destination

/-- Whether an instruction may change a register. -/
def MayChange (i : Instruction) (x : Register) : Prop :=
  x = .pc ∨ x ∈ i.writes ∨ x = .cpsr ∧ i.opcode.calculates = true

end Instruction

namespace Operation

variable {i : Instruction} {o : Operation} {x : Register} {n : Nat} {w : Word}

/-- The registers that an operation reads, apart from the program counter and the flags word. -/
def reads : Operation → List Register
  | mov source _ | movHigh _ _ source => [source]
  | alu _ left right _ => [left, right]
  | addImm left _ _ => [left]
  | jump target | call target => [target]
  | jumpIf condition _ target => [condition, target]
  | load base _ _ _ => [base]
  | store source base _ _ => [source, base]
  | push source => [source, .sp]
  | pop _ => [.sp]
  | nop | halt | movLow _ _ | jumpTo _ | callTo _ => []

/-- The registers that an operation writes, in this order, apart from the program counter and the
flags. -/
def writes : Operation → List Register
  | mov _ target | movLow _ target | movHigh _ target _ => [target]
  | alu _ _ _ target | addImm _ _ target | load _ _ target _ => [target]
  | call _ | callTo _ => [.lr]
  | push _ => [.sp]
  | pop target => [.sp, target]
  | nop | halt | jump _ | jumpTo _ | jumpIf _ _ _ | store _ _ _ _ => []

/-- Whether the operation sets flags. -/
def calculates : Operation → Bool
  | alu _ _ _ _ | addImm _ _ _ => true
  | _ => false

/-- An operand that is a number is no register. -/
theorem register?_eq_none (h : word? i n = some w) : i.register? n = none := by
  simp only [word?, Instruction.immediate?, Option.map_eq_some_iff, Option.bind_eq_some_iff] at h
  obtain ⟨v, ⟨x, hx, hv⟩, -⟩ := h
  cases x with
  | register r => cases hv
  | immediate v =>
    rw [Instruction.register?, hx]
    rfl

/-- An operation takes its registers from the operands with their roles. -/
theorem flow_of_ofInstruction? (h : ofInstruction? i = some o) :
    o.reads = i.reads ∧ o.writes = i.writes ∧ o.calculates = i.opcode.calculates := by
  obtain ⟨op, xs⟩ := i
  -- opcodes that take their operands alike are one case
  cases op
  all_goals simp only [ofInstruction?, alu?, load?, store?, Option.bind_eq_bind,
    Option.bind_eq_some_iff, Option.pure_def, Option.some.injEq] at h
  all_goals simp only [Instruction.reads, Instruction.writes, Instruction.registers,
    Format.standardFields, Opcode.alsoReads, Opcode.alsoWrites, Opcode.calculates]
  case nop | halt =>
    subst h
    exact ⟨rfl, rfl, rfl⟩
  case add | sub | mul | div | mod | and | or | xor | shl | shr | asr | cmp =>
    obtain ⟨a, ha, b, hb, c, hc, rfl⟩ := h
    simp [ha, hb, hc, reads, writes, calculates]
  case ldr | ldrb =>
    obtain ⟨a, ha, v, hv, b, hb, rfl⟩ := h
    simp [ha, hb, register?_eq_none hv, reads, writes, calculates]
  case str | strb =>
    obtain ⟨a, ha, b, hb, v, hv, rfl⟩ := h
    simp [ha, hb, register?_eq_none hv, reads, writes, calculates]
  case addImm =>
    obtain ⟨a, ha, v, hv, b, hb, rfl⟩ := h
    simp [ha, hb, register?_eq_none hv, reads, writes, calculates]
  case mov =>
    obtain ⟨a, ha, b, hb, rfl⟩ := h
    simp [ha, hb, reads, writes, calculates]
  case movImm16L =>
    obtain ⟨v, hv, a, ha, rfl⟩ := h
    simp [ha, register?_eq_none hv, reads, writes, calculates]
  case movImm16H =>
    obtain ⟨v, hv, a, ha, b, hb, rfl⟩ := h
    simp [ha, hb, register?_eq_none hv, reads, writes, calculates]
  case jmp | call | push | pop =>
    obtain ⟨a, ha, rfl⟩ := h
    simp [ha, reads, writes, calculates]
  case jmpImm | callImm =>
    obtain ⟨v, hv, rfl⟩ := h
    simp [register?_eq_none hv, reads, writes, calculates]
  case jcond =>
    obtain ⟨a, ha, v, hv, b, hb, rfl⟩ := h
    simp [ha, hb, register?_eq_none hv, reads, writes, calculates]

/-- Two register files that an operation cannot tell apart. -/
structure ReadsAlike (o : Operation) (r' r : RegisterFile) : Prop where
  pc : r'.pc = r.pc
  flags : r'.flags = r.flags
  reads : ∀ x ∈ o.reads, r'.get x = r.get x

end Operation

/-! ## Register files -/

namespace Flags

theorem getLsbD_toWord (f : Flags) : f.toWord.getLsbD 0 = f.zero ∧ f.toWord.getLsbD 1 = f.carry ∧
    f.toWord.getLsbD 2 = f.overflow ∧ f.toWord.getLsbD 3 = f.negative := by
  obtain ⟨n, z, c, v⟩ := f
  revert n z c v
  decide

/-- The flags are all that a flags word holds. -/
theorem toWord_ofWord (w : Word) : (ofWord w).toWord &&& wordMask = w &&& wordMask := by
  refine BitVec.eq_of_getLsbD_eq fun k _ => ?_
  have hmask : wordMask.getLsbD k = decide (k < 4) := Nat.testBit_two_pow_sub_one 4 k
  rw [BitVec.getLsbD_and, BitVec.getLsbD_and, hmask]
  by_cases hk : k < 4
  · obtain ⟨hzero, hcarry, hoverflow, hnegative⟩ := getLsbD_toWord (ofWord w)
    congr 1
    interval_cases k
    · exact hzero
    · exact hcarry
    · exact hoverflow
    · exact hnegative
  · simp only [hk, decide_false, Bool.and_false]

end Flags

namespace RegisterFile

variable {r r' : RegisterFile} {x y : Register} {w : Word}

/-- The flags word has no bits but those of flags. -/
def FlagsOnly (r : RegisterFile) : Prop := r.get .cpsr &&& Flags.wordMask = r.get .cpsr

instance (r : RegisterFile) : Decidable r.FlagsOnly := inferInstanceAs (Decidable (_ = _))

/-- Writing the flags back changes nothing. -/
theorem kept_toWord_flags (h : r.FlagsOnly) : kept .cpsr r.flags.toWord = r.get .cpsr :=
  (Flags.toWord_ofWord _).trans h

theorem get_set_congr (h : x = y ∨ r'.get x = r.get x) :
    (r'.set y w).get x = (r.set y w).get x := by
  by_cases hxy : y = x
  · subst hxy
    rw [get_set_self, get_set_self]
  · rw [get_set_of_ne _ _ hxy, get_set_of_ne _ _ hxy]
    exact h.resolve_left (Ne.symm hxy)

theorem FlagsOnly.congr (h : r.FlagsOnly) (hcpsr : r'.get .cpsr = r.get .cpsr) : r'.FlagsOnly := by
  rw [FlagsOnly, hcpsr, h]

/-- What is written last is there whatever was there before. -/
theorem get_foldl_set_congr :
    ∀ (ws : List (Register × Word)) {r' r : RegisterFile},
      x ∈ ws.map Prod.fst ∨ r'.get x = r.get x →
        (ws.foldl (fun r (y, w) => r.set y w) r').get x =
          (ws.foldl (fun r (y, w) => r.set y w) r).get x := by
  intro ws
  induction ws with
  | nil =>
    intro r' r h
    simpa using h
  | cons first ws ih =>
    intro r' r h
    obtain ⟨y, w⟩ := first
    rw [List.foldl_cons, List.foldl_cons]
    refine ih ?_
    rw [List.map_cons, List.mem_cons] at h
    rcases h with (rfl | h) | h
    · exact .inr (get_set_congr (.inl rfl))
    · exact .inl h
    · exact .inr (get_set_congr (.inr h))

theorem get_foldl_set_of_notMem :
    ∀ {ws : List (Register × Word)} {r : RegisterFile}, x ∉ ws.map Prod.fst →
      (ws.foldl (fun r (y, w) => r.set y w) r).get x = r.get x := by
  intro ws
  induction ws with
  | nil => intro r _; rfl
  | cons first ws ih =>
    intro r h
    obtain ⟨y, w⟩ := first
    rw [List.map_cons, List.mem_cons, not_or] at h
    rw [List.foldl_cons, ih h.2, get_set_of_ne _ _ (Ne.symm h.1)]

end RegisterFile

/-! ## Effects -/

namespace Effect

variable {r r' : RegisterFile} {m : Memory} {o : Operation} {e : Effect} {x : Register} {w : Word}
  {op : Opcode}

theorem changes_of_readsAlike (h : o.ReadsAlike r' r) :
    changes r' m o = changes r m o ∧ taken r' o = taken r o := by
  cases o with
  | nop | halt | movLow | jumpTo | callTo => simp only [changes, taken, h.pc, and_self]
  | mov | movHigh | addImm | jump | call | load =>
    have hfirst := h.reads _ (List.mem_singleton_self _)
    simp only [changes, taken, h.pc, h.flags, hfirst, and_self]
  | alu | store =>
    have hfirst := h.reads _ List.mem_cons_self
    have hsecond := h.reads _ (List.mem_cons_of_mem _ (List.mem_singleton_self _))
    simp only [changes, taken, h.pc, h.flags, hfirst, hsecond, and_self]
  | jumpIf condition mask target =>
    have hcondition := h.reads condition List.mem_cons_self
    have htarget := h.reads target (List.mem_cons_of_mem _ (List.mem_singleton_self _))
    have htaken : taken r' (.jumpIf condition mask target) =
        taken r (.jumpIf condition mask target) := by rw [taken, taken, hcondition]
    exact ⟨by rw [changes, changes, htaken, h.pc, htarget], htaken⟩
  | push =>
    have hsource := h.reads _ List.mem_cons_self
    have hsp := h.reads .sp (List.mem_cons_of_mem _ (List.mem_singleton_self _))
    simp only [changes, taken, RegisterFile.sp, h.pc, hsource, hsp, and_self]
  | pop =>
    have hsp := h.reads .sp (List.mem_singleton_self _)
    simp only [changes, taken, RegisterFile.sp, h.pc, hsp, and_self]

/-- What an operation sees is all that its effect depends on. -/
theorem ofOperation_of_readsAlike (h : o.ReadsAlike r' r) :
    ofOperation op o r' m = ofOperation op o r m := by
  obtain ⟨hchanges, htaken⟩ := changes_of_readsAlike (m := m) h
  rw [ofOperation, ofOperation, hchanges, htaken]

theorem registers_writeRegister : (e.writeRegister x w).registers.map Prod.fst =
    e.registers.map Prod.fst ++ [x].filter (· ≠ .pc) := by
  by_cases hpc : x = .pc
  · simp [writeRegister, hpc, jumpTo]
  · simp [writeRegister, hpc]

theorem flags_writeRegister : (e.writeRegister x w).flags = e.flags := by
  unfold writeRegister
  split <;> rfl

theorem registers_of_changes (h : changes r m o = .ok e) :
    e.registers.map Prod.fst = o.writes.filter (· ≠ .pc) ∧
      (o.calculates = false → e.flags = .none) := by
  cases o with
  | nop | halt | jump | jumpTo =>
    cases h
    exact ⟨rfl, fun _ => rfl⟩
  | jumpIf condition mask target =>
    cases h
    split <;> exact ⟨rfl, fun _ => rfl⟩
  | mov | movLow | movHigh =>
    cases h
    exact ⟨registers_writeRegister, fun _ => flags_writeRegister⟩
  | call | callTo =>
    cases h
    exact ⟨rfl, fun _ => rfl⟩
  | alu | addImm =>
    simp only [changes, bind_ok_iff, pure_ok_iff] at h
    obtain ⟨_, -, rfl⟩ := h
    exact ⟨registers_writeRegister, fun h => by cases h⟩
  | load =>
    simp only [changes, bind_ok_iff, pure_ok_iff] at h
    obtain ⟨_, -, rfl⟩ := h
    exact ⟨registers_writeRegister, fun _ => flags_writeRegister⟩
  | store source base offset width =>
    simp only [changes, writeMemory] at h
    split at h <;> cases h
    exact ⟨rfl, fun _ => rfl⟩
  | push source =>
    simp only [changes, writeMemory, bind_ok_iff, pure_ok_iff] at h
    obtain ⟨e', he', rfl⟩ := h
    split at he' <;> cases he'
    exact ⟨registers_writeRegister, fun _ => flags_writeRegister⟩
  | pop target =>
    simp only [changes, bind_ok_iff, pure_ok_iff] at h
    obtain ⟨_, -, rfl⟩ := h
    constructor
    · rw [registers_writeRegister, registers_writeRegister]
      rfl
    · intro _
      rw [flags_writeRegister, flags_writeRegister]
      rfl

/-- Registers that hold the same in two files, or that the effect writes, hold the same after it. -/
theorem get_commitRegisters_congr (hcpsr : r'.get .cpsr = r.get .cpsr)
    (hx : x = .pc ∨ x ∈ e.registers.map Prod.fst ∨ r'.get x = r.get x) :
    (e.commitRegisters r').get x = (e.commitRegisters r).get x := by
  have hflags := RegisterFile.get_foldl_set_congr e.registers (.inr hcpsr)
  simp only [commitRegisters, RegisterFile.flags, RegisterFile.setFlags, hflags]
  refine RegisterFile.get_set_congr (hx.imp_right fun hx => ?_)
  exact RegisterFile.get_set_congr (.inr (RegisterFile.get_foldl_set_congr e.registers hx))

/-- What an effect does not write stays. -/
theorem get_commitRegisters_of_notMem (hpc : x ≠ .pc) (hx : x ∉ e.registers.map Prod.fst)
    (hflags : x = .cpsr → e.flags = .none ∧ r.FlagsOnly) :
    (e.commitRegisters r).get x = r.get x := by
  have hfold := RegisterFile.get_foldl_set_of_notMem (r := r) hx
  by_cases hcpsr : x = .cpsr
  · subst hcpsr
    obtain ⟨hnone, honly⟩ := hflags rfl
    rw [commitRegisters, RegisterFile.get_set_of_ne _ _ (Ne.symm hpc), RegisterFile.setFlags,
      RegisterFile.get_set_self, hnone, FlagsChange.apply]
    exact (RegisterFile.kept_toWord_flags (honly.congr hfold)).trans hfold
  · rw [get_commitRegisters_of_ne hpc hcpsr, hfold]

end Effect

/-! ## Steps -/

namespace Machine

variable {m m' n n' : Machine} {i : Instruction} {o : Operation} {e : Effect} {op : Opcode}
  {x : Register} {r : StepReport}

/-- Whether the word at the program counter is this instruction. -/
def Fetches (m : Machine) (i : Instruction) : Prop :=
  ∃ w, m.memory.readWord m.registers.pc = .ok w ∧ m.instructions.decode w = .ok i

/-- Two machines that agree on what the instruction to come reads. -/
structure ReadsAlike (n m : Machine) : Prop where
  instructions : n.instructions = m.instructions
  memory : n.memory = m.memory
  pc : n.registers.pc = m.registers.pc
  cpsr : n.registers.get .cpsr = m.registers.get .cpsr
  reads : ∀ i, m.Fetches i → ∀ x ∈ i.reads, n.registers.get x = m.registers.get x

theorem ReadsAlike.flags (h : ReadsAlike n m) : n.registers.flags = m.registers.flags := by
  rw [RegisterFile.flags, RegisterFile.flags, h.cpsr]

theorem ReadsAlike.fetches (h : ReadsAlike n m) : n.Fetches i ↔ m.Fetches i := by
  rw [Fetches, Fetches, h.instructions, h.memory, h.pc]

theorem ReadsAlike.nextEffect (h : ReadsAlike n m) : n.nextEffect = m.nextEffect := by
  by_cases hpc : m.registers.pc.toNat % Word.size = 0
  · rcases hread : m.memory.readWord m.registers.pc with t | w
    · simp only [Machine.nextEffect, h.pc, h.memory, hread, error_bind]
    · rcases hop : m.instructions.operation w with t | ⟨i, o⟩
      · simp only [Machine.nextEffect, h.pc, h.memory, h.instructions, hread, hop, ok_bind,
          error_bind]
      · obtain ⟨hdecode, ho⟩ := InstructionSet.operation_ok_iff.1 hop
        have hreads : o.reads = i.reads := (Operation.flow_of_ofInstruction? ho).1
        have halike : o.ReadsAlike n.registers m.registers :=
          ⟨h.pc, h.flags, fun x hx => h.reads i ⟨w, hread, hdecode⟩ x (hreads ▸ hx)⟩
        rw [nextEffect_of_fetch hpc hread hop, nextEffect_of_fetch (h.pc ▸ hpc)
          (by rw [h.pc, h.memory, hread]) (by rw [h.instructions, hop]), h.memory,
          Effect.ofOperation_of_readsAlike halike]
  · rw [nextEffect_of_misaligned hpc, nextEffect_of_misaligned (h.pc ▸ hpc), h.pc]

theorem writes_of_nextEffect (h : m.nextEffect = .ok (op, e)) :
    ∃ i, m.Fetches i ∧ (∀ x, x ∈ e.registers.map Prod.fst ↔ x ∈ i.writes ∧ x ≠ .pc) ∧
      (i.opcode.calculates = false → e.flags = .none) := by
  obtain ⟨w, i, o, e', hread, hdecode, ho, -, hchanges, rfl⟩ := changes_of_nextEffect h
  obtain ⟨hregisters, hflags⟩ := Effect.registers_of_changes hchanges
  obtain ⟨-, hwrites, hcalculates⟩ := Operation.flow_of_ofInstruction? ho
  refine ⟨i, ⟨w, hread, hdecode⟩, fun x => ?_, fun hnone => hflags (hcalculates.trans hnone)⟩
  rw [hregisters, hwrites, List.mem_filter, decide_eq_true_eq]

/-- **A step depends on its sources and changes its destinations.** While the flags word holds only
flags, a step changes no registers but those that its instruction may change. Two machines that
agree on what the instruction reads both stop at the same fault, or both take the same step, write
the same and set the same flags. -/
theorem step_follows_roles (m : Machine) :
    (m.registers.FlagsOnly → ∀ r m', m.step = (.ok r, m') →
      ∃ i, m.Fetches i ∧ ∀ x, m'.registers.get x ≠ m.registers.get x → i.MayChange x) ∧
    ∀ n, ReadsAlike n m →
      (∃ f, m.step.1 = .error f ∧ n.step.1 = .error f) ∨
      ∃ i r m' n', m.Fetches i ∧ m.step = (.ok r, m') ∧ n.step = (.ok r, n') ∧
        n'.memory = m'.memory ∧ n'.registers.flags = m'.registers.flags ∧
          ∀ x, i.MayChange x → n'.registers.get x = m'.registers.get x := by
  constructor
  · intro hflags r m' hs
    obtain ⟨op, e, heffect, -, rfl, rfl⟩ := step_ok hs
    -- every step writes the flags word, with what was there unless the instruction calculates
    obtain ⟨i, hi, hwrites, hnone⟩ := writes_of_nextEffect heffect
    refine ⟨i, hi, fun x hx => ?_⟩
    by_contra hnot
    simp only [Instruction.MayChange, not_or, not_and] at hnot
    obtain ⟨hpc, hkept, hcalculates⟩ := hnot
    exact hx (Effect.get_commitRegisters_of_notMem hpc (fun hmem => hkept ((hwrites x).1 hmem).1)
      fun hcpsr => ⟨hnone (Bool.not_eq_true _ ▸ hcalculates hcpsr), hflags⟩)
  · intro n h
    rcases hnext : m.nextEffect with t | ⟨op, e⟩
    · have hnext' := h.nextEffect.trans hnext
      refine .inl ⟨⟨t, m.registers.pc⟩, ?_, ?_⟩
      · simp only [step, hnext]
      · simp only [step, hnext', h.pc]
    · have hnext' := h.nextEffect.trans hnext
      obtain ⟨i, hi, hwrites, -⟩ := writes_of_nextEffect hnext
      refine .inr ⟨i, report m.registers.pc op e, m.retire e, n.retire e, hi, ?_, ?_, ?_, ?_, ?_⟩
      · simp only [step, hnext, trap?_of_nextEffect hnext]
      · simp only [step, hnext', trap?_of_nextEffect hnext', h.pc]
      · simp only [retire, h.memory]
      · exact congrArg Flags.ofWord (Effect.get_commitRegisters_congr h.cpsr (.inr (.inr h.cpsr)))
      · intro x hx
        refine Effect.get_commitRegisters_congr h.cpsr ?_
        -- a register that may change was the same before or is written, the program counter always
        rcases hx with hpc | hmem | ⟨rfl, -⟩
        · exact .inl hpc
        · by_cases hpc : x = .pc
          · exact .inl hpc
          · exact .inr (.inl ((hwrites x).2 ⟨hmem, hpc⟩))
        · exact .inr (.inr h.cpsr)

/-- An instruction whose hidden operand is not the register that it writes. -/
def blending : Program where
  fileName := "unit.o"
  code := [{ address := some 0x1000, fields := some ⟨.movImm16H, [0x12, 3, 4]⟩ }]
  memoryMap := some ⟨0x1000, 0x1000, 4, 0x1004, 0, 4, 4⟩

theorem step_follows_roles_blending : ∃ m n r m' n',
    (load blending .standard { stackSize := 8 }).map (·.writeRegister .r4 0xABCD) = .ok m ∧
      (m.writeRegister .r3 1).writeRegister .r7 2 = n ∧
      m.step = (.ok r, m') ∧ n.step = (.ok r, n') ∧ n'.registers.get .r7 = 2 ∧
        m'.registers.get .r3 = 0x12ABCD ∧ n'.registers.get .r3 = 0x12ABCD := by
  obtain ⟨m, n, i, hload, hn, ⟨hread, hdecode, hreads, hwrites⟩, ⟨hpc, hcpsr, hr4⟩, ⟨hflags, hr7⟩,
      hok, hr3⟩ : ∃ m n i,
      (load blending .standard { stackSize := 8 }).map (·.writeRegister .r4 0xABCD) = .ok m ∧
      (m.writeRegister .r3 1).writeRegister .r7 2 = n ∧
      (m.memory.readWord m.registers.pc = .ok 0x08600244 ∧
        m.instructions.decode 0x08600244 = .ok i ∧ i.reads = [.r4] ∧ i.writes = [.r3]) ∧
      (n.registers.pc = m.registers.pc ∧ n.registers.get .cpsr = m.registers.get .cpsr ∧
        n.registers.get .r4 = m.registers.get .r4) ∧
      (n.registers.FlagsOnly ∧ n.registers.get .r7 = 2) ∧
      m.step.1.isOk = true ∧ m.step.2.registers.get .r3 = 0x12ABCD :=
    ⟨_, _, _, rfl, rfl, ⟨by decide +kernel, rfl, by decide +kernel⟩, by decide +kernel,
      by decide +kernel, by decide +kernel, by decide +kernel⟩
  have hfetch {j : Instruction} (hj : m.Fetches j) : j = i := by
    obtain ⟨w, hw, hj⟩ := hj
    cases hread.symm.trans hw
    cases hdecode.symm.trans hj
    rfl
  have halike : ReadsAlike n m := by
    refine ⟨hn ▸ rfl, hn ▸ rfl, hpc, hcpsr, fun j hj x hx => ?_⟩
    rw [hfetch hj, hreads, List.mem_singleton] at hx
    exact hx ▸ hr4
  rcases (step_follows_roles m).2 n halike with
    ⟨f, hf, -⟩ | ⟨j, r, m', n', hj, hm', hn', -, -, hsame⟩
  · rw [hf] at hok
    cases hok
  · cases hfetch hj
    rw [hm'] at hr3
    have hwritten : n'.registers.get .r3 = m'.registers.get .r3 :=
      hsame .r3 (.inr (.inl (hwrites ▸ List.mem_singleton_self _)))
    obtain ⟨j', hj', honly⟩ := (step_follows_roles n).1 hflags r n' hn'
    rw [hfetch (halike.fetches.1 hj')] at honly
    have hkept : n'.registers.get .r7 = n.registers.get .r7 := by
      by_contra hne
      rcases honly .r7 hne with hpc | hmem | ⟨hcpsr, -⟩
      · cases hpc
      · rw [hwrites] at hmem
        revert hmem
        decide
      · cases hcpsr
    exact ⟨m, n, r, m', n', hload, hn, hm', hn', hkept.trans hr7, hr3, hwritten.trans hr3⟩

end Machine
end WordMachine
