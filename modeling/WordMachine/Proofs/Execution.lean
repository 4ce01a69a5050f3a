import WordMachine.Machine.Basic
import WordMachine.Proofs.Outcome

/-!
# WordMachine.Proofs.Execution

The second half of an instruction, once its word has been fetched and decoded. `Machine.carryOut`
executes an operation and commits what it changes; where an instruction is fetched and decoded, it
is the whole step (`Machine.step_of_fetch`). Which data an operation accesses and which it stores is
said by its registers alone (`Effect.moves_of_changes`), and it writes memory only where the
reported access says so (`Effect.access_of_ofOperation`). `Operation.Refused` lists what an
operation can be refused for (`Effect.changes_error_iff`), which is nothing that fetching or
decoding traps (`Machine.trap_of_carryOut`).
-/

namespace WordMachine

open Outcome

theorem Flags.ofWord_toWord (f : Flags) : ofWord (f.toWord &&& wordMask) = f := by
  obtain ⟨n, z, c, v⟩ := f
  revert n z c v
  decide

theorem RegisterFile.kept_of_ne {x : Register} {v : Word} (hx : x ≠ .cpsr) : kept x v = v := by
  cases x <;> first | rfl | exact absurd rfl hx

/-! ## Data -/

namespace Operation

variable {r : RegisterFile} {op : Operation} {x : Access}

/-- The data that an operation moves between registers and memory. -/
def access? (r : RegisterFile) : Operation → Option Access
  | load base offset _ width => some ⟨r.get base + offset, width.bytes, .read⟩
  | store _ base offset width => some ⟨r.get base + offset, width.bytes, .write⟩
  | push _ => some ⟨r.sp - 4, 4, .write⟩
  | pop _ => some ⟨r.sp, 4, .read⟩
  | _ => none

/-- The datum that an operation stores. -/
def stored? (r : RegisterFile) : Operation → Option MemoryWrite
  | store source base offset width => some ⟨r.get base + offset, r.get source, width⟩
  | push source => some ⟨r.sp - 4, r.get source, .word⟩
  | _ => none

/-- An access for writing is that of the datum that is stored. -/
theorem access?_eq_write : op.access? r = some x ∧ x.direction = .write ↔
    ∃ w, op.stored? r = some w ∧ x = ⟨w.address, w.width.bytes, .write⟩ := by
  constructor
  · rintro ⟨hx, hdirection⟩
    cases op with
    | store | push =>
      cases hx
      exact ⟨_, rfl, rfl⟩
    | load | pop =>
      cases hx
      cases hdirection
    | _ => cases hx
  · rintro ⟨w, hw, rfl⟩
    cases op with
    | store | push =>
      cases hw
      exact ⟨rfl, rfl⟩
    | _ => cases hw

end Operation

namespace Effect

variable {e : Effect} {r : RegisterFile} {m : Memory} {op : Operation} {w : MemoryWrite}
  {a : Word} {x : Register} {opcode : Opcode}

@[simp] theorem memoryWrite_writeRegister : (e.writeRegister x a).memoryWrite = e.memoryWrite := by
  unfold writeRegister
  split <;> rfl

@[simp] theorem access_writeRegister : (e.writeRegister x a).access = e.access := by
  unfold writeRegister
  split <;> rfl

theorem moves_of_changes (h : changes r m op = .ok e) :
    e.access = op.access? r ∧ e.memoryWrite = op.stored? r := by
  cases op with
  | store source base offset width =>
    simp only [changes, writeMemory] at h
    split at h <;> cases h
    exact ⟨rfl, rfl⟩
  | push source =>
    simp only [changes, writeMemory, bind_ok_iff, pure_ok_iff] at h
    obtain ⟨e', he', rfl⟩ := h
    split at he' <;> cases he'
    exact ⟨access_writeRegister, memoryWrite_writeRegister⟩
  | load base offset target width =>
    simp only [changes, bind_ok_iff, pure_ok_iff] at h
    obtain ⟨_, -, rfl⟩ := h
    exact ⟨rfl, memoryWrite_writeRegister⟩
  | pop target =>
    simp only [changes, bind_ok_iff, pure_ok_iff] at h
    obtain ⟨_, -, rfl⟩ := h
    exact ⟨rfl, memoryWrite_writeRegister.trans memoryWrite_writeRegister⟩
  | alu | addImm =>
    simp only [changes, bind_ok_iff, pure_ok_iff] at h
    obtain ⟨_, -, rfl⟩ := h
    exact ⟨access_writeRegister, memoryWrite_writeRegister⟩
  | mov | movLow | movHigh | call | callTo =>
    cases h
    exact ⟨access_writeRegister, memoryWrite_writeRegister⟩
  | jumpIf condition mask target =>
    cases h
    split <;> exact ⟨rfl, rfl⟩
  | nop | halt | jump | jumpTo =>
    cases h
    exact ⟨rfl, rfl⟩

/-- What is stored lies in the window. -/
theorem contains_of_changes (h : changes r m op = .ok e) (hw : op.stored? r = some w) :
    m.Contains w.address w.width.bytes := by
  cases op with
  | store source base offset width =>
    cases hw
    simp only [changes, writeMemory] at h
    split at h
    · assumption
    · cases h
  | push source =>
    cases hw
    simp only [changes, writeMemory, bind_ok_iff] at h
    obtain ⟨e', he', -⟩ := h
    split at he'
    · assumption
    · cases he'
  | _ => cases hw

theorem moves_of_ofOperation (h : ofOperation opcode op r m = .ok e) :
    e.access = op.access? r ∧ e.memoryWrite = op.stored? r := by
  simp only [ofOperation, bind_ok_iff, pure_ok_iff] at h
  obtain ⟨e', he', rfl⟩ := h
  obtain ⟨haccess, hwrite⟩ := moves_of_changes he'
  exact ⟨haccess, hwrite⟩

/-- What goes to memory lies in the window and is reported. -/
theorem access_of_ofOperation (h : ofOperation opcode op r m = .ok e)
    (hw : e.memoryWrite = some w) :
    m.Contains w.address w.width.bytes ∧ e.access = some ⟨w.address, w.width.bytes, .write⟩ := by
  obtain ⟨haccess, hwrite⟩ := moves_of_ofOperation h
  have hstored : op.stored? r = some w := hwrite.symm.trans hw
  simp only [ofOperation, bind_ok_iff] at h
  obtain ⟨e', he', -⟩ := h
  exact ⟨contains_of_changes he' hstored,
    haccess.trans (Operation.access?_eq_write.2 ⟨w, hstored, rfl⟩).1⟩

end Effect

/-! ## Traps -/

namespace Trap

/-- Whether a trap comes from executing an instruction: from a division or from an access. -/
def OfExecution : Trap → Prop
  | divisionByZero | divisionOverflow | invalidAccess _ _ => True
  | illegalInstruction _ | misalignedFetch _ => False

end Trap

section Refusals

variable {r : RegisterFile} {m : Memory} {o : Operation} {t : Trap} {a : Word} {n : Nat}
  {width : Width}

namespace Operation

/-- The trap of an operation on these registers and this memory. -/
inductive Refused (r : RegisterFile) (m : Memory) : Operation → Trap → Prop where
  | load {base target : Register} {offset : Word} {width : Width}
      (hout : ¬ m.Contains (r.get base + offset) width.bytes) :
      Refused r m (.load base offset target width)
        (.invalidAccess (r.get base + offset) width.bytes)
  | store {source base : Register} {offset : Word} {width : Width}
      (hout : ¬ m.Contains (r.get base + offset) width.bytes) :
      Refused r m (.store source base offset width)
        (.invalidAccess (r.get base + offset) width.bytes)
  | push {source : Register} (hout : ¬ m.Contains (r.sp - 4) Word.size) :
      Refused r m (.push source) (.invalidAccess (r.sp - 4) Word.size)
  | pop {target : Register} (hout : ¬ m.Contains r.sp Word.size) :
      Refused r m (.pop target) (.invalidAccess r.sp Word.size)
  | zero {op : AluOp} {left right target : Register} (hop : op = .div ∨ op = .mod)
      (hzero : r.get right = 0) : Refused r m (.alu op left right target) .divisionByZero
  | overflow {op : AluOp} {left right target : Register} (hop : op = .div ∨ op = .mod)
      (hleft : r.get left = BitVec.intMin 32) (hright : r.get right = -1) :
      Refused r m (.alu op left right target) .divisionOverflow

theorem Refused.ofExecution (h : o.Refused r m t) : t.OfExecution := by
  cases h <;> trivial

end Operation

theorem Memory.read_error_iff :
    m.read a n = .error t ↔ ¬ m.Contains a n ∧ t = .invalidAccess a n := by
  by_cases hin : m.Contains a n
  · simp [Memory.read, hin]
  · simp [Memory.read, hin, eq_comm]

theorem Memory.readWord_error_iff :
    m.readWord a = .error t ↔ ¬ m.Contains a Word.size ∧ t = .invalidAccess a Word.size := by
  rw [Memory.readWord, map_error_iff, Memory.read_error_iff]

theorem AluOp.run_error_iff {op : AluOp} {x y : Word} {flags : Flags} :
    op.run x y flags = .error t ↔ (op = .div ∨ op = .mod) ∧
      (y = 0 ∧ t = .divisionByZero ∨
        x = BitVec.intMin 32 ∧ y = -1 ∧ t = .divisionOverflow) := by
  cases op with
  | div | mod =>
    by_cases hzero : y = 0
    · simp [AluOp.run, hzero, eq_comm]
    · by_cases hoverflow : x = BitVec.intMin 32 ∧ y = -1
      · simp [AluOp.run, hoverflow, eq_comm]
      · constructor
        · intro h
          rw [AluOp.run, if_neg hzero, if_neg hoverflow] at h
          cases h
        · rintro ⟨-, ⟨h, -⟩ | ⟨hx, hy, -⟩⟩
          · exact absurd h hzero
          · exact absurd ⟨hx, hy⟩ hoverflow
  | _ => simp [AluOp.run]

namespace Effect

theorem fetchDatum_error_iff : fetchDatum m a width = .error t ↔
    ¬ m.Contains a width.bytes ∧ t = .invalidAccess a width.bytes := by
  cases width with
  | byte =>
    by_cases hin : m.Contains a 1
    · simp [fetchDatum, Memory.readByte, Width.bytes, hin, Except.map]
    · simp [fetchDatum, Memory.readByte, Width.bytes, hin, Except.map, eq_comm]
  | word => exact Memory.readWord_error_iff

theorem writeMemory_error_iff {e : Effect} {value : Word} :
    e.writeMemory m a value width = .error t ↔
      ¬ m.Contains a width.bytes ∧ t = .invalidAccess a width.bytes := by
  by_cases hin : m.Contains a width.bytes
  · simp [writeMemory, hin]
  · simp [writeMemory, hin, eq_comm]

/-- The traps of executing are those of the operation. -/
theorem changes_error_iff : changes r m o = .error t ↔ o.Refused r m t := by
  cases o with
  | alu op left right target =>
    refine Iff.trans (bind_total_error_iff fun _ => ⟨_, rfl⟩) (AluOp.run_error_iff.trans ⟨?_, ?_⟩)
    · rintro ⟨hop, ⟨hzero, rfl⟩ | ⟨hleft, hright, rfl⟩⟩
      · exact .zero hop hzero
      · exact .overflow hop hleft hright
    · intro h
      cases h with
      | zero hop hzero => exact ⟨hop, .inl ⟨hzero, rfl⟩⟩
      | overflow hop hleft hright => exact ⟨hop, .inr ⟨hleft, hright, rfl⟩⟩
  | addImm left addend target =>
    refine Iff.trans (bind_total_error_iff fun _ => ⟨_, rfl⟩) ?_
    exact iff_of_false (by simp [AluOp.run]) (fun h => by cases h)
  | load base offset target width =>
    refine Iff.trans (bind_total_error_iff fun _ => ⟨_, rfl⟩) (fetchDatum_error_iff.trans ⟨?_, ?_⟩)
    · rintro ⟨hout, rfl⟩
      exact .load hout
    · intro h
      cases h with
      | load hout => exact ⟨hout, rfl⟩
  | store source base offset width =>
    refine writeMemory_error_iff.trans ⟨?_, ?_⟩
    · rintro ⟨hout, rfl⟩
      exact .store hout
    · intro h
      cases h with
      | store hout => exact ⟨hout, rfl⟩
  | push source =>
    refine Iff.trans (bind_total_error_iff fun _ => ⟨_, rfl⟩)
      (writeMemory_error_iff.trans ⟨?_, ?_⟩)
    · rintro ⟨hout, rfl⟩
      exact .push hout
    · intro h
      cases h with
      | push hout => exact ⟨hout, rfl⟩
  | pop target =>
    refine Iff.trans (bind_total_error_iff fun _ => ⟨_, rfl⟩)
      (Memory.readWord_error_iff.trans ⟨?_, ?_⟩)
    · rintro ⟨hout, rfl⟩
      exact .pop hout
    · intro h
      cases h with
      | pop hout => exact ⟨hout, rfl⟩
  | _ => exact iff_of_false (fun h => by cases h) (fun h => by cases h)

theorem ofOperation_error_iff {op : Opcode} :
    ofOperation op o r m = .error t ↔ o.Refused r m t :=
  Iff.trans (bind_total_error_iff fun _ => ⟨_, rfl⟩) changes_error_iff

theorem trap?_of_ofOperation {op : Opcode} {e : Effect} (h : ofOperation op o r m = .ok e) :
    e.trap? m = none := by
  rcases hwrite : e.memoryWrite with _ | w
  · simp only [trap?, hwrite]
  · obtain ⟨hin, -⟩ := access_of_ofOperation h hwrite
    simp only [trap?, hwrite, hin, if_true]

/-- What an operation asks for can be committed. -/
theorem commit_of_ofOperation {op : Opcode} {e : Effect} (h : ofOperation op o r m = .ok e) :
    e.commit r m = .ok (e.commitRegisters r, e.updateMemory m) := by
  have hmemory : e.commitMemory m = .ok (e.updateMemory m) := by
    rw [commitMemory, trap?_of_ofOperation h]
  rw [commit, hmemory]
  rfl

/-- Registers other than the program counter and the flags word change by what is written. -/
theorem get_commitRegisters_of_ne {e : Effect} {x : Register} (hpc : x ≠ .pc) (hflags : x ≠ .cpsr) :
    (e.commitRegisters r).get x = (e.registers.foldl (fun r (x, w) => r.set x w) r).get x := by
  simp only [commitRegisters, RegisterFile.setFlags]
  rw [RegisterFile.get_set_of_ne _ _ (Ne.symm hpc), RegisterFile.get_set_of_ne _ _ (Ne.symm hflags)]

/-- The flags change as the effect says, from what its writes leave of them. -/
theorem flags_commitRegisters {e : Effect} : (e.commitRegisters r).flags =
    e.flags.apply (e.registers.foldl (fun r (x, w) => r.set x w) r).flags := by
  have hset (r : RegisterFile) (f : Flags) :
      (r.setFlags f).get .cpsr = f.toWord &&& Flags.wordMask := RegisterFile.get_set_self _ _ _
  simp only [commitRegisters, RegisterFile.flags]
  rw [RegisterFile.get_set_of_ne _ _ (by decide), hset, Flags.ofWord_toWord]

/-- A register other than the program counter and the flags word has what was written to it. -/
theorem get_commitRegisters_of_registers {e : Effect} {x : Register} {v : Word} (hpc : x ≠ .pc)
    (hflags : x ≠ .cpsr) (hwritten : e.registers = [(x, v)]) :
    (e.commitRegisters r).get x = v := by
  rw [get_commitRegisters_of_ne hpc hflags, hwritten, List.foldl_cons, List.foldl_nil,
    RegisterFile.get_set_self, RegisterFile.kept_of_ne hflags]

end Effect

end Refusals

namespace InstructionSet

theorem operation_ok_iff {s : InstructionSet} {w : Word} {i : Instruction} {o : Operation} :
    s.operation w = .ok (i, o) ↔ s.decode w = .ok i ∧ Operation.ofInstruction? i = some o := by
  have hsome : s.operation? w = some (i, o) ↔
      s.decode w = .ok i ∧ Operation.ofInstruction? i = some o := by
    simp only [operation?, Option.bind_eq_bind, Option.bind_eq_some_iff, Option.pure_def,
      Option.some.injEq, Prod.mk.injEq]
    constructor
    · rintro ⟨i', hi, o', ho, rfl, rfl⟩
      exact ⟨toOption_eq_some_iff.1 hi, ho⟩
    · rintro ⟨hi, ho⟩
      exact ⟨i, toOption_eq_some_iff.2 hi, o, ho, rfl, rfl⟩
  rw [← hsome, operation]
  cases s.operation? w with
  | none => simp
  | some x => simp

end InstructionSet

namespace Machine

variable {m : Machine} {w : Word} {i : Instruction} {o : Operation} {f : Fault} {op : Opcode}
  {t : Trap}

/-- The effect of an operation, with the registers and the memory after it. -/
def execute (m : Machine) (op : Opcode) (o : Operation) :
    Except Trap (Effect × RegisterFile × Memory) := do
  let e ← Effect.ofOperation op o m.registers m.memory
  let (registers, memory) ← e.commit m.registers m.memory
  pure (e, registers, memory)

/-- Executing an operation and committing what it changes, whatever is at the program counter. -/
def carryOut (m : Machine) (op : Opcode) (o : Operation) : Except Fault StepReport × Machine :=
  let pc := m.registers.pc
  match m.execute op o with
  | .error t => (.error ⟨t, pc⟩, m.latch ⟨t, pc⟩)
  | .ok (e, registers, memory) =>
    (.ok (report pc op e), {
      m with
      registers
      memory
      state := if e.halts then .halted else m.state
      totalSteps := m.totalSteps + 1
      totalCycles := m.totalCycles + e.cycles })

theorem nextEffect_of_fetch (haligned : m.registers.pc.toNat % Word.size = 0)
    (hread : m.memory.readWord m.registers.pc = .ok w)
    (hdecode : m.instructions.operation w = .ok (i, o)) :
    m.nextEffect =
      Effect.ofOperation i.opcode o m.registers m.memory >>= fun e => .ok (i.opcode, e) := by
  simp only [nextEffect, haligned, ne_eq, not_true_eq_false, if_false, hread, hdecode, ok_bind]
  rfl

/-- Where an instruction is fetched and decoded, the rest of the step is carrying it out. -/
theorem step_of_fetch (haligned : m.registers.pc.toNat % Word.size = 0)
    (hread : m.memory.readWord m.registers.pc = .ok w)
    (hdecode : m.instructions.operation w = .ok (i, o)) : m.step = m.carryOut i.opcode o := by
  have hnext := nextEffect_of_fetch haligned hread hdecode
  rcases heffect : Effect.ofOperation i.opcode o m.registers m.memory with t | e
  · simp only [step, hnext, carryOut, execute, heffect, error_bind]
  · rcases htrap : e.trap? m.memory with _ | t
    · simp only [step, hnext, carryOut, execute, Effect.commit, Effect.commitMemory, heffect, htrap,
        ok_bind, pure, Except.pure, retire]
    · simp only [step, hnext, carryOut, execute, Effect.commit, Effect.commitMemory, heffect, htrap,
        ok_bind, error_bind]

theorem nextEffect_of_misaligned (hpc : m.registers.pc.toNat % Word.size ≠ 0) :
    m.nextEffect = .error (.misalignedFetch m.registers.pc) := by
  simp only [nextEffect, throw_bind, hpc, ne_eq, not_false_eq_true, if_true]
  rfl

/-- Elsewhere than at a multiple of the word size nothing is fetched. -/
theorem step_of_misaligned (hpc : m.registers.pc.toNat % Word.size ≠ 0) :
    m.step = (.error ⟨.misalignedFetch m.registers.pc, m.registers.pc⟩,
      m.latch ⟨.misalignedFetch m.registers.pc, m.registers.pc⟩) := by
  simp only [step, nextEffect_of_misaligned hpc]

/-- What comes before the effect of an instruction. -/
theorem fetch_of_nextEffect {e : Effect} (h : m.nextEffect = .ok (op, e)) :
    ∃ w i o, m.registers.pc.toNat % Word.size = 0 ∧ m.memory.readWord m.registers.pc = .ok w ∧
      m.instructions.operation w = .ok (i, o) ∧ op = i.opcode ∧
        Effect.ofOperation i.opcode o m.registers m.memory = .ok e := by
  simp only [nextEffect, throw_bind, guard_ok_iff, bind_ok_iff, pure_ok_iff, ne_eq,
    Decidable.not_not, Prod.mk.injEq] at h
  obtain ⟨haligned, w, hread, ⟨i, o⟩, hdecode, e', heffect, rfl, rfl⟩ := h
  exact ⟨w, i, o, haligned, hread, hdecode, rfl, heffect⟩

/-- The operation of an instruction that has an effect, and what it changes. -/
theorem changes_of_nextEffect {e : Effect} (h : m.nextEffect = .ok (op, e)) :
    ∃ w i o e', m.memory.readWord m.registers.pc = .ok w ∧ m.instructions.decode w = .ok i ∧
      Operation.ofInstruction? i = some o ∧ op = i.opcode ∧
      Effect.changes m.registers m.memory o = .ok e' ∧
      e = { e' with cycles := i.opcode.cycles (Effect.taken m.registers o) } := by
  obtain ⟨w, i, o, -, hread, hdecode, rfl, heffect⟩ := fetch_of_nextEffect h
  obtain ⟨hi, ho⟩ := InstructionSet.operation_ok_iff.1 hdecode
  simp only [Effect.ofOperation, bind_ok_iff, pure_ok_iff] at heffect
  obtain ⟨e', hchanges, rfl⟩ := heffect
  exact ⟨w, i, o, e', hread, hi, ho, rfl, hchanges, rfl⟩

/-- Executing raises no trap of fetching or decoding. -/
theorem trap_of_execute (h : m.execute op o = .error t) : t.OfExecution := by
  rw [execute, bind_error_iff] at h
  rcases h with hrefused | ⟨e, heffect, hcommit⟩
  · exact (Effect.ofOperation_error_iff.1 hrefused).ofExecution
  · rw [Effect.commit_of_ofOperation heffect] at hcommit
    cases hcommit

theorem trap_of_carryOut (h : (m.carryOut op o).1 = .error f) : f.trap.OfExecution := by
  simp only [carryOut] at h
  split at h
  · rename_i hexecute
    cases h
    exact trap_of_execute hexecute
  · cases h

end Machine
end WordMachine
