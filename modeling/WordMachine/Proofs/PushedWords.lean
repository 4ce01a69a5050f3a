import WordMachine.Proofs.WriteHistory

/-!
# WordMachine.Proofs.PushedWords

The stack gives back what was put on it, the last word first. Words that were pushed lie in a row
from the stack pointer on (`Memory.Stacked`). One push puts a word in front of the row and changes
no byte above it (`Machine.pushed_of_push`), and so do several (`Machine.pushed_of_pushAll`); one
pop takes the first word of the row (`Machine.exists_popped`). A row is a matter of memory and the
stack pointer alone, so whatever becomes of the other registers in between, as many pops give the
words back (`Machine.popAll_of_pushAll`).

Nothing here depends on how the stack pointer is aligned. It does not wrap as long as the window
ends at or below the sentinel (`Memory.toNat_add_four`).
-/

namespace WordMachine

open Outcome

namespace Memory

variable {m n : Memory} {a v : Word}

/-- Words lie in a row, the first one at this address. -/
def Stacked (m : Memory) : Word → List Word → Prop
  | _, [] => True
  | a, v :: vs => m.readWord a = .ok v ∧ m.Stacked (a + 4) vs

theorem toNat_add_four (hwindow : m.finish ≤ sentinel.toNat) (hin : m.Contains a Word.size) :
    (a + 4).toNat = a.toNat + 4 := by
  obtain ⟨hlow, hroom⟩ := hin
  simp only [finish, sentinel, offset, Word.size] at hwindow hlow hroom
  bv_omega

theorem readWord_put_self (hin : m.Contains a Word.size) :
    (m.put a v.toBytes).readWord a = .ok v := by
  have hread : (m.put a v.toBytes).read a Word.size = .ok v.toBytes := read_put_self hin
  rw [readWord, hread]
  exact congrArg Except.ok (Word.ofBytes_toBytes v)

/-- A row stays as it is where nothing changes from its first word on. -/
theorem Stacked.congr :
    ∀ {vs : List Word} {a : Word}, m.finish ≤ sentinel.toNat → n.AgreesOn m (a.toNat ≤ ·) →
      m.Stacked a vs → n.Stacked a vs := by
  intro vs
  induction vs with
  | nil =>
    intro a _ _ _
    trivial
  | cons v vs ih =>
    intro a hwindow hn hs
    obtain ⟨hv, hvs⟩ := hs
    have hnext := toNat_add_four hwindow (exists_readWord_iff.1 ⟨v, hv⟩)
    refine ⟨(hn.readWord_eq fun c hlow _ => hlow).trans hv, ih hwindow (hn.mono fun c hc => ?_) hvs⟩
    omega

end Memory

/-! ## One operation -/

theorem Register.ne_of_isGeneral {x : Register} (hx : x.isGeneral) :
    x ≠ .sp ∧ x ≠ .pc ∧ x ≠ .cpsr := by
  revert hx
  cases x <;> decide

namespace Effect

variable {r : RegisterFile} {m : Memory} {e : Effect} {op : Opcode} {x : Register} {v : Word}

theorem of_push (h : ofOperation op (.push x) r m = .ok e) :
    m.Contains (r.sp - 4) Word.size ∧ e.registers = [(.sp, r.sp - 4)] ∧
      e.memoryWrite = some ⟨r.sp - 4, r.get x, .word⟩ ∧ e.flags = .none := by
  simp only [ofOperation, changes, writeMemory, bind_ok_iff, pure_ok_iff] at h
  obtain ⟨_, ⟨e', he', rfl⟩, rfl⟩ := h
  split at he'
  · rename_i hin
    cases he'
    exact ⟨hin, rfl, rfl, rfl⟩
  · cases he'

/-- The stack pointer is written before the target. -/
theorem exists_pop (op : Opcode) (hv : m.readWord r.sp = .ok v) (hx : x ≠ .pc) :
    ∃ e, ofOperation op (.pop x) r m = .ok e ∧ e.registers = [(.sp, r.sp + 4), (x, v)] ∧
      e.memoryWrite = none ∧ e.flags = .none := by
  simp [ofOperation, changes, hv, writeRegister, hx, ok_bind, pure, Except.pure, advance]

end Effect

namespace Machine

variable {m m' m₁ : Machine} {o : Operation} {op : Opcode} {e : Effect} {x : Register} {v : Word}
  {vs ws : List Word} {r : RegisterFile}

/-- The machine with other registers. -/
def withRegisters (m : Machine) (r : RegisterFile) : Machine := { m with registers := r }

/-- The machine with the registers and the memory that an operation leaves. -/
def afterOperation (m : Machine) (op : Opcode) (o : Operation) : Except Trap Machine := do
  let (_, registers, memory) ← m.execute op o
  pure { m with registers, memory }

theorem afterOperation_of_ofOperation
    (h : Effect.ofOperation op o m.registers m.memory = .ok e) : m.afterOperation op o =
      .ok { m with
        registers := e.commitRegisters m.registers
        memory := e.updateMemory m.memory } := by
  simp only [afterOperation, execute, h, ok_bind, Effect.commit_of_ofOperation h]
  rfl

theorem exists_effect_of_afterOperation (h : m.afterOperation op o = .ok m') :
    ∃ e, Effect.ofOperation op o m.registers m.memory = .ok e ∧ m' = { m with
      registers := e.commitRegisters m.registers
      memory := e.updateMemory m.memory } := by
  rcases he : Effect.ofOperation op o m.registers m.memory with t | e
  · simp only [afterOperation, execute, he, error_bind, reduceCtorEq] at h
  · rw [afterOperation_of_ofOperation he] at h
    cases h
    exact ⟨e, rfl, rfl⟩

/-- Between two machines these words were pushed, the first one first. -/
structure Pushed (vs : List Word) (m m' : Machine) : Prop where
  sp : m'.registers.sp.toNat + 4 * vs.length = m.registers.sp.toNat
  general : ∀ x, x.isGeneral → m'.registers.get x = m.registers.get x
  flags : m'.registers.flags = m.registers.flags
  memory : m'.memory.AgreesOn m.memory fun c =>
    ¬ (m'.registers.sp.toNat ≤ c ∧ c < m.registers.sp.toNat)
  stacked : ∀ ws, m.memory.Stacked m.registers.sp ws →
    m'.memory.Stacked m'.registers.sp (vs.reverse ++ ws)

theorem pushed_nil : Pushed [] m m :=
  ⟨rfl, fun _ _ => rfl, rfl, ⟨rfl, rfl, fun _ _ => rfl⟩, fun _ hws => hws⟩

theorem Pushed.trans (h : Pushed vs m m₁) (h' : Pushed ws m₁ m') : Pushed (vs ++ ws) m m' := by
  have hsp := h.sp
  have hsp' := h'.sp
  refine
    { sp := by rw [List.length_append]; omega
      general := fun x hx => (h'.general x hx).trans (h.general x hx)
      flags := h'.flags.trans h.flags
      memory := (h'.memory.mono fun c hc => ?_).trans (h.memory.mono fun c hc => ?_)
      stacked := fun us hus => ?_ }
  · omega
  · omega
  · rw [List.reverse_append, List.append_assoc]
    exact h'.stacked _ (h.stacked us hus)

theorem pushed_of_push (hwindow : m.memory.finish ≤ sentinel.toNat)
    (h : m.afterOperation .push (.push x) = .ok m') : Pushed [m.registers.get x] m m' := by
  obtain ⟨e, he, rfl⟩ := exists_effect_of_afterOperation h
  obtain ⟨hin, hregisters, hwrite, hflags⟩ := Effect.of_push he
  have hsp : (e.commitRegisters m.registers).sp = m.registers.sp - 4 :=
    Effect.get_commitRegisters_of_registers (by decide) (by decide) hregisters
  have hmemory : e.updateMemory m.memory =
      m.memory.put (m.registers.sp - 4) (m.registers.get x).toBytes := by
    rw [Effect.updateMemory, hwrite]
    rfl
  have hnext := Memory.toNat_add_four hwindow hin
  rw [BitVec.sub_add_cancel] at hnext
  have hput : (m.memory.put (m.registers.sp - 4) (m.registers.get x).toBytes).AgreesOn m.memory _ :=
    Memory.agreesOn_put hin
  rw [Word.length_toBytes, Word.size, ← hnext] at hput
  refine ⟨?_, fun y hy => ?_, ?_, ?_, fun ws hws => ?_⟩
  · rw [hsp, hnext, List.length_singleton]
  · obtain ⟨hysp, hpc, hcpsr⟩ := Register.ne_of_isGeneral hy
    rw [Effect.get_commitRegisters_of_ne hpc hcpsr, hregisters]
    exact RegisterFile.get_set_of_ne _ _ (Ne.symm hysp)
  · rw [Effect.flags_commitRegisters, hflags, hregisters, FlagsChange.apply]
    simp [RegisterFile.flags, RegisterFile.get_set_of_ne]
  · rw [hsp, hmemory]
    exact hput
  · rw [hsp, hmemory]
    refine ⟨Memory.readWord_put_self hin, ?_⟩
    rw [BitVec.sub_add_cancel]
    exact hws.congr hwindow (hput.mono fun c hc => by omega)

/-- Between two machines so many words were popped. -/
structure Popped (n : Nat) (m m' : Machine) : Prop where
  sp : m'.registers.sp.toNat = m.registers.sp.toNat + 4 * n
  flags : m'.registers.flags = m.registers.flags
  memory : m'.memory = m.memory

theorem popped_zero : Popped 0 m m := ⟨rfl, rfl, rfl⟩

theorem Popped.trans {n n' : Nat} (h : Popped n m m₁) (h' : Popped n' m₁ m') :
    Popped (n + n') m m' :=
  ⟨by rw [h'.sp, h.sp]; omega, h'.flags.trans h.flags, h'.memory.trans h.memory⟩

theorem exists_popped (hwindow : m.memory.finish ≤ sentinel.toNat) (hx : x.isGeneral)
    (hs : m.memory.Stacked m.registers.sp (v :: vs)) :
    ∃ m', m.afterOperation .pop (.pop x) = .ok m' ∧ m'.registers.get x = v ∧ Popped 1 m m' ∧
      m'.memory.Stacked m'.registers.sp vs := by
  obtain ⟨hxsp, hpc, hcpsr⟩ := Register.ne_of_isGeneral hx
  obtain ⟨hv, hvs⟩ := hs
  obtain ⟨e, he, hregisters, hwrite, hflags⟩ := Effect.exists_pop .pop hv hpc
  have hnext := Memory.toNat_add_four hwindow (Memory.exists_readWord_iff.1 ⟨v, hv⟩)
  have hmemory : e.updateMemory m.memory = m.memory := by rw [Effect.updateMemory, hwrite]
  have hsp : (e.commitRegisters m.registers).sp = m.registers.sp + 4 := by
    rw [RegisterFile.sp, Effect.get_commitRegisters_of_ne (by decide) (by decide), hregisters]
    simp [RegisterFile.get_set_of_ne _ _ hxsp, RegisterFile.kept]
  refine ⟨_, afterOperation_of_ofOperation he, ?_, ⟨?_, ?_, hmemory⟩, ?_⟩
  · rw [Effect.get_commitRegisters_of_ne hpc hcpsr, hregisters]
    simp [RegisterFile.kept_of_ne hcpsr]
  · rw [hsp, hnext]
  · rw [Effect.flags_commitRegisters, hflags, hregisters, FlagsChange.apply]
    simp [RegisterFile.flags, RegisterFile.get_set_of_ne, hcpsr]
  · rw [hsp, hmemory]
    exact hvs

/-! ## Operations in a row -/

/-- Pushes registers, the first one first. -/
def pushAll (m : Machine) : List Register → Except Trap Machine
  | [] => pure m
  | x :: xs => do (← m.afterOperation .push (.push x)).pushAll xs

/-- Pops into registers, the first one first. With the machine comes what each of them holds when it
has just been popped into. -/
def popAll (m : Machine) : List Register → Except Trap (List Word × Machine)
  | [] => pure ([], m)
  | x :: xs => do
    let m ← m.afterOperation .pop (.pop x)
    let (vs, m') ← m.popAll xs
    pure (m.registers.get x :: vs, m')

theorem pushed_of_pushAll :
    ∀ {xs : List Register} {m : Machine}, m.memory.finish ≤ sentinel.toNat →
      (∀ x ∈ xs, x.isGeneral) → m.pushAll xs = .ok m' →
        Pushed (xs.map m.registers.get) m m' := by
  intro xs
  induction xs with
  | nil =>
    intro m _ _ h
    cases h
    exact pushed_nil
  | cons x xs ih =>
    intro m hwindow hxs h
    obtain ⟨m₁, hpush, hrest⟩ := bind_ok_iff.1 h
    have hxs' : ∀ y ∈ xs, y.isGeneral := fun y hy => hxs y (List.mem_cons_of_mem _ hy)
    have hfirst := pushed_of_push hwindow hpush
    have hpushed := hfirst.trans (ih (hfirst.memory.finish_eq.trans_le hwindow) hxs' hrest)
    -- What is still to be pushed is in its register as before.
    rw [List.map_congr_left fun y hy => hfirst.general y (hxs' y hy)] at hpushed
    exact hpushed

theorem exists_popAll :
    ∀ {xs : List Register} {vs : List Word} {m : Machine}, m.memory.finish ≤ sentinel.toNat →
      (∀ x ∈ xs, x.isGeneral) → xs.length = vs.length → m.memory.Stacked m.registers.sp vs →
        ∃ m', m.popAll xs = .ok (vs, m') ∧ Popped xs.length m m' := by
  intro xs
  induction xs with
  | nil =>
    intro vs m _ _ hlen _
    rw [List.length_eq_zero_iff.1 hlen.symm]
    exact ⟨m, rfl, popped_zero⟩
  | cons x xs ih =>
    intro vs m hwindow hxs hlen hs
    obtain ⟨hx, hxs'⟩ := List.forall_mem_cons.1 hxs
    cases vs with
    | nil => cases hlen
    | cons v vs =>
      obtain ⟨m₁, hpop, hvalue, hfirst, hvs⟩ := exists_popped hwindow hx hs
      obtain ⟨m', hrest, hpopped⟩ := ih (hfirst.memory ▸ hwindow) hxs' (Nat.succ.inj hlen) hvs
      refine ⟨m', by simp only [popAll, hpop, ok_bind, hrest, hvalue]; rfl, ?_⟩
      rw [List.length_cons, Nat.add_comm]
      exact hfirst.trans hpopped

/-- Whether an address is in the last `n` words below the stack pointer. -/
def BelowStack (m : Machine) (n c : Nat) : Prop :=
  m.registers.sp.toNat ≤ c + 4 * n ∧ c < m.registers.sp.toNat

/-- **What is pushed is popped in reverse order.** If the contents of general registers can be
pushed one after the other, then whatever becomes of the registers other than the stack pointer, as
many words can be popped into general registers, and they are those that were pushed, the last one
first. The stack pointer is back, neither the pushes nor the pops have changed the flags, and memory
differs at most where the words were put, just below the stack. -/
theorem popAll_of_pushAll {sources targets : List Register}
    (hwindow : m.memory.finish ≤ sentinel.toNat) (hsources : ∀ x ∈ sources, x.isGeneral)
    (hpush : m.pushAll sources = .ok m₁) (hsp : r.sp = m₁.registers.sp)
    (htargets : ∀ x ∈ targets, x.isGeneral) (hcount : targets.length = sources.length) :
    ∃ m₂, (m₁.withRegisters r).popAll targets =
        .ok ((sources.map m.registers.get).reverse, m₂) ∧
      m₂.registers.sp = m.registers.sp ∧ m₁.registers.flags = m.registers.flags ∧
      m₂.registers.flags = r.flags ∧
      m₂.memory.AgreesOn m.memory fun c => ¬ m.BelowStack sources.length c := by
  have hpushed := pushed_of_pushAll hwindow hsources hpush
  have hstacked := hpushed.stacked [] trivial
  rw [List.append_nil, ← hsp] at hstacked
  obtain ⟨m₂, hpop, hpopped⟩ := exists_popAll (m := m₁.withRegisters r)
    (hpushed.memory.finish_eq.trans_le hwindow) htargets (by simp [hcount]) hstacked
  have hdown := hpushed.sp
  have hup : m₂.registers.sp.toNat = r.sp.toNat + 4 * targets.length := hpopped.sp
  rw [List.length_map] at hdown
  refine ⟨m₂, hpop, BitVec.eq_of_toNat_eq ?_, hpushed.flags, hpopped.flags, ?_⟩
  · rw [hup, hsp, hcount, hdown]
  · rw [hpopped.memory]
    exact hpushed.memory.mono fun c hc hin => hc ⟨by omega, hin.2⟩

/-- A program of one instruction, with a stack above it. -/
def halting : Program where
  fileName := "unit.o"
  code := [{ address := some 0x1000, fields := some ⟨.halt, []⟩ }]
  memoryMap := some ⟨0x1000, 0x1000, 4, 0x1004, 0, 4, 4⟩

/-- What the registers hold before the pushes; the stack pointer is at no multiple of four. -/
def unaligned (m : Machine) : Machine :=
  (((m.writeRegister .sp 0x1016).writeRegister .r1 0x11).writeRegister .r2 0x2222).writeRegister
    .r3 0x333333

theorem popAll_of_pushAll_unaligned : ∃ m m₁ r m₂,
    (load halting .standard { stackSize := 20 }).map unaligned = .ok m ∧
      m.memory.finish ≤ sentinel.toNat ∧ m.pushAll [.r2, .r1, .r2, .r3] = .ok m₁ ∧
      m₁.registers.sp = 0x1006 ∧
      r = (RegisterFile.zeros.set .sp m₁.registers.sp).set .cpsr 0xF ∧
      (m₁.withRegisters r).popAll [.r0, .r9, .r0, .r1] =
        .ok ([0x333333, 0x2222, 0x11, 0x2222], m₂) ∧
      m₂.registers.sp = 0x1016 ∧ m₂.registers.flags = ⟨true, true, true, true⟩ := by
  obtain ⟨m, m₁, hload, ⟨hsp, hvalues⟩, hwindow, hpush, hsp₁⟩ : ∃ m m₁,
      (load halting .standard { stackSize := 20 }).map unaligned = .ok m ∧
      (m.registers.sp = 0x1016 ∧ ([.r2, .r1, .r2, .r3].map m.registers.get).reverse =
        [0x333333, 0x2222, 0x11, 0x2222]) ∧
      m.memory.finish ≤ sentinel.toNat ∧
      m.pushAll [.r2, .r1, .r2, .r3] = .ok m₁ ∧ m₁.registers.sp = 0x1006 :=
    ⟨_, _, rfl, by decide +kernel, by decide +kernel, rfl, by decide +kernel⟩
  have hr : ((RegisterFile.zeros.set .sp m₁.registers.sp).set .cpsr 0xF).sp =
      m₁.registers.sp := by
    rw [hsp₁]
    decide
  have htargets : ∀ x ∈ [Register.r0, .r9, .r0, .r1], x.isGeneral := by decide
  obtain ⟨m₂, hpop, hback, -, hflags, -⟩ :=
    popAll_of_pushAll hwindow (by decide) hpush hr htargets rfl
  rw [hvalues] at hpop
  rw [hsp] at hback
  refine ⟨m, m₁, _, m₂, hload, hwindow, hpush, hsp₁, rfl, hpop, hback, hflags.trans ?_⟩
  rw [hsp₁]
  decide

end Machine
end WordMachine
