import WordMachine.Proofs.MemoryFrame
import WordMachine.Proofs.Watchpoints

/-!
# WordMachine.Proofs.DataAccess

The access that an instruction reports is all that it has to do with data in memory. Memory is
looked at byte by byte (`Memory.byteAt?`): which bytes an instruction leaves alone, which ones it
stores, and on which ones it depends. The last is said by carrying the instruction out on other
memory (`Memory.AgreesOn`), which makes no difference as long as the bytes that it fetches and reads
are the same (`Effect.changes_congr`).

`Machine.step_reportsMemory` puts this together for every instruction that is retired. So a
watchpoint on any of the bytes that are read or stored is triggered.
-/

namespace WordMachine

open Outcome

/-! ## Bytes -/

namespace Memory

variable {m n : Memory} {a : Word} {data bs : List Byte} {c k : Nat} {p q : Nat → Prop}
  {width : Width}

/-- The byte at an address, if the address lies in the window. -/
def byteAt? (m : Memory) (c : Nat) : Option Byte :=
  if m.base.toNat ≤ c then m.bytes[c - m.base.toNat]? else none

theorem getElem?_store_add :
    ∀ {data : List Byte} {bytes : Array Byte} {i k : Nat}, i + data.length ≤ bytes.size →
      k < data.length → (store bytes i data)[i + k]? = data[k]? := by
  intro data
  induction data with
  | nil =>
    intro bytes i k _ hk
    cases hk
  | cons b data ih =>
    intro bytes i k hroom hk
    rw [List.length_cons] at hroom hk
    cases k with
    | zero =>
      -- The rest is put above the first byte.
      rw [store, getElem?_store (.inl (by omega)), Nat.add_zero,
        Array.getElem?_setIfInBounds_self_of_lt (by omega), List.getElem?_cons_zero]
    | succ k =>
      have hat : i + (k + 1) = i + 1 + k := by omega
      rw [store, hat, ih (by rw [Array.size_setIfInBounds]; omega) (by omega),
        List.getElem?_cons_succ]

theorem byteAt?_put (hin : m.Contains a data.length) : (m.put a data).byteAt? c =
    if a.toNat ≤ c ∧ c < a.toNat + data.length then data[c - a.toNat]? else m.byteAt? c := by
  obtain ⟨hlow, hroom⟩ := hin
  have hbase : (m.put a data).base = m.base := rfl
  by_cases hc : a.toNat ≤ c ∧ c < a.toNat + data.length
  · have hat : c - m.base.toNat = m.offset a + (c - a.toNat) := by
      rw [offset]
      omega
    rw [if_pos hc, byteAt?, hbase, if_pos (by omega), hat]
    exact getElem?_store_add hroom (by omega)
  · rw [if_neg hc, byteAt?, byteAt?, hbase]
    split
    · exact getElem?_put hlow (by omega)
    · rfl

/-- Reading gives the bytes at the addresses in a row. -/
theorem read_ok_iff : m.read a k = .ok bs ↔
    m.Contains a k ∧ ∀ j, bs[j]? = if j < k then m.byteAt? (a.toNat + j) else none := by
  by_cases hin : m.Contains a k
  · have hbyte : ∀ j, ((m.bytes.extract (m.offset a) (m.offset a + k)).toList)[j]? =
        if j < k then m.byteAt? (a.toNat + j) else none := by
      intro j
      have hat : m.offset a + j = a.toNat + j - m.base.toNat := (Nat.sub_add_comm hin.1).symm
      have hcount : min (m.offset a + k) m.bytes.size - m.offset a = k := by
        have hend : min (m.offset a + k) m.bytes.size = m.offset a + k := Nat.min_eq_left hin.2
        rw [hend, Nat.add_sub_cancel_left]
      have habove : m.base.toNat ≤ a.toNat + j := Nat.le_add_right_of_le hin.1
      rw [Array.getElem?_toList, Array.getElem?_extract, hcount, byteAt?, if_pos habove, hat]
    rw [read, if_pos hin, Except.ok.injEq, List.ext_getElem?_iff, and_iff_right hin]
    simp only [hbyte, eq_comm]
  · simp [read, hin]

theorem read_put_self (hin : m.Contains a data.length) :
    (m.put a data).read a data.length = .ok data := by
  rw [read_ok_iff]
  refine ⟨contains_put.2 hin, fun j => ?_⟩
  by_cases hj : j < data.length
  · rw [if_pos hj, byteAt?_put hin, if_pos (by omega), Nat.add_sub_cancel_left]
  · rw [if_neg hj, List.getElem?_eq_none (Nat.not_lt.1 hj)]

/-- Two memories that are the same windows and hold the same bytes at some addresses. -/
structure AgreesOn (n m : Memory) (p : Nat → Prop) : Prop where
  base : n.base = m.base
  size : n.size = m.size
  bytes : ∀ c, p c → n.byteAt? c = m.byteAt? c

theorem AgreesOn.mono (h : n.AgreesOn m p) (hpq : ∀ c, q c → p c) : n.AgreesOn m q :=
  ⟨h.base, h.size, fun c hc => h.bytes c (hpq c hc)⟩

theorem AgreesOn.trans {n' : Memory} (h : n'.AgreesOn n p) (h' : n.AgreesOn m p) :
    n'.AgreesOn m p :=
  ⟨h.base.trans h'.base, h.size.trans h'.size, fun c hc => (h.bytes c hc).trans (h'.bytes c hc)⟩

theorem agreesOn_put (hin : m.Contains a data.length) :
    (m.put a data).AgreesOn m fun c => ¬ (a.toNat ≤ c ∧ c < a.toNat + data.length) :=
  ⟨rfl, size_put, fun c hc => by rw [byteAt?_put hin, if_neg hc]⟩

theorem AgreesOn.finish_eq (h : n.AgreesOn m p) : n.finish = m.finish := by
  rw [finish, finish, h.base, h.size]

theorem AgreesOn.contains_iff (h : n.AgreesOn m p) : n.Contains a k ↔ m.Contains a k := by
  rw [Contains, Contains, offset, offset, h.base, h.size]

theorem AgreesOn.read_eq (h : n.AgreesOn m p)
    (hp : ∀ c, a.toNat ≤ c → c < a.toNat + k → p c) : n.read a k = m.read a k := by
  cases hread : m.read a k with
  | error t =>
    rw [read_error_iff, h.contains_iff]
    exact read_error_iff.1 hread
  | ok bs =>
    rw [read_ok_iff] at hread ⊢
    refine ⟨h.contains_iff.2 hread.1, fun j => ?_⟩
    rw [hread.2 j]
    split
    · exact (h.bytes _ (hp _ (by omega) (by omega))).symm
    · rfl

theorem AgreesOn.readByte_eq (h : n.AgreesOn m p) (hp : p a.toNat) :
    n.readByte a = m.readByte a := by
  by_cases hin : m.Contains a 1
  · have hbyte := h.bytes _ hp
    rw [byteAt?, byteAt?, h.base, if_pos hin.1, if_pos hin.1] at hbyte
    rw [readByte, readByte, if_pos hin, if_pos (h.contains_iff.2 hin), offset, offset, h.base,
      hbyte]
  · rw [readByte, readByte, if_neg hin, if_neg (mt h.contains_iff.1 hin)]

theorem AgreesOn.readWord_eq (h : n.AgreesOn m p)
    (hp : ∀ c, a.toNat ≤ c → c < a.toNat + Word.size → p c) : n.readWord a = m.readWord a := by
  rw [readWord, readWord, h.read_eq hp]

theorem AgreesOn.fetchDatum_eq (h : n.AgreesOn m p)
    (hp : ∀ c, a.toNat ≤ c → c < a.toNat + width.bytes → p c) :
    Effect.fetchDatum n a width = Effect.fetchDatum m a width := by
  cases width with
  | byte =>
    have hbyte : n.readByte a = m.readByte a := h.readByte_eq (hp _ le_rfl (Nat.lt_succ_self _))
    rw [Effect.fetchDatum, Effect.fetchDatum, hbyte]
  | word => exact h.readWord_eq hp

end Memory

/-! ## Operations -/

namespace Access

/-- Whether the byte at an address is part of the access. -/
def Covers (x : Access) (c : Nat) : Prop :=
  x.address.toNat ≤ c ∧ c < x.address.toNat + x.size

instance (x : Access) (c : Nat) : Decidable (x.Covers c) := inferInstanceAs (Decidable (_ ∧ _))

end Access

namespace Effect

variable {e : Effect} {r : RegisterFile} {m n : Memory} {o : Operation} {w : MemoryWrite}
  {p : Nat → Prop} {c : Nat}

/-- On two memories that hold the same data where an operation reads it changes the same. -/
theorem changes_congr (h : n.AgreesOn m p)
    (hp : ∀ x, o.access? r = some x → x.direction = .read → ∀ c, x.Covers c → p c) :
    changes r n o = changes r m o := by
  cases o with
  | load base offset target width =>
    have hdatum : fetchDatum n (r.get base + offset) width =
        fetchDatum m (r.get base + offset) width :=
      h.fetchDatum_eq fun c hlow hhigh => hp _ rfl rfl c ⟨hlow, hhigh⟩
    simp only [changes, hdatum]
  | pop target =>
    have hword := h.readWord_eq fun c hlow hhigh => hp _ rfl rfl c ⟨hlow, hhigh⟩
    simp only [changes, hword]
  | store | push => simp only [changes, writeMemory, h.contains_iff]
  | _ => rfl

theorem byteAt?_updateMemory (hw : e.memoryWrite = some w)
    (hin : m.Contains w.address w.width.bytes) : (e.updateMemory m).byteAt? c =
      if w.address.toNat ≤ c ∧ c < w.address.toNat + w.width.bytes then
        w.bytes[c - w.address.toNat]?
      else m.byteAt? c := by
  rw [← w.length_bytes] at hin ⊢
  simp only [updateMemory, hw]
  exact Memory.byteAt?_put hin

end Effect

/-! ## Reports -/

namespace StepReport

/-- Whether the byte at an address is part of the word that the instruction was fetched from. -/
def Fetches (r : StepReport) (c : Nat) : Prop := r.pc.toNat ≤ c ∧ c < r.pc.toNat + Word.size

/-- Whether the instruction reports that it has accessed the byte at an address. -/
def Touches (r : StepReport) (d : Direction) (c : Nat) : Prop :=
  ∃ x, r.access = some x ∧ x.direction = d ∧ x.Covers c

end StepReport

namespace Watch

/-- Whether accesses to the byte at an address are watched. -/
def Guards (w : Watch) (d : Direction) (c : Nat) : Prop :=
  w.kind.Covers d ∧ w.address.toNat ≤ c ∧ c < w.address.toNat + w.size.toNat

theorem Guards.applies {w : Watch} {x : Access} {c : Nat} (h : w.Guards x.direction c)
    (hx : x.Covers c) : w.Applies x := by
  obtain ⟨hkind, hlow, hhigh⟩ := h
  obtain ⟨hlow', hhigh'⟩ := hx
  exact ⟨hkind, by omega, by omega⟩

end Watch

namespace Tracker

theorem isSome_watched? {t : Tracker} {p : Point Watch} {r : StepReport} {d : Direction} {c : Nat}
    (hp : p ∈ t.watchpoints.points) (henabled : p.enabled = true) (hguards : p.site.Guards d c)
    (htouches : r.Touches d c) : (t.watched? r.access).isSome = true := by
  obtain ⟨x, hx, rfl, hcovers⟩ := htouches
  have htriggers : t.Triggers r := ⟨x, hx, p, hp, henabled, decide_eq_true (hguards.applies hcovers)⟩
  rcases t.watched?_ends (r := r) with ⟨-, hnot⟩ | ⟨x', w, watchpoints, hsome, -⟩
  · exact absurd htriggers hnot
  · rw [hsome]
    rfl

end Tracker

namespace Machine

variable {m m' : Machine} {r : StepReport} {n : Memory}

/-- The machine with another memory. -/
def withMemory (m : Machine) (n : Memory) : Machine := { m with memory := n }

/-- Between a machine and the next one lies an instruction whose report accounts for the data that
it has touched. -/
structure ReportsMemory (m : Machine) (r : StepReport) (m' : Machine) : Prop where
  window : m'.memory.base = m.memory.base ∧ m'.memory.size = m.memory.size
  /-- Where no write is reported all bytes are as they were. -/
  unchanged : ∀ c, ¬ r.Touches .write c → m'.memory.byteAt? c = m.memory.byteAt? c
  /-- The access is that of the operation that has been fetched. Where it is a write, it extends
  over the bytes that are stored. -/
  moved : ∃ w i o, m.memory.readWord m.registers.pc = .ok w ∧
    m.instructions.operation w = .ok (i, o) ∧ r.access = o.access? m.registers ∧
    ∀ x, r.access = some x → x.direction = .write → ∃ datum, o.stored? m.registers = some datum ∧
      datum.address = x.address ∧ m'.memory.read x.address x.size = .ok datum.bytes
  /-- The bytes that are fetched and those where a read is reported decide on all that the
  instruction does. -/
  determined : ∀ n, n.AgreesOn m.memory (fun c => r.Fetches c ∨ r.Touches .read c) →
    ∃ n', (m.withMemory n).step = (.ok r, m'.withMemory n') ∧ ∀ c,
      (r.Touches .write c → n'.byteAt? c = m'.memory.byteAt? c) ∧
      (¬ r.Touches .write c → n'.byteAt? c = n.byteAt? c)
  /-- A watchpoint on any byte that is accessed is triggered. -/
  watched : ∀ (t : Tracker) (p : Point Watch) (d : Direction) (c : Nat),
    p ∈ t.watchpoints.points → p.enabled = true → p.site.Guards d c → r.Touches d c →
      (t.watched? r.access).isSome = true

variable {e : Effect} {o : Operation} {op : Opcode} {pc : Word} {c : Nat} {p : Nat → Prop}

/-- A write is reported of the bytes that go to memory, and of no others. -/
theorem touches_write_iff (h : Effect.ofOperation op o m.registers m.memory = .ok e) :
    (report pc op e).Touches .write c ↔ ∃ w, e.memoryWrite = some w ∧
      w.address.toNat ≤ c ∧ c < w.address.toNat + w.width.bytes := by
  obtain ⟨haccess, hwrite⟩ := Effect.moves_of_ofOperation h
  rw [hwrite]
  constructor
  · rintro ⟨x, hx, hdirection, hcovers⟩
    obtain ⟨w, hw, rfl⟩ := Operation.access?_eq_write.1 ⟨haccess.symm.trans hx, hdirection⟩
    exact ⟨w, hw, hcovers⟩
  · rintro ⟨w, hw, hcovers⟩
    obtain ⟨hx, -⟩ := Operation.access?_eq_write.2 ⟨w, hw, rfl⟩
    exact ⟨_, haccess.trans hx, rfl, hcovers⟩

/-- What goes to memory, in a window like that of the machine, are the same bytes, and the others
stay. -/
theorem byteAt?_of_ofOperation (h : Effect.ofOperation op o m.registers m.memory = .ok e)
    (hn : n.AgreesOn m.memory p) :
    ((report pc op e).Touches .write c →
      (e.updateMemory n).byteAt? c = (e.updateMemory m.memory).byteAt? c) ∧
    (¬ (report pc op e).Touches .write c → (e.updateMemory n).byteAt? c = n.byteAt? c) := by
  rw [touches_write_iff h]
  constructor
  · rintro ⟨w, hw, hcovers⟩
    obtain ⟨hin, -⟩ := Effect.access_of_ofOperation h hw
    rw [Effect.byteAt?_updateMemory hw hin, Effect.byteAt?_updateMemory hw (hn.contains_iff.2 hin),
      if_pos hcovers, if_pos hcovers]
  · intro hnot
    rcases hw : e.memoryWrite with _ | w
    · simp only [Effect.updateMemory, hw]
    · obtain ⟨hin, -⟩ := Effect.access_of_ofOperation h hw
      rw [Effect.byteAt?_updateMemory hw (hn.contains_iff.2 hin),
        if_neg fun hcovers => hnot ⟨w, hw, hcovers⟩]

/-- On memory that holds the same code, and the same data where a read is reported, the same
instruction is retired. -/
theorem step_withMemory (heffect : m.nextEffect = .ok (op, e))
    (hn : n.AgreesOn m.memory fun c => (report m.registers.pc op e).Fetches c ∨
      (report m.registers.pc op e).Touches .read c) :
    (m.withMemory n).step =
      (.ok (report m.registers.pc op e), (m.retire e).withMemory (e.updateMemory n)) := by
  obtain ⟨w, i, o, haligned, hread, hdecode, rfl, hoperation⟩ := fetch_of_nextEffect heffect
  obtain ⟨haccess, -⟩ := Effect.moves_of_ofOperation hoperation
  have hword : (m.withMemory n).memory.readWord m.registers.pc = .ok w :=
    (hn.readWord_eq fun c hlow hhigh => .inl ⟨hlow, hhigh⟩).trans hread
  have hchanges : Effect.changes m.registers n o = Effect.changes m.registers m.memory o :=
    Effect.changes_congr hn fun x hx hdirection c hcovers =>
      .inr ⟨x, haccess.trans hx, hdirection, hcovers⟩
  have hsame : Effect.ofOperation i.opcode o m.registers n = .ok e := by
    rw [Effect.ofOperation, hchanges]
    exact hoperation
  have hnext : (m.withMemory n).nextEffect = .ok (i.opcode, e) := by
    rw [nextEffect_of_fetch (m := m.withMemory n) haligned hword hdecode]
    exact congrArg (· >>= _) hsame
  have htrap : e.trap? (m.withMemory n).memory = none := Effect.trap?_of_ofOperation hsame
  simp only [step, hnext, htrap]
  rfl

/-- **Every access to data is reported.** Of an instruction that is retired, the report says which
bytes it stores and which data it depends on, and so a watchpoint on any of them is triggered. -/
theorem step_reportsMemory (hs : m.step = (.ok r, m')) : ReportsMemory m r m' := by
  obtain ⟨op, e, heffect, -, rfl, rfl⟩ := step_ok hs
  obtain ⟨w, i, o, -, hread, hdecode, rfl, hoperation⟩ := fetch_of_nextEffect heffect
  obtain ⟨haccess, hwrite⟩ := Effect.moves_of_ofOperation hoperation
  have hself : m.memory.AgreesOn m.memory fun _ => True := ⟨rfl, rfl, fun _ _ => rfl⟩
  refine
    { window := ?_
      unchanged := fun c => (byteAt?_of_ofOperation hoperation hself).2
      moved := ⟨w, i, o, hread, hdecode, haccess, fun x hx hdirection => ?_⟩
      determined := fun n hn => ⟨_, step_withMemory heffect hn, fun c =>
        byteAt?_of_ofOperation hoperation hn⟩
      watched := fun t p d c => Tracker.isSome_watched? }
  · rcases hw : e.memoryWrite with _ | w
    · simp only [retire, Effect.updateMemory, hw, and_self]
    · simp only [retire, Effect.updateMemory, hw]
      exact ⟨rfl, Memory.size_put⟩
  · obtain ⟨datum, hdatum, rfl⟩ := Operation.access?_eq_write.1 ⟨haccess.symm.trans hx, hdirection⟩
    obtain ⟨hin, -⟩ := Effect.access_of_ofOperation hoperation (hwrite.trans hdatum)
    refine ⟨datum, hdatum, rfl, ?_⟩
    simp only [retire, Effect.updateMemory, hwrite, hdatum]
    rw [← datum.length_bytes] at hin ⊢
    exact Memory.read_put_self hin

/-- A program that stores the lowest byte of a word on top of its stack. -/
def storing : Program where
  fileName := "unit.o"
  code := [
    { address := some 0x1000, fields := some ⟨.movImm16L, [0x1234, 1]⟩ },
    { address := some 0x1004, fields := some ⟨.strb, [1, 10, 0xFFFF]⟩ },
    { address := some 0x1008, fields := some ⟨.halt, []⟩ }]
  memoryMap := some ⟨0x1000, 0x1000, 12, 0x100C, 0, 12, 4⟩

theorem step_reportsMemory_storing : ∃ m n r n',
    load storing .standard { stackSize := 8 } = .ok m ∧ (m.run (.steps 1)).2 = n ∧
      n.step = (.ok r, n') ∧ r.access = some ⟨0x1013, 1, .write⟩ ∧
      n.memory.byteAt? 0x1013 = some 0 ∧ n'.memory.byteAt? 0x1013 = some 0x34 ∧
      ReportsMemory n r n' := by
  obtain ⟨m, n, hload, hrun, haccess, hbefore, hafter⟩ : ∃ m n,
      load storing .standard { stackSize := 8 } = .ok m ∧ (m.run (.steps 1)).2 = n ∧
      n.step.1.toOption.bind (·.access) = some ⟨0x1013, 1, .write⟩ ∧
      n.memory.byteAt? 0x1013 = some 0 ∧ n.step.2.memory.byteAt? 0x1013 = some 0x34 :=
    ⟨_, _, rfl, rfl, by decide +kernel, by decide +kernel, by decide +kernel⟩
  rcases hstep : n.step with ⟨f | r, n'⟩
  · rw [hstep] at haccess
    cases haccess
  · rw [hstep] at haccess hafter
    exact ⟨m, n, r, n', hload, hrun, hstep, haccess, hbefore, hafter, step_reportsMemory hstep⟩

end Machine
end WordMachine
