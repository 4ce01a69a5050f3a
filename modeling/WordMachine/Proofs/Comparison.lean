import Mathlib
import WordMachine.Proofs.Execution
import WordMachine.Proofs.IntegerArithmetic

/-!
# WordMachine.Proofs.Comparison

A comparison tells twice how two words are ordered: by the relations in its mask and by the flags of
the subtraction. Both tell the same (`AluOp.Describes`), and it is the order of the integers that
the words stand for (`Relation.Between`).

* `Relation.within_conditionMask`: a bit of the mask says whether its relation holds;
* `AluOp.negative_xor_overflow`: the sign of the difference, put right where the difference is no
  word, says whether the first word is the smaller one;
* `Effect.exists_comparison`: what a comparison delivers and leaves in the registers, and when a
  conditional jump on it is taken.
-/

namespace WordMachine

open Outcome

variable {a b mask select w : Word}

theorem Word.ne_zero_iff : w ≠ 0 ↔ ∃ i, w.getLsbD i := by
  constructor
  · intro hne
    by_contra hnone
    refine hne (BitVec.eq_of_getLsbD_eq fun i _ => ?_)
    rw [Bool.eq_false_of_not_eq_true (not_exists.1 hnone i)]
    exact BitVec.getLsbD_zero.symm
  · rintro ⟨i, hi⟩ rfl
    cases BitVec.getLsbD_zero.symm.trans hi

/-! ## Relations and their bits -/

namespace Relation

/-- The relation between two words, as one of the integers that they stand for: `lo` and `hs` are
about those without a sign, the others about those with one. -/
def Between : Relation → Word → Word → Prop
  | eq, a, b => a.toInt = b.toInt
  | ne, a, b => a.toInt ≠ b.toInt
  | lt, a, b => a.toInt < b.toInt
  | le, a, b => a.toInt ≤ b.toInt
  | gt, a, b => b.toInt < a.toInt
  | ge, a, b => b.toInt ≤ a.toInt
  | lo, a, b => a.toNat < b.toNat
  | hs, a, b => b.toNat ≤ a.toNat

def opposite : Relation → Relation
  | eq => ne
  | ne => eq
  | lt => ge
  | ge => lt
  | le => gt
  | gt => le
  | lo => hs
  | hs => lo

/-- Whether a mask has the bit of the relation. -/
def within (r : Relation) (mask : Word) : Bool := mask.getLsbD r.bit

theorem holds_iff (r : Relation) : r.holds a b ↔ r.Between a b := by
  cases r with
  | eq => exact beq_iff_eq.trans BitVec.toInt_inj.symm
  | ne => exact bne_iff_ne.trans (not_congr BitVec.toInt_inj.symm)
  | lt | gt => exact BitVec.slt_iff_toInt_lt
  | le | ge => exact BitVec.sle_iff_toInt_le
  | lo => exact BitVec.ult_iff_toNat_lt
  | hs => exact BitVec.ule_iff_toNat_le

instance (r : Relation) (a b : Word) : Decidable (r.Between a b) := decidable_of_iff _ r.holds_iff

theorem opposite_between (r : Relation) : r.opposite.Between a b ↔ ¬ r.Between a b := by
  cases r <;> simp only [opposite, Between, not_lt, not_le, not_not, ne_eq]

theorem mem_all (r : Relation) : r ∈ all := by
  cases r <;> decide

theorem bit_lt (r : Relation) : r.bit < 32 := by
  cases r <;> decide

theorem bit_injective {r q : Relation} (h : r.bit = q.bit) : r = q := by
  revert h
  cases r <;> cases q <;> decide

theorem getLsbD_bit (r : Relation) (i : Nat) :
    ((1 <<< r.bit : Nat) : Word).getLsbD i ↔ r.bit = i := by
  have hlt := r.bit_lt
  rw [BitVec.natCast_eq_ofNat, BitVec.getLsbD_ofNat, Nat.one_shiftLeft, Nat.testBit_two_pow,
    Bool.and_eq_true, decide_eq_true_eq, decide_eq_true_eq]
  omega

theorem getLsbD_foldl_bits (i : Nat) :
    ∀ {rs : List Relation} {w : Word},
      (rs.foldl (fun mask r => mask ||| ((1 <<< r.bit : Nat) : Word)) w).getLsbD i ↔
        w.getLsbD i ∨ ∃ r ∈ rs, r.bit = i := by
  intro rs
  induction rs with
  | nil => intro w; simp
  | cons r rs ih =>
    intro w
    rw [List.foldl_cons, ih, BitVec.getLsbD_or, Bool.or_eq_true, getLsbD_bit,
      List.exists_mem_cons_iff, or_assoc]

/-- A mask has the bits of the relations that hold, and no other. -/
theorem getLsbD_conditionMask (i : Nat) :
    (conditionMask a b).getLsbD i ↔ ∃ r : Relation, r.Between a b ∧ r.bit = i := by
  rw [conditionMask, getLsbD_foldl_bits]
  simp [List.mem_filter, mem_all, holds_iff]

theorem within_conditionMask (r : Relation) : r.within (conditionMask a b) ↔ r.Between a b := by
  rw [within, getLsbD_conditionMask]
  constructor
  · rintro ⟨q, hq, hbit⟩
    rwa [← bit_injective hbit]
  · intro hr
    exact ⟨r, hr, rfl⟩

theorem conditionMask_and_ne_zero_iff :
    conditionMask a b &&& select ≠ 0 ↔ ∃ r : Relation, r.within select ∧ r.Between a b := by
  rw [Word.ne_zero_iff]
  constructor
  · rintro ⟨i, hi⟩
    rw [BitVec.getLsbD_and, Bool.and_eq_true, getLsbD_conditionMask] at hi
    obtain ⟨⟨r, hr, rfl⟩, hselect⟩ := hi
    exact ⟨r, hselect, hr⟩
  · rintro ⟨r, hselect, hr⟩
    refine ⟨r.bit, ?_⟩
    rw [BitVec.getLsbD_and, Bool.and_eq_true]
    exact ⟨(within_conditionMask r).2 hr, hselect⟩

end Relation

/-! ## Mask and flags -/

namespace AluOp

variable {flags : Flags}

theorem negative_xor_overflow :
    ((a - b).msb ^^ ((a ^^^ b) &&& (a ^^^ (a - b))).msb) = true ↔ a.toInt < b.toInt := by
  -- The difference of the words is that of the integers but for a multiple of 2 ^ 32. Where the
  -- integer is no word its sign is the other one, and this is what the overflow says.
  have hoverflow := msb_sub_iff (a := a) (b := b)
  have hsign : (a - b).msb = true ↔ (a.toInt - b.toInt).bmod (2 ^ 32) < 0 := by
    rw [BitVec.msb_eq_toInt, decide_eq_true_eq, BitVec.toInt_sub]
  have ha := BitVec.toInt_lt (x := a)
  have ha' := BitVec.le_toInt a
  have hb := BitVec.toInt_lt (x := b)
  have hb' := BitVec.le_toInt b
  rw [Int.bmod_def] at hsign
  rw [FitsSigned] at hoverflow
  rw [Bool.xor_iff_ne, ne_eq, Bool.eq_iff_iff, hsign, hoverflow]
  omega

/-- A mask and flags that tell of the same order of two words: the mask has the bits of the
relations that hold, one of each relation and its opposite, and the flags agree with it. -/
structure Describes (a b mask : Word) (f : Flags) : Prop where
  relations : ∀ r : Relation, r.within mask ↔ r.Between a b
  opposite : ∀ r : Relation, r.opposite.within mask = !r.within mask
  eq : Relation.eq.within mask = f.zero
  lo : Relation.lo.within mask = f.carry
  lt : Relation.lt.within mask = (f.negative ^^ f.overflow)
  le : Relation.le.within mask = (Relation.lt.within mask || f.zero)

theorem describes_cmp {f : Flags} (h : cmp.outcome a b flags = .ok (mask, f)) :
    Describes a b mask f := by
  cases h
  have hzero : (a - b == 0) = true ↔ a.toInt = b.toInt := by
    rw [beq_iff_eq, sub_eq_zero, BitVec.toInt_inj]
  refine ⟨Relation.within_conditionMask, fun r => ?_, ?_, ?_, ?_, ?_⟩
  · rw [Bool.eq_iff_iff, Bool.not_eq_true', ← Bool.not_eq_true, Relation.within_conditionMask,
      Relation.within_conditionMask, Relation.opposite_between]
  · rw [Bool.eq_iff_iff, Relation.within_conditionMask]
    exact hzero.symm
  · rw [Bool.eq_iff_iff, Relation.within_conditionMask]
    exact BitVec.ult_iff_toNat_lt.symm
  · rw [Bool.eq_iff_iff, Relation.within_conditionMask]
    exact negative_xor_overflow.symm
  · rw [Bool.eq_iff_iff, Bool.or_eq_true, Relation.within_conditionMask,
      Relation.within_conditionMask]
    exact le_iff_lt_or_eq.trans (or_congr_right hzero.symm)

end AluOp

/-! ## Comparing and jumping -/

namespace Effect

variable {r : RegisterFile} {m : Memory} {e : Effect} {f : Flags}
  {left right condition target : Register}

/-- Comparing two registers leaves the mask in the target, if it is one that keeps what is written
to it, and the flags in the flags word. -/
def Compares (r : RegisterFile) (m : Memory) (left right target : Register) (mask : Word)
    (f : Flags) : Prop :=
  ∃ e, ofOperation .cmp (.alu .cmp left right target) r m = .ok e ∧
    e.commit r m = .ok (e.commitRegisters r, m) ∧ (e.commitRegisters r).flags = f ∧
      (target ≠ .pc → target ≠ .cpsr → (e.commitRegisters r).get target = mask)

theorem exists_cmp (h : AluOp.cmp.outcome (r.get left) (r.get right) r.flags = .ok (mask, f)) :
    ∃ e, ofOperation .cmp (.alu .cmp left right target) r m = .ok e ∧ e.memoryWrite = none ∧
      e.flags = .all f ∧ (target ≠ .pc → e.registers = [(target, mask)]) := by
  cases h
  refine ⟨_, rfl, memoryWrite_writeRegister, rfl, fun hpc => ?_⟩
  simp only [writeRegister, if_neg hpc]
  rfl

theorem compares (h : AluOp.cmp.outcome (r.get left) (r.get right) r.flags = .ok (mask, f)) :
    Compares r m left right target mask f := by
  obtain ⟨e, he, hmemory, hflags, hregisters⟩ := exists_cmp h
  refine ⟨e, he, ?_, by rw [flags_commitRegisters, hflags, FlagsChange.apply], fun hpc hcpsr => ?_⟩
  · rw [commit_of_ofOperation he, updateMemory, hmemory]
  · exact get_commitRegisters_of_registers hpc hcpsr (hregisters hpc)

/-- Going on at the address in the target where something holds, and with the next instruction
where it does not. -/
def JumpsWhen (p : Prop) (r : RegisterFile) (m : Memory) (condition : Register) (select : Word)
    (target : Register) : Prop :=
  ∃ e, ofOperation .jcond (.jumpIf condition select target) r m = .ok e ∧
    (p → e.transfer = some (.jump (r.get target)) ∧ e.nextPc = r.get target) ∧
      (¬ p → e.transfer = none ∧ e.nextPc = r.pc + 4)

theorem jumpsWhen_jumpIf :
    JumpsWhen (r.get condition &&& select ≠ 0) r m condition select target := by
  refine ⟨_, rfl, fun h => ?_, fun h => ?_⟩
  · have htaken : taken r (.jumpIf condition select target) := decide_eq_true h
    simp only [htaken, if_true]
    exact ⟨rfl, rfl⟩
  · have hpassed : taken r (.jumpIf condition select target) = false := decide_eq_false h
    simp only [hpassed, Bool.false_eq_true, if_false]
    exact ⟨rfl, rfl⟩

/-- **A comparison and its uses.** Comparing two words delivers a mask and flags that tell of the
same order. They are what a comparison of two registers leaves, and a conditional jump on the mask
is taken exactly when one of the relations that it selects holds of the words. -/
theorem exists_comparison (a b : Word) (flags : Flags) :
    ∃ mask f, AluOp.cmp.outcome a b flags = .ok (mask, f) ∧ AluOp.Describes a b mask f ∧
      (∀ (r : RegisterFile) (m : Memory) (left right target : Register),
        r.get left = a → r.get right = b → Compares r m left right target mask f) ∧
      ∀ (r : RegisterFile) (m : Memory) (condition target : Register) (select : Word),
        r.get condition = mask →
          JumpsWhen (∃ q : Relation, q.within select ∧ q.Between a b) r m condition select
            target := by
  refine ⟨_, _, rfl, AluOp.describes_cmp rfl, ?_, ?_⟩
  · rintro r m left right target rfl rfl
    exact compares rfl
  · intro r m condition target select hmask
    have hjump : JumpsWhen (r.get condition &&& select ≠ 0) r m condition select target :=
      jumpsWhen_jumpIf
    rw [hmask, Relation.conditionMask_and_ne_zero_iff] at hjump
    exact hjump

/-- The least word with a sign and one above 0, whose difference is no word with a sign. -/
def farApart : RegisterFile :=
  ((RegisterFile.zeros.set .r0 (BitVec.intMin 32)).set .r1 1).set .r2 142

theorem exists_comparison_farApart :
    Compares farApart (.zeros 0 0) .r0 .r1 .r2 142 { overflow := true } ∧
      (∃ e, ofOperation .jcond (.jumpIf .r2 0x04 .r0) farApart (.zeros 0 0) = .ok e ∧
        e.nextPc = BitVec.intMin 32) ∧
      ∃ e, ofOperation .jcond (.jumpIf .r2 0x60 .r0) farApart (.zeros 0 0) = .ok e ∧
        e.nextPc = 4 := by
  obtain ⟨mask, f, houtcome, -, hcompares, hjumps⟩ := exists_comparison (BitVec.intMin 32) 1 {}
  cases houtcome
  refine ⟨hcompares farApart _ .r0 .r1 .r2 (by decide) (by decide), ?_, ?_⟩
  · obtain ⟨e, he, htaken, -⟩ := hjumps farApart (.zeros 0 0) .r2 .r0 0x04 (by decide)
    exact ⟨e, he, (htaken ⟨.lt, by decide, by decide⟩).2⟩
  · obtain ⟨e, he, -, hpassed⟩ := hjumps farApart (.zeros 0 0) .r2 .r0 0x60 (by decide)
    have hnone : ∀ q : Relation, ¬ (q.within 0x60 ∧ q.Between (BitVec.intMin 32) 1) := by
      intro q
      cases q <;> decide
    exact ⟨e, he, (hpassed (not_exists.2 hnone)).2⟩

end Effect
end WordMachine
