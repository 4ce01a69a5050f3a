import Mathlib
import WordMachine.Machine.Alu
import WordMachine.Proofs.Outcome

/-!
# WordMachine.Proofs.IntegerArithmetic

What the calculations of the machine mean in integers. A word stands for two integers, one without a
sign (`toNat`) and one with a sign (`toInt`), and `AluOp.Agrees` says of each calculation what it
does to them, when it traps, and what the flags are afterwards:

* addition, subtraction and multiplication are those of the integers modulo `2 ^ 32`; carry and
  overflow tell whether the exact result without and with a sign is a word (`AluOp.Wraps`);
* division rounds toward zero (`AluOp.Divides`);
* shifts multiply and divide by a power of two (`AluOp.Shifts`).
-/

namespace WordMachine

open Outcome

/-- An integer that is that of a word with a sign. -/
def FitsSigned (z : ℤ) : Prop := -2 ^ 31 ≤ z ∧ z < 2 ^ 31

def FitsUnsigned (z : ℤ) : Prop := 0 ≤ z ∧ z < 2 ^ 32

namespace AluOp

variable {a b w : Word} {flags f : Flags} {op : AluOp}

/-- The result of a calculation, and the flags after it. -/
def outcome (op : AluOp) (a b : Word) (flags : Flags) : Except Trap (Word × Flags) :=
  (op.run a b flags).map fun (result, change) => (result, change.apply flags)

/-- Calculating as `exact` does, modulo `2 ^ 32`. -/
def Wraps (exact : ℤ → ℤ → ℤ) (a b : Word) (x : Except Trap (Word × Flags)) : Prop :=
  ∃ w f, x = .ok (w, f) ∧ (w.toNat : ℤ) = exact a.toNat b.toNat % 2 ^ 32 ∧
    (f.carry ↔ ¬ FitsUnsigned (exact a.toNat b.toNat)) ∧
    (f.overflow ↔ ¬ FitsSigned (exact a.toInt b.toInt))

/-- Calculating as `exact` does, with a trap where that is not defined or its result is no word. -/
def Divides (exact : ℤ → ℤ → ℤ) (a b : Word) (flags : Flags) (x : Except Trap (Word × Flags)) :
    Prop :=
  (b.toInt = 0 → x = .error .divisionByZero) ∧
  (a.toInt = -2 ^ 31 ∧ b.toInt = -1 → x = .error .divisionOverflow) ∧
  (b.toInt ≠ 0 → ¬ (a.toInt = -2 ^ 31 ∧ b.toInt = -1) → ∃ w f, x = .ok (w, f) ∧
    w.toInt = exact a.toInt b.toInt ∧ f.carry = flags.carry ∧ f.overflow = flags.overflow)

def ActsOnBits (bit : Bool → Bool → Bool) (a b : Word) (x : Except Trap (Word × Flags)) : Prop :=
  ∃ w f, x = .ok (w, f) ∧ (∀ i, w.getLsbD i = bit (a.getLsbD i) (b.getLsbD i)) ∧
    f.carry = false ∧ f.overflow = false

/-- Moving the bits of a word by `s` places, the last of them into the carry. -/
def Shifts (s : ℕ) (Moved : Word → Prop) (last : Bool) (flags : Flags)
    (x : Except Trap (Word × Flags)) : Prop :=
  ∃ w f, x = .ok (w, f) ∧ Moved w ∧ f.carry = (if s = 0 then flags.carry else last) ∧
    f.overflow = flags.overflow

/-! ## Exact results that are words -/

theorem bmod_eq_iff_fits {z : ℤ} : z.bmod (2 ^ 32) = z ↔ FitsSigned z := by
  rw [FitsSigned, Int.bmod_def]
  omega

theorem msb_add_iff : ((a ^^^ (a + b)) &&& (b ^^^ (a + b))).msb ↔
    ¬ FitsSigned (a.toInt + b.toInt) := by
  -- The sum is exact unless its sign is neither's.
  have hsign : ((a ^^^ (a + b)) &&& (b ^^^ (a + b))).msb = a.saddOverflow b := by
    rw [BitVec.saddOverflow_eq, BitVec.msb_and, BitVec.msb_xor, BitVec.msb_xor]
    cases a.msb <;> cases b.msb <;> cases (a + b).msb <;> rfl
  rw [hsign, FitsSigned, BitVec.saddOverflow, Bool.or_eq_true, decide_eq_true_eq, decide_eq_true_eq]
  omega

theorem msb_sub_iff : ((a ^^^ b) &&& (a ^^^ (a - b))).msb ↔ ¬ FitsSigned (a.toInt - b.toInt) := by
  -- The difference is exact unless the signs differ and its own is that of the second.
  have hsign : ((a ^^^ b) &&& (a ^^^ (a - b))).msb = a.ssubOverflow b := by
    rw [BitVec.ssubOverflow_eq, BitVec.msb_and, BitVec.msb_xor, BitVec.msb_xor]
    cases a.msb <;> cases b.msb <;> cases (a - b).msb <;> rfl
  rw [hsign, FitsSigned, BitVec.ssubOverflow, Bool.or_eq_true, decide_eq_true_eq, decide_eq_true_eq]
  omega

theorem mul_ne_iff : a.toInt * b.toInt ≠ (a * b).toInt ↔ ¬ FitsSigned (a.toInt * b.toInt) := by
  rw [← bmod_eq_iff_fits, BitVec.toInt_mul, ne_comm]

theorem wraps_add : Wraps (· + ·) a b (add.outcome a b flags) := by
  refine ⟨_, _, rfl, ?_, decide_eq_true_iff.trans ?_, msb_add_iff⟩
  · rw [BitVec.toNat_add]
    exact_mod_cast rfl
  · beta_reduce
    rw [FitsUnsigned]
    omega

theorem wraps_sub : Wraps (· - ·) a b (sub.outcome a b flags) := by
  refine ⟨_, _, rfl, ?_, BitVec.ult_iff_toNat_lt.trans ?_, msb_sub_iff⟩
  · beta_reduce
    rw [BitVec.toNat_sub]
    omega
  · beta_reduce
    rw [FitsUnsigned]
    omega

theorem wraps_mul : Wraps (· * ·) a b (mul.outcome a b flags) := by
  refine ⟨_, _, rfl, ?_, decide_eq_true_iff.trans ?_, decide_eq_true_iff.trans mul_ne_iff⟩
  · rw [BitVec.toNat_mul]
    exact_mod_cast rfl
  · beta_reduce
    rw [FitsUnsigned, ← Int.natCast_mul]
    omega

/-! ## Division -/

theorem toInt_eq_zero_iff : b.toInt = 0 ↔ b = 0 := by
  rw [← BitVec.toInt_inj, BitVec.ofNat_eq_ofNat, BitVec.toInt_zero]

theorem overflows_iff : a.toInt = -2 ^ 31 ∧ b.toInt = -1 ↔ a = BitVec.intMin 32 ∧ b = -1 := by
  rw [← BitVec.toInt_inj (x := a), ← BitVec.toInt_inj (x := b)]
  exact Iff.rfl

theorem divides_of {exact : ℤ → ℤ → ℤ}
    (hrun : op.run a b flags =
      if b = 0 then .error .divisionByZero
      else if a = BitVec.intMin 32 ∧ b = -1 then .error .divisionOverflow
      else .ok (w, .signOf w))
    (hresult : ¬ (a = BitVec.intMin 32 ∧ b = -1) → w.toInt = exact a.toInt b.toInt) :
    Divides exact a b flags (op.outcome a b flags) := by
  -- Both divisions trap alike, so that only the result is left to each.
  rw [Divides, ne_eq, toInt_eq_zero_iff, overflows_iff, outcome, hrun]
  refine ⟨?_, ?_, ?_⟩
  · intro hzero
    rw [if_pos hzero]
    rfl
  · rintro ⟨rfl, rfl⟩
    rfl
  · intro hzero hover
    rw [if_neg hzero, if_neg hover]
    exact ⟨_, _, rfl, hresult hover, rfl, rfl⟩

theorem divides_div : Divides Int.tdiv a b flags (div.outcome a b flags) :=
  divides_of rfl fun hover =>
    BitVec.toInt_sdiv_of_ne_or_ne a b (by rw [ne_eq, ne_eq, ← not_and_or]; exact hover)

theorem divides_mod : Divides Int.tmod a b flags (mod.outcome a b flags) :=
  divides_of rfl fun _ => BitVec.toInt_srem a b

theorem quotient_remainder {q r : Word} {f' : Flags} (hq : div.outcome a b flags = .ok (q, f))
    (hr : mod.outcome a b flags = .ok (r, f')) : q.toInt * b.toInt + r.toInt = a.toInt := by
  have hzero : b.toInt ≠ 0 := fun h => by cases hq.symm.trans (divides_div.1 h)
  have hover : ¬ (a.toInt = -2 ^ 31 ∧ b.toInt = -1) :=
    fun h => by cases hq.symm.trans (divides_div.2.1 h)
  obtain ⟨q', _, hq', hquotient, -⟩ := divides_div.2.2 hzero hover
  obtain ⟨r', _, hr', hremainder, -⟩ := divides_mod.2.2 hzero hover
  cases hq.symm.trans hq'
  cases hr.symm.trans hr'
  rw [hquotient, hremainder]
  exact Int.tdiv_mul_add_tmod a.toInt b.toInt

/-! ## Bits and shifts -/

theorem actsOnBits_and : ActsOnBits (· && ·) a b (and.outcome a b flags) :=
  ⟨_, _, rfl, fun _ => BitVec.getLsbD_and, rfl, rfl⟩

theorem actsOnBits_or : ActsOnBits (· || ·) a b (or.outcome a b flags) :=
  ⟨_, _, rfl, fun _ => BitVec.getLsbD_or, rfl, rfl⟩

theorem actsOnBits_xor : ActsOnBits Bool.xor a b (xor.outcome a b flags) :=
  ⟨_, _, rfl, fun _ => BitVec.getLsbD_xor, rfl, rfl⟩

theorem distance_lt : distance b < 32 := Nat.mod_lt _ (by decide)

theorem shifts_shl : Shifts (distance b) (fun w => w.toNat = a.toNat * 2 ^ distance b % 2 ^ 32)
    ((a.toNat * 2 ^ distance b).testBit 32) flags (shl.outcome a b flags) := by
  refine ⟨_, _, rfl, ?_, ?_, rfl⟩
  · beta_reduce
    rw [BitVec.toNat_shiftLeft, Nat.shiftLeft_eq]
  · have hplace : (a.toNat * 2 ^ distance b).testBit 32 = a.getLsbD (32 - distance b) := by
      rw [Nat.testBit_mul_two_pow, decide_eq_true distance_lt.le, Bool.true_and,
        BitVec.testBit_toNat]
    rw [hplace]
    rfl

theorem shifts_shr : Shifts (distance b) (fun w => w.toNat = a.toNat / 2 ^ distance b)
    (a.toNat.testBit (distance b - 1)) flags (shr.outcome a b flags) := by
  refine ⟨_, _, rfl, ?_, ?_, rfl⟩
  · beta_reduce
    rw [BitVec.toNat_ushiftRight, Nat.shiftRight_eq_div_pow]
  · rw [BitVec.testBit_toNat]
    rfl

theorem shifts_asr : Shifts (distance b) (fun w => w.toInt = a.toInt.fdiv (2 ^ distance b))
    (a.toNat.testBit (distance b - 1)) flags (asr.outcome a b flags) := by
  refine ⟨_, _, rfl, ?_, ?_, rfl⟩
  · beta_reduce
    have hpos : (0 : ℤ) ≤ 2 ^ distance b := by positivity
    rw [BitVec.toInt_sshiftRight, Int.shiftRight_eq_div_pow, Int.fdiv_eq_ediv_of_nonneg _ hpos]
    exact_mod_cast rfl
  · rw [BitVec.testBit_toNat]
    rfl

/-! ## Negative and zero -/

/-- But for a comparison, the flags tell of the result. -/
theorem change_of_run {change : FlagsChange} (hop : op ≠ cmp)
    (h : op.run a b flags = .ok (w, change)) :
    change = .signOf w ∨ ∃ carry overflow, change = .ofResult w carry overflow := by
  cases op with
  | cmp => exact absurd rfl hop
  | div | mod =>
    simp only [run] at h
    split at h
    · cases h
    · split at h
      · cases h
      · cases h
        exact .inl rfl
  | _ =>
    cases h
    exact .inr ⟨_, _, rfl⟩

theorem sign_of_outcome (hop : op ≠ cmp) (h : op.outcome a b flags = .ok (w, f)) :
    f.negative = w.getLsbD 31 ∧ (f.zero ↔ w = 0) := by
  obtain ⟨⟨_, change⟩, hrun, happly⟩ := map_ok_iff.mp h
  cases happly
  have hsign : w.msb = w.getLsbD 31 := BitVec.msb_eq_getLsbD_last w
  rcases change_of_run hop hrun with rfl | ⟨carry, overflow, rfl⟩
  · exact ⟨hsign, beq_iff_eq⟩
  · exact ⟨hsign, beq_iff_eq⟩

/-! ## All calculations -/

/-- What each calculation on two words is in integers, whatever the flags before it. -/
structure Agrees (a b : Word) (flags : Flags) : Prop where
  add : Wraps (· + ·) a b (outcome .add a b flags)
  sub : Wraps (· - ·) a b (outcome .sub a b flags)
  mul : Wraps (· * ·) a b (outcome .mul a b flags)
  div : Divides Int.tdiv a b flags (outcome .div a b flags)
  mod : Divides Int.tmod a b flags (outcome .mod a b flags)
  /-- Where there is no trap, quotient and remainder make up the dividend. -/
  division : ∀ q r f f', outcome .div a b flags = .ok (q, f) →
    outcome .mod a b flags = .ok (r, f') → q.toInt * b.toInt + r.toInt = a.toInt
  and : ActsOnBits (· && ·) a b (outcome .and a b flags)
  or : ActsOnBits (· || ·) a b (outcome .or a b flags)
  xor : ActsOnBits Bool.xor a b (outcome .xor a b flags)
  shl : Shifts (b.toNat % 32) (fun w => w.toNat = a.toNat * 2 ^ (b.toNat % 32) % 2 ^ 32)
    ((a.toNat * 2 ^ (b.toNat % 32)).testBit 32) flags (outcome .shl a b flags)
  shr : Shifts (b.toNat % 32) (fun w => w.toNat = a.toNat / 2 ^ (b.toNat % 32))
    (a.toNat.testBit (b.toNat % 32 - 1)) flags (outcome .shr a b flags)
  asr : Shifts (b.toNat % 32) (fun w => w.toInt = a.toInt.fdiv (2 ^ (b.toNat % 32)))
    (a.toNat.testBit (b.toNat % 32 - 1)) flags (outcome .asr a b flags)
  sign : ∀ op w f, op ≠ cmp → op.outcome a b flags = .ok (w, f) →
    f.negative = w.getLsbD 31 ∧ (f.zero ↔ w = 0)

theorem agrees (a b : Word) (flags : Flags) : Agrees a b flags where
  add := wraps_add
  sub := wraps_sub
  mul := wraps_mul
  div := divides_div
  mod := divides_mod
  division _ _ _ _ := quotient_remainder
  and := actsOnBits_and
  or := actsOnBits_or
  xor := actsOnBits_xor
  shl := shifts_shl
  shr := shifts_shr
  asr := shifts_asr
  sign _ _ _ := sign_of_outcome

end AluOp
end WordMachine
