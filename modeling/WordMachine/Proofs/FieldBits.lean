import Mathlib
import WordMachine.Instruction.Field

/-!
# WordMachine.Proofs.FieldBits

One field of a word, bit by bit and as a number.

* `getLsbD_extract`, `fits_iff`: the bits that a field reads, and those that a value may have.
* `extract_shift_self`, `extract_shift_of_apart`: a value laid into a field is read back there
  and does not show in a field apart from it.
* `interpret_represent`, `represent_interpret`: between the numbers in the range of a field and
  the values that fit it, meaning and representation are inverse to each other.
-/

namespace WordMachine
namespace Word

theorem getLsbD_ones (n i : Nat) : (ones n).getLsbD i = (decide (i < 32) && decide (i < n)) := by
  simp [ones, Nat.one_shiftLeft, BitVec.getLsbD_ofNat, Nat.testBit_two_pow_sub_one]

theorem toNat_ones {n : Nat} (h : n ≤ 32) : (ones n).toNat = 2 ^ n - 1 := by
  have hpow : 2 ^ n ≤ 2 ^ 32 := Nat.pow_le_pow_right (by decide) h
  rw [ones, Nat.one_shiftLeft, BitVec.toNat_ofNat, Nat.mod_eq_of_lt]
  omega

end Word

namespace Field

variable {f g : Field} {v : Word}

/-! ## Bits -/

theorem getLsbD_extract (f : Field) (w : Word) (i : Nat) :
    (f.extract w).getLsbD i = (decide (i < f.width) && w.getLsbD (f.position + i)) := by
  rw [extract, BitVec.getLsbD_and, BitVec.getLsbD_ushiftRight, mask, Word.getLsbD_ones,
    Bool.and_comm]
  by_cases h : i < 32
  · simp [h]
  · simp [h, BitVec.getLsbD_of_ge w (f.position + i) (by omega)]

theorem fits_iff_lt : f.Fits v ↔ v.toNat < 2 ^ f.width := by
  rw [Fits, Nat.one_shiftLeft]

/-- A value fits when it has no bit beyond the width. -/
theorem fits_iff : f.Fits v ↔ ∀ i, f.width ≤ i → v.getLsbD i = false := by
  rw [fits_iff_lt]
  constructor
  · intro h i hi
    exact Nat.testBit_lt_two_pow (Nat.lt_of_lt_of_le h (Nat.pow_le_pow_right (by decide) hi))
  · intro h
    exact Nat.lt_pow_two_of_testBit _ fun i hi => h i hi

theorem fits_extract (f : Field) (w : Word) : f.Fits (f.extract w) := by
  rw [fits_iff]
  intro i hi
  simp [getLsbD_extract, Nat.not_lt.mpr hi]

theorem extract_or (f : Field) (v w : Word) :
    f.extract (v ||| w) = f.extract v ||| f.extract w := by
  apply BitVec.eq_of_getLsbD_eq
  intro i _
  simp [getLsbD_extract, Bool.and_or_distrib_left]

theorem extract_shift_self (h : f.Fits v) (hs : f.stop ≤ 32) :
    f.extract (v <<< f.position) = v := by
  apply BitVec.eq_of_getLsbD_eq
  intro i _
  rw [getLsbD_extract, BitVec.getLsbD_shiftLeft]
  unfold stop at hs
  by_cases hi : i < f.width
  · simp [hi]; omega
  · simp [hi, fits_iff.1 h i (by omega)]

theorem extract_shift_of_apart (h : g.Fits v) (ha : ¬ f.Overlaps g) :
    f.extract (v <<< g.position) = 0 := by
  apply BitVec.eq_of_getLsbD_eq
  intro i _
  rw [getLsbD_extract, BitVec.getLsbD_shiftLeft]
  unfold Overlaps stop at ha
  by_cases hi : i < f.width
  · by_cases hg : f.position + i < g.position
    · simp [hg]
    · rw [fits_iff.1 h (f.position + i - g.position) (by omega)]
      simp
  · simp [hi]

/-! ## Numbers -/

theorem cast_shiftLeft (n : Nat) : ((1 <<< n : Nat) : Int) = 2 ^ n := by
  rw [Nat.one_shiftLeft, Int.natCast_pow]
  rfl

theorem toNat_and_mask (hw : f.width ≤ 32) (w : Word) :
    (w &&& f.mask).toNat = w.toNat % 2 ^ f.width := by
  rw [mask, BitVec.toNat_and, Word.toNat_ones hw, Nat.and_two_pow_sub_one_eq_mod]

theorem fits_represent (hw : f.width ≤ 32) (n : Int) : f.Fits (f.represent n) := by
  rw [fits_iff_lt, represent, toNat_and_mask hw]
  exact Nat.mod_lt _ (Nat.two_pow_pos _)

/-- A field keeps a number up to a multiple of the number of its values. -/
theorem toNat_represent (hw : f.width ≤ 32) (n : Int) :
    ((f.represent n).toNat : Int) = n % (2 ^ f.width : Nat) := by
  have hd : ((2 ^ f.width : Nat) : Int) ∣ (2 ^ 32 : Nat) :=
    Int.natCast_dvd_natCast.2 (Nat.pow_dvd_pow 2 hw)
  rw [represent, toNat_and_mask hw, BitVec.toNat_ofInt, Int.natCast_emod,
    Int.toNat_of_nonneg (Int.emod_nonneg n (by decide)), Int.emod_emod_of_dvd n hd]

theorem interpret_signed (hs : f.signedness = .signed) (h : f.Fits v) :
    f.interpret v = (v.toNat : Int).bmod (2 ^ f.width) := by
  simp only [interpret, hs]
  rw [BitVec.toInt_eq_toNat_bmod, BitVec.toNat_setWidth, Nat.mod_eq_of_lt (fits_iff_lt.1 h)]

theorem interpret_represent (h0 : 0 < f.width) (hw : f.width ≤ 32) {n : Int} (hmin : f.min ≤ n)
    (hmax : n ≤ f.max) : f.interpret (f.represent n) = n := by
  cases hs : f.signedness with
  | unsigned =>
    simp only [min, max, cast_shiftLeft, interpret, hs] at hmin hmax ⊢
    rw [toNat_represent hw]
    exact Int.emod_eq_of_lt hmin (by push_cast; omega)
  | signed =>
    simp only [min, max, cast_shiftLeft, hs] at hmin hmax
    rw [interpret_signed hs (fits_represent hw n), toNat_represent hw, Int.emod_bmod]
    obtain ⟨k, hk⟩ : ∃ k, f.width = k + 1 := ⟨f.width - 1, by omega⟩
    rw [hk] at hmin hmax ⊢
    simp only [Nat.add_sub_cancel] at hmin hmax
    apply Int.bmod_eq_of_le_mul_two <;> rw [Int.natCast_pow, Int.pow_succ] <;> push_cast <;> omega

theorem represent_interpret (hw : f.width ≤ 32) (h : f.Fits v) :
    f.represent (f.interpret v) = v := by
  apply BitVec.eq_of_toNat_eq
  apply Int.ofNat_inj.1
  rw [toNat_represent hw]
  have hv : (v.toNat : Int) % (2 ^ f.width : Nat) = v.toNat :=
    Int.emod_eq_of_lt (by omega) (by exact_mod_cast fits_iff_lt.1 h)
  cases hs : f.signedness with
  | unsigned => simpa only [interpret, hs] using hv
  | signed => rw [interpret_signed hs h, Int.bmod_emod, hv]

theorem interpret_mem (h0 : 0 < f.width) (h : f.Fits v) :
    f.min ≤ f.interpret v ∧ f.interpret v ≤ f.max := by
  cases hs : f.signedness with
  | unsigned =>
    have h' : (v.toNat : Int) < 2 ^ f.width := by exact_mod_cast fits_iff_lt.1 h
    simp only [min, max, cast_shiftLeft, interpret, hs]
    omega
  | signed =>
    have hle := Int.le_bmod (x := v.toNat) (Nat.two_pow_pos f.width)
    have hlt := Int.bmod_lt (x := v.toNat) (Nat.two_pow_pos f.width)
    rw [interpret_signed hs h]
    simp only [min, max, cast_shiftLeft, hs]
    obtain ⟨k, hk⟩ : ∃ k, f.width = k + 1 := ⟨f.width - 1, by omega⟩
    rw [hk, Int.natCast_pow, Int.pow_succ] at hle hlt
    rw [hk]
    simp only [Nat.add_sub_cancel]
    push_cast at hle hlt
    omega

end Field
end WordMachine
