import Mathlib
import WordMachine.Program.Placement
import WordMachine.Proofs.Outcome

/-!
# WordMachine.Proofs.PlanLimits

When a plan is refused, in natural numbers. `planMemory_eq` says which check a plan fails first.
A plan is to be refused for the address space when it ends past it; it is refused also where the
data begins, or the whole has the size, of the address space itself, since neither number is a word
(`planMemory_overflow_iff`). Code that ends with the address space and has no data after it is such
a plan.
-/

namespace WordMachine

open Outcome

theorem le_alignUp (n alignment : Nat) : n ≤ alignUp n alignment := by
  rw [alignUp]
  by_cases h0 : alignment = 0
  · exact Nat.le_of_eq (if_pos h0).symm
  · rw [if_neg h0]
    have hwhole := Nat.div_add_mod (n + alignment - 1) alignment
    have hrest := Nat.mod_lt (n + alignment - 1) (Nat.pos_of_ne_zero h0)
    rw [Nat.mul_comm] at hwhole
    omega

theorem alignUp_isLeast {n alignment : Nat} (h : alignment ≠ 0) :
    IsLeast {k | alignment ∣ k ∧ n ≤ k} (alignUp n alignment) := by
  refine ⟨⟨?_, le_alignUp n alignment⟩, ?_⟩
  · rw [alignUp, if_neg h]
    exact Nat.dvd_mul_left _ _
  · rintro k ⟨⟨j, rfl⟩, hk⟩
    rw [alignUp, if_neg h, Nat.mul_comm alignment j]
    refine Nat.mul_le_mul_right alignment (Nat.le_of_lt_succ ?_)
    rw [Nat.div_lt_iff_lt_mul (Nat.pos_of_ne_zero h), Nat.succ_mul, Nat.mul_comm j]
    omega

namespace PlacementRules

def codeEnd (rules : PlacementRules) (count : Nat) : Nat :=
  rules.base.toNat + count * rules.stride.toNat

/-- Where the data of a plan begins. -/
def dataStart (rules : PlacementRules) (count : Nat) : Nat :=
  alignUp (rules.codeEnd count) rules.dataAlignment.toNat

/-- The end of a plan. -/
def finish (rules : PlacementRules) (count : Nat) (sizes : List Word) : Nat :=
  rules.dataStart count + bytesOf sizes

/-- The number of bytes from the base of a plan to its end. -/
def totalSize (rules : PlacementRules) (count : Nat) (sizes : List Word) : Nat :=
  rules.dataStart count - rules.base.toNat + bytesOf sizes

def Allows (rules : PlacementRules) (size : Nat) : Prop :=
  rules.maxSize = 0 ∨ size ≤ rules.maxSize.toNat

instance (rules : PlacementRules) (size : Nat) : Decidable (rules.Allows size) :=
  inferInstanceAs (Decidable (_ ∨ _))

/-- Whether a plan ends past the address space, or has a number that is the size of the address
space and so not a word. -/
def Overflows (rules : PlacementRules) (count : Nat) (sizes : List Word) : Prop :=
  2 ^ 32 < rules.finish count sizes ∨ rules.dataStart count = 2 ^ 32 ∨
    rules.totalSize count sizes = 2 ^ 32

instance (rules : PlacementRules) (count : Nat) (sizes : List Word) :
    Decidable (rules.Overflows count sizes) :=
  inferInstanceAs (Decidable (_ ∨ _))

theorem codeEnd_le_dataStart (rules : PlacementRules) (count : Nat) :
    rules.codeEnd count ≤ rules.dataStart count := le_alignUp _ _

theorem base_add_totalSize (rules : PlacementRules) (count : Nat) (sizes : List Word) :
    rules.base.toNat + rules.totalSize count sizes = rules.finish count sizes := by
  have hcode := rules.codeEnd_le_dataStart count
  simp only [codeEnd] at hcode
  simp only [totalSize, finish]
  omega

theorem allows_iff {rules : PlacementRules} {size : Nat} :
    rules.Allows size ↔ ¬ (0 < rules.maxSize.toNat ∧ rules.maxSize.toNat < size) := by
  have hzero : rules.maxSize = 0 ↔ rules.maxSize.toNat = 0 := by
    rw [← BitVec.toNat_inj]
    rfl
  rw [Allows, hzero]
  omega

/-- Every number of a plan that fits the address space is a word. -/
theorem lt_of_not_overflows (rules : PlacementRules) {count : Nat} {sizes : List Word}
    (h : ¬ rules.Overflows count sizes) :
    count * rules.stride.toNat < 2 ^ 32 ∧ rules.dataStart count < 2 ^ 32 ∧
      bytesOf sizes < 2 ^ 32 ∧ rules.totalSize count sizes < 2 ^ 32 ∧
        rules.dataStart count + bytesOf sizes ≤ 2 ^ 32 := by
  have hcode := rules.codeEnd_le_dataStart count
  simp only [Overflows, codeEnd, totalSize, finish] at *
  omega

end PlacementRules

variable {rules : PlacementRules} {count : Nat} {sizes : List Word}

/-- The memory map of these rules, its numbers modulo the size of the address space. -/
def MemoryMap.ofRules (rules : PlacementRules) (count : Nat) (sizes : List Word) : MemoryMap where
  base := rules.base
  codeStart := rules.base
  codeSize := BitVec.ofNat 32 (count * rules.stride.toNat)
  dataStart := BitVec.ofNat 32 (rules.dataStart count)
  dataSize := BitVec.ofNat 32 (bytesOf sizes)
  totalSize := BitVec.ofNat 32 (rules.totalSize count sizes)
  stride := rules.stride

/-- Of the numbers of a plan that does not end past the address space, only the beginning of the
data and the total size can be too large for a word. -/
theorem narrow_iff (hfinish : rules.finish count sizes ≤ 2 ^ 32) :
    [count * rules.stride.toNat, rules.dataStart count, bytesOf sizes,
        rules.totalSize count sizes].any (2 ^ 32 ≤ ·) ↔
      rules.dataStart count = 2 ^ 32 ∨ rules.totalSize count sizes = 2 ^ 32 := by
  have hcode := rules.codeEnd_le_dataStart count
  have htotal := rules.base_add_totalSize count sizes
  simp only [PlacementRules.codeEnd, PlacementRules.totalSize, PlacementRules.finish] at *
  simp only [List.any_cons, List.any_nil, Bool.or_false, Bool.or_eq_true, decide_eq_true_eq]
  omega

/-- The checks of a plan in their order. -/
theorem planMemory_eq (hstride : rules.stride ≠ 0) :
    planMemory rules count sizes =
      if ¬ rules.Allows (rules.totalSize count sizes) then
        .error (.programTooLarge (rules.totalSize count sizes) rules.maxSize)
      else if rules.Overflows count sizes then
        .error (.addressOverflow (rules.finish count sizes))
      else .ok (MemoryMap.ofRules rules count sizes) := by
  have hchecks : planMemory rules count sizes =
      if 0 < rules.maxSize.toNat ∧ rules.maxSize.toNat < rules.totalSize count sizes then
        .error (.programTooLarge (rules.totalSize count sizes) rules.maxSize)
      else if 2 ^ 32 < rules.finish count sizes then
        .error (.addressOverflow (rules.finish count sizes))
      else if [count * rules.stride.toNat, rules.dataStart count, bytesOf sizes,
          rules.totalSize count sizes].any (2 ^ 32 ≤ ·) then
        .error (.addressOverflow (rules.finish count sizes))
      else .ok (MemoryMap.ofRules rules count sizes) := by
    simp only [planMemory, throw_bind, if_neg hstride]
    rfl
  rw [hchecks]
  -- The second and the third check give one error, and so are one.
  by_cases hallows : rules.Allows (rules.totalSize count sizes)
  · rw [if_neg (PlacementRules.allows_iff.1 hallows), if_neg (not_not.2 hallows)]
    by_cases hfinish : 2 ^ 32 < rules.finish count sizes
    · rw [if_pos hfinish, if_pos (.inl hfinish)]
    · rw [if_neg hfinish]
      refine if_congr ?_ rfl rfl
      rw [narrow_iff (Nat.le_of_not_lt hfinish), PlacementRules.Overflows, or_iff_right hfinish]
  · rw [if_pos (not_not.1 (mt PlacementRules.allows_iff.2 hallows)), if_pos hallows]

theorem planMemory_ok_iff {map : MemoryMap} : planMemory rules count sizes = .ok map ↔
    rules.stride ≠ 0 ∧ rules.Allows (rules.totalSize count sizes) ∧
      ¬ rules.Overflows count sizes ∧ MemoryMap.ofRules rules count sizes = map := by
  by_cases hstride : rules.stride = 0
  · refine iff_of_false (fun h => ?_) (fun h => h.1 hstride)
    simp only [planMemory, throw_bind, guard_ok_iff] at h
    exact h.1 hstride
  · rw [planMemory_eq hstride, and_iff_right hstride]
    by_cases hallows : rules.Allows (rules.totalSize count sizes)
    · by_cases hover : rules.Overflows count sizes <;> simp [hallows, hover]
    · simp [hallows]

theorem planMemory_overflow {n : Nat} (hstride : rules.stride ≠ 0) :
    planMemory rules count sizes = .error (.addressOverflow n) ↔
      rules.Allows (rules.totalSize count sizes) ∧ rules.Overflows count sizes ∧
        rules.finish count sizes = n := by
  rw [planMemory_eq hstride]
  by_cases hallows : rules.Allows (rules.totalSize count sizes)
  · by_cases hover : rules.Overflows count sizes <;> simp [hallows, hover]
  · simp [hallows]

/-- **When a plan is refused for the address space.** A plan that the rules allow is refused when it
ends past the address space, and when it does not but its data begins, or its size is, where no word
reaches; every other plan is accepted. -/
theorem planMemory_overflow_iff (hstride : rules.stride ≠ 0) (count : Nat) (sizes : List Word) :
    (∀ n, planMemory rules count sizes = .error (.addressOverflow n) ↔
      rules.Allows (rules.totalSize count sizes) ∧
        (2 ^ 32 < rules.finish count sizes ∨ rules.dataStart count = 2 ^ 32 ∨
          rules.totalSize count sizes = 2 ^ 32) ∧
        rules.finish count sizes = n) ∧
    ((∃ map, planMemory rules count sizes = .ok map) ↔
      rules.Allows (rules.totalSize count sizes) ∧ rules.finish count sizes ≤ 2 ^ 32 ∧
        rules.dataStart count ≠ 2 ^ 32 ∧ rules.totalSize count sizes ≠ 2 ^ 32) := by
  refine ⟨fun n => planMemory_overflow hstride, ?_⟩
  have hfits : ¬ rules.Overflows count sizes ↔ rules.finish count sizes ≤ 2 ^ 32 ∧
      rules.dataStart count ≠ 2 ^ 32 ∧ rules.totalSize count sizes ≠ 2 ^ 32 := by
    rw [PlacementRules.Overflows, not_or, not_or, not_lt]
  rw [← hfits]
  constructor
  · rintro ⟨map, hmap⟩
    obtain ⟨-, hallows, hover, -⟩ := planMemory_ok_iff.1 hmap
    exact ⟨hallows, hover⟩
  · rintro ⟨hallows, hover⟩
    exact ⟨_, planMemory_ok_iff.2 ⟨hstride, hallows, hover, rfl⟩⟩

/-- Code from eight bytes below the end of the address space on. -/
def topRules : PlacementRules := { base := 0xFFFFFFF8 }

/-- One instruction more than there is room for, and one less. -/
theorem planMemory_overflow_iff_top : topRules.stride ≠ 0 ∧
    planMemory topRules 3 [] = .error (.addressOverflow 0x100000004) ∧
      ∃ map, planMemory topRules 1 [] = .ok map := by
  have hstride : topRules.stride ≠ 0 := by decide
  have hpast := (planMemory_overflow_iff hstride 3 []).1 0x100000004
  have hroom := (planMemory_overflow_iff hstride 1 []).2
  exact ⟨hstride, hpast.2 (by decide), hroom.2 (by decide)⟩

/-- As much code as there is room for, and no data after it, is refused all the same. -/
theorem exists_overflow_within : ∃ (rules : PlacementRules) (count : Nat) (sizes : List Word),
    rules.stride ≠ 0 ∧ rules.Allows (rules.totalSize count sizes) ∧
      rules.finish count sizes ≤ 2 ^ 32 ∧ rules.totalSize count sizes < 2 ^ 32 ∧
        planMemory rules count sizes = .error (.addressOverflow (rules.finish count sizes)) :=
  ⟨topRules, 2, [], by decide, by decide, by decide, by decide, by rfl⟩

end WordMachine
