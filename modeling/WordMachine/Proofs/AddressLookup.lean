import WordMachine.Proofs.PlacedProgram

/-!
# WordMachine.Proofs.AddressLookup

Finding code by its address. Halving finds the first index at which a property fails, provided that
it holds nowhere above (`halve_spec`). Addresses of a placed program increase without wrapping, so
halving finds the entry at an address, of which there is at most one
(`Program.PlacedBy.indexAt?_eq_some_iff`).
-/

namespace WordMachine

/-! ## Halving -/

section Halving

variable {p : Nat → Bool} (hdown : ∀ {i j : Nat}, i ≤ j → p j = true → p i = true)
include hdown

/-- While the property holds below the range and fails at its end, the end of what holds is in the
range. -/
theorem halve_spec :
    ∀ {fuel base size : Nat}, size ≤ fuel → (∀ j < base, p j = true) → p (base + size) = false →
      (∀ j < halve p fuel base size, p j = true) ∧ p (halve p fuel base size) = false := by
  intro fuel
  induction fuel with
  | zero =>
    intro base size hsize hbelow hend
    cases Nat.le_zero.1 hsize
    exact ⟨hbelow, hend⟩
  | succ fuel ih =>
    intro base size hsize hbelow hend
    unfold halve
    by_cases hmany : size > 1
    · rw [if_pos hmany]
      by_cases hmiddle : p (base + size / 2) = true
      · simp only [hmiddle, if_true]
        refine ih (by omega) (fun j hj => hdown (by omega) hmiddle) ?_
        rwa [show base + size / 2 + (size - size / 2) = base + size by omega]
      · simp only [hmiddle, if_false, Bool.false_eq_true]
        refine ih (by omega) hbelow (Bool.eq_false_iff.2 fun hp => hmiddle (hdown ?_ hp))
        omega
    · rw [if_neg hmany]
      by_cases hone : size = 1 ∧ p base = true
      · rw [if_pos hone]
        obtain ⟨rfl, hbase⟩ := hone
        exact ⟨fun j hj => hdown (by omega) hbase, hend⟩
      · rw [if_neg hone]
        refine ⟨hbelow, ?_⟩
        obtain rfl | rfl : size = 0 ∨ size = 1 := by omega
        · exact hend
        · exact Bool.eq_false_iff.2 fun hbase => hone ⟨rfl, hbase⟩

theorem countLeading_spec {size : Nat} (hend : p size = false) :
    (∀ j < countLeading p size, p j = true) ∧ p (countLeading p size) = false :=
  halve_spec hdown (Nat.le_succ size) (fun _ hj => absurd hj (Nat.not_lt_zero _))
    (by rwa [Nat.zero_add])

end Halving

namespace Program

variable {p q : Program} {rules : PlacementRules} {map : MemoryMap} {a : Word} {i : Nat}
  {name : String} {f : Function}

/-! ## Entries -/

/-- What halving finds is at the address, placed or not. -/
theorem entryAddress?_of_indexAt? (h : q.indexAt? a = some i) : q.entryAddress? i = some a := by
  simp only [indexAt?] at h
  split at h
  · next hfound =>
    cases h
    exact hfound
  · cases h

namespace PlacedBy

theorem below_iff (hq : PlacedBy rules map q) : (q.entryAddress? i).any (· < a) = true ↔
    i < q.code.length ∧ map.base.toNat + i * map.stride.toNat < a.toNat := by
  simp only [Option.any_eq_true, decide_eq_true_eq, BitVec.lt_def]
  constructor
  · rintro ⟨b, hb, hlt⟩
    obtain ⟨hi, hat⟩ := hq.entryAddress?_eq_some_iff.1 hb
    exact ⟨hi, hat ▸ hlt⟩
  · rintro ⟨hi, hlt⟩
    obtain ⟨b, -, hat⟩ := hq.code i _ (List.getElem?_eq_getElem hi)
    exact ⟨b, hq.entryAddress?_eq_some_iff.2 ⟨hi, hat⟩, hat.symm ▸ hlt⟩

/-- Halving finds the entry at an address if there is one. -/
theorem indexAt?_eq_some_iff (hq : PlacedBy rules map q) (hstride : 0 < map.stride.toNat) :
    q.indexAt? a = some i ↔ q.entryAddress? i = some a := by
  constructor
  · exact entryAddress?_of_indexAt?
  · intro h
    obtain ⟨hi, hat⟩ := hq.entryAddress?_eq_some_iff.1 h
    have hdown {i j : Nat} (hij : i ≤ j) (hj : (q.entryAddress? j).any (· < a) = true) :
        (q.entryAddress? i).any (· < a) = true := by
      obtain ⟨hlen, hlt⟩ := hq.below_iff.1 hj
      have := Nat.mul_le_mul_right map.stride.toNat hij
      exact hq.below_iff.2 ⟨by omega, by omega⟩
    have hnone : (q.entryAddress? q.code.length).any (· < a) = false :=
      Bool.eq_false_iff.2 fun h => absurd (hq.below_iff.1 h).1 (Nat.lt_irrefl _)
    obtain ⟨hbelow, hend⟩ := countLeading_spec hdown hnone
    rw [indexAt?]
    generalize countLeading (fun k => (q.entryAddress? k).any (· < a)) q.code.length = n at *
    -- every entry before the one at the address is below it, and it is not below itself
    have hn : n = i := by
      rcases Nat.lt_trichotomy n i with hlt | heq | hgt
      · have := Nat.mul_lt_mul_of_pos_right hlt hstride
        rw [hq.below_iff.2 ⟨hlt.trans hi, by omega⟩] at hend
        cases hend
      · exact heq
      · have := (hq.below_iff.1 (hbelow i hgt)).2
        omega
    rw [hn, if_pos h]

end PlacedBy

/-! ## Functions -/

/-- Looking for a function with an entry goes through functions in order. -/
theorem find?_functions_eq_some_iff : q.functions.entries.find? (fun f => decide (f.2.Contains i)) =
    some (name, f) ↔ ∃ k, q.functions.at? k = some (name, f) ∧ f.Contains i ∧
      ∀ j < k, ∀ n g, q.functions.at? j = some (n, g) → ¬ g.Contains i := by
  simp only [List.find?_eq_some_iff_getElem, NameTable.at?, decide_eq_true_eq, Bool.not_eq_true',
    decide_eq_false_iff_not]
  constructor
  · rintro ⟨hcontains, k, hk, hf, hbefore⟩
    refine ⟨k, hf ▸ List.getElem?_eq_getElem hk, hcontains, fun j hj n g hg => ?_⟩
    obtain ⟨hj', hg⟩ := List.getElem?_eq_some_iff.1 hg
    have hother := hbefore j hj
    rw [hg] at hother
    exact hother
  · rintro ⟨k, hf, hcontains, hbefore⟩
    obtain ⟨hk, hf⟩ := List.getElem?_eq_some_iff.1 hf
    exact ⟨hcontains, k, hk, hf, fun j hj =>
      hbefore j hj _ _ (List.getElem?_eq_getElem (hj.trans hk))⟩

/-- **Addresses find what is at them.** In a placed program, an address finds the index of the entry
that is there, which is one at most, and nothing if no entry is there; it finds that entry, and the
first function of which a range has it. -/
theorem lookup_of_place (h : p.place rules = .ok q) (a : Word) :
    (∀ i, q.indexAt? a = some i ↔ q.entryAddress? i = some a) ∧
    (∀ i j, q.entryAddress? i = some a → q.entryAddress? j = some a → i = j) ∧
    (q.indexAt? a = none ↔ ∀ i, q.entryAddress? i ≠ some a) ∧
    (∀ e, q.entryAt? a = some e ↔ ∃ i, q.entryAddress? i = some a ∧ q.code[i]? = some e) ∧
    ∀ name f, q.functionAt? a = some (name, f) ↔
      ∃ i k, q.entryAddress? i = some a ∧ q.functions.at? k = some (name, f) ∧ f.Contains i ∧
        ∀ j < k, ∀ n g, q.functions.at? j = some (n, g) → ¬ g.Contains i := by
  obtain ⟨map, hinitial, hmap, -, rfl⟩ := place_ok_iff.1 h
  have hplaced := placedBy_placeAt hinitial hmap
  have hstride := hplaced.plan.stride ▸ stride_pos_of_planMemory hmap
  have hindex (i : Nat) := hplaced.indexAt?_eq_some_iff (a := a) (i := i) hstride
  refine ⟨hindex, fun i j => hplaced.index_unique hstride, ?_, fun e => ?_, fun name f => ?_⟩
  · simp only [Option.eq_none_iff_forall_ne_some, ne_eq, hindex]
  · simp only [entryAt?, Option.bind_eq_bind, Option.bind_eq_some_iff, hindex]
  · simp only [functionAt?, Option.bind_eq_bind, Option.bind_eq_some_iff, hindex,
      find?_functions_eq_some_iff, exists_and_left]

/-- Code that ends where the address space does, and a function with another one in its middle. -/
def interleaved : Program where
  fileName := "unit.o"
  functions := .ofList [
    ("outer", { ranges := [⟨0, 2⟩, ⟨4, 5⟩] }),
    ("inner", { ranges := [⟨1, 4⟩] })]
  code := [{}, {}, {}, {}, {}]

theorem lookup_of_place_interleaved : ∃ q,
    interleaved.place { base := 0xFFFFFFF0, stride := 3, dataAlignment := 0 } = .ok q ∧
      q.indexAt? 0xFFFFFFFC = some 4 ∧ q.indexAt? 0xFFFFFFFB = none ∧
      q.functionAt? 0xFFFFFFF9 = some ("inner", { ranges := [⟨1, 4⟩] }) ∧
      q.functionAt? 0xFFFFFFFC = some ("outer", { ranges := [⟨0, 2⟩, ⟨4, 5⟩] }) := by
  obtain ⟨q, hq, h9, hC, hB, hinner, houter, hnot⟩ : ∃ q,
      interleaved.place { base := 0xFFFFFFF0, stride := 3, dataAlignment := 0 } = .ok q ∧
      q.entryAddress? 3 = some 0xFFFFFFF9 ∧ q.entryAddress? 4 = some 0xFFFFFFFC ∧
      (∀ e ∈ q.code, e.address ≠ some 0xFFFFFFFB) ∧
      q.functions.at? 1 = some ("inner", { ranges := [⟨1, 4⟩] }) ∧
      q.functions.at? 0 = some ("outer", { ranges := [⟨0, 2⟩, ⟨4, 5⟩] }) ∧
      ∀ j < 1, (q.functions.at? j).all fun f => ¬ f.2.Contains 3 :=
    ⟨_, rfl, by decide +kernel, by decide +kernel, by decide +kernel, by decide +kernel,
      by decide +kernel, by decide +kernel⟩
  refine ⟨q, hq, ((lookup_of_place hq _).1 4).2 hC, ?_, ?_, ?_⟩
  · refine (lookup_of_place hq _).2.2.1.2 fun i hi => ?_
    obtain ⟨e, he, ha⟩ := Option.bind_eq_some_iff.1 hi
    exact hB e (List.mem_of_getElem? he) ha
  · refine ((lookup_of_place hq _).2.2.2.2 _ _).2 ⟨3, 1, h9, hinner, by decide, ?_⟩
    intro j hj n g hg
    have hother := hnot j hj
    rw [hg] at hother
    simpa using hother
  · exact ((lookup_of_place hq _).2.2.2.2 _ _).2 ⟨4, 0, hC, houter, by decide, by simp⟩

end Program
end WordMachine
