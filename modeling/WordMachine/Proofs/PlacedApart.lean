import Mathlib
import WordMachine.Proofs.PlacedProgram

/-!
# WordMachine.Proofs.PlacedApart

Placing adds up addresses as words, which wrap. What comes out is stated here in natural numbers,
which do not: `Program.LaidOut` says where every entry and every global of a placed program lies,
that no two of them share a byte, and that all of them lie within the size of the program.

Entries, and then globals, lie in the intervals between the values of a function that never falls
(`Fill`), which keeps them apart.
-/

namespace WordMachine

/-! ## Intervals in a row -/

/-- The sets lie between the values of a function, the first one between its values at 0 and 1. -/
def Fill (f : ℕ → ℕ) (l : List (Set ℕ)) : Prop :=
  ∀ (k : ℕ) s, l[k]? = some s → s ⊆ Set.Ico (f k) (f (k + 1))

namespace Fill

variable {f : ℕ → ℕ} {l : List (Set ℕ)}

theorem pairwise_disjoint (h : Fill f l) (hf : Monotone f) : l.Pairwise Disjoint := by
  rw [List.pairwise_iff_getElem]
  intro i j hi hj hij
  have hapart := hf.pairwise_disjoint_on_Ico_succ (Nat.ne_of_lt hij)
  exact hapart.mono (h i _ (List.getElem?_eq_getElem hi)) (h j _ (List.getElem?_eq_getElem hj))

theorem subset (h : Fill f l) (hf : Monotone f) {s : Set ℕ} (hs : s ∈ l) :
    s ⊆ Set.Ico (f 0) (f l.length) := by
  obtain ⟨k, hk⟩ := List.getElem?_of_mem hs
  obtain ⟨hlt, -⟩ := List.getElem?_eq_some_iff.1 hk
  exact (h k s hk).trans (Set.Ico_subset_Ico (hf k.zero_le) (hf hlt))

end Fill

/-- The addresses of a thing that takes this many bytes. -/
def spanOf (a : Option Word) (size : Word) : Set ℕ :=
  match a with
  | none => ∅
  | some a => Set.Ico a.toNat (a.toNat + size.toNat)

/-! ## The globals -/

theorem dataOffset_succ :
    ∀ {gs : List Global} {k : Nat} {g : Global}, gs[k]? = some g →
      dataOffset gs (k + 1) = dataOffset gs k + g.size.toNat := by
  intro gs
  induction gs with
  | nil =>
    intro k g hg
    cases hg
  | cons g₀ gs ih =>
    intro k g hg
    cases k with
    | zero =>
      cases hg
      simp [dataOffset, dataSize, bytesOf]
    | succ k => rw [dataOffset_cons_succ, dataOffset_cons_succ, ih hg, Nat.add_assoc]

theorem monotone_dataOffset (gs : List Global) : Monotone (dataOffset gs) := by
  refine monotone_nat_of_le_succ fun k => ?_
  rcases hg : gs[k]? with _ | g
  · have htake : gs.take (k + 1) = gs.take k := by
      rw [List.take_add_one, hg, Option.toList_none, List.append_nil]
    rw [dataOffset, dataOffset, htake]
  · rw [dataOffset_succ hg]
    exact Nat.le_add_right _ _

theorem dataOffset_length (gs : List Global) : dataOffset gs gs.length = dataSize gs := by
  rw [dataOffset, List.take_length]

namespace Program

variable {p q : Program} {rules : PlacementRules} {map : MemoryMap} {k : Nat} {g : Global}

/-- The addresses that each entry and each global take. -/
def spans (stride : Word) (q : Program) : List (Set ℕ) :=
  q.code.map (fun e => spanOf e.address stride) ++
    q.globals.map (fun g => spanOf g.address g.size)

/-- A global that takes any bytes at all begins where the globals before it end. -/
theorem PlacedBy.toNat_address (h : PlacedBy rules map q) (hg : q.globals[k]? = some g)
    (hsize : g.size ≠ 0) :
    (map.dataStart + BitVec.ofNat 32 (dataOffset q.globals k)).toNat =
      map.dataStart.toNat + dataOffset q.globals k := by
  have hfinish : map.dataStart.toNat + dataSize q.globals ≤ 2 ^ 32 := h.plan.finish
  have hpos : g.size.toNat ≠ 0 := fun h0 => hsize (BitVec.eq_of_toNat_eq h0)
  have hend := dataOffset_le_dataSize q.globals (k + 1)
  rw [dataOffset_succ hg] at hend
  rw [BitVec.toNat_add, BitVec.toNat_ofNat]
  omega

theorem monotone_strides (base stride : Nat) : Monotone fun k => base + k * stride :=
  fun _ _ hle => Nat.add_le_add_left (Nat.mul_le_mul_right stride hle) base

theorem PlacedBy.fill_code (h : PlacedBy rules map q) :
    Fill (fun k => map.base.toNat + k * map.stride.toNat)
      (q.code.map fun e => spanOf e.address map.stride) := by
  intro k s hs
  rw [List.getElem?_map] at hs
  obtain ⟨e, he, rfl⟩ := Option.map_eq_some_iff.1 hs
  obtain ⟨a, ha, hat⟩ := h.code k e he
  beta_reduce
  rw [ha, spanOf, hat, Nat.succ_mul, Nat.add_assoc]

theorem PlacedBy.fill_globals (h : PlacedBy rules map q) :
    Fill (fun k => map.dataStart.toNat + dataOffset q.globals k)
      (q.globals.map fun g => spanOf g.address g.size) := by
  intro k s hs
  rw [List.getElem?_map] at hs
  obtain ⟨g, hg, rfl⟩ := Option.map_eq_some_iff.1 hs
  obtain ⟨ha, -⟩ := h.globals k g hg
  by_cases hsize : g.size = 0
  · -- The address of a global without bytes may have wrapped, but it takes none.
    rw [ha, spanOf, hsize]
    simp
  · beta_reduce
    rw [ha, spanOf, h.toNat_address hg hsize, dataOffset_succ hg, Nat.add_assoc]

theorem PlacedBy.code_within (h : PlacedBy rules map q) {s : Set ℕ}
    (hs : s ∈ q.code.map fun e => spanOf e.address map.stride) :
    s ⊆ Set.Ico map.base.toNat (map.base.toNat + q.code.length * map.stride.toNat) := by
  have hsubset := h.fill_code.subset (monotone_strides map.base.toNat map.stride.toNat) hs
  rwa [List.length_map, Nat.zero_mul, Nat.add_zero] at hsubset

theorem PlacedBy.globals_within (h : PlacedBy rules map q) {s : Set ℕ}
    (hs : s ∈ q.globals.map fun g => spanOf g.address g.size) :
    s ⊆ Set.Ico map.dataStart.toNat (map.dataStart.toNat + dataSize q.globals) := by
  have hsubset := h.fill_globals.subset ((monotone_dataOffset q.globals).const_add _) hs
  rwa [List.length_map, dataOffset_length] at hsubset

/-- No two entries or globals share a byte. -/
theorem PlacedBy.apart (h : PlacedBy rules map q) : (q.spans map.stride).Pairwise Disjoint := by
  rw [spans, List.pairwise_append]
  refine ⟨h.fill_code.pairwise_disjoint (monotone_strides _ _),
    h.fill_globals.pairwise_disjoint ((monotone_dataOffset q.globals).const_add _), ?_⟩
  intro s hs t ht
  have hcode := h.plan.code_le_dataStart
  refine Set.disjoint_of_subset (h.code_within hs) (h.globals_within ht) (Set.disjoint_left.2 ?_)
  intro a ha ha'
  rw [Set.mem_Ico] at ha ha'
  omega

theorem PlacedBy.within (h : PlacedBy rules map q) {s : Set ℕ} (hs : s ∈ q.spans map.stride) :
    s ⊆ Set.Ico map.base.toNat (map.base.toNat + map.totalSize.toNat) := by
  have hcode := h.plan.code_le_dataStart
  have htotal : map.base.toNat + map.totalSize.toNat =
      map.dataStart.toNat + dataSize q.globals := h.plan.base_add_totalSize
  rw [spans, List.mem_append] at hs
  rcases hs with hs | hs
  · exact (h.code_within hs).trans (Set.Ico_subset_Ico le_rfl (by omega))
  · exact (h.globals_within hs).trans (Set.Ico_subset_Ico (by omega) htotal.ge)

/-! ## The whole program -/

/-- What placing a program comes to. -/
structure LaidOut (rules : PlacementRules) (p : Program) (map : MemoryMap) (q : Program) :
    Prop where
  memoryMap : q.memoryMap = some map
  length_code : q.code.length = p.code.length
  code : ∀ (k : Nat) e, p.code[k]? = some e →
    ∃ a, q.code[k]? = some { p.bindEntry e with address := some a } ∧
      a.toNat = rules.base.toNat + k * rules.stride.toNat
  aligned : rules.dataAlignment ≠ 0 →
    IsLeast {n | rules.dataAlignment.toNat ∣ n ∧
      rules.base.toNat + p.code.length * rules.stride.toNat ≤ n} map.dataStart.toNat
  unaligned : rules.dataAlignment = 0 →
    map.dataStart.toNat = rules.base.toNat + p.code.length * rules.stride.toNat
  length_globals : q.globals.length = p.globals.length
  globals : ∀ (k : Nat) g, p.globals[k]? = some g →
    ∃ a, q.globals[k]? = some { g with address := some a } ∧
      (g.size ≠ 0 → a.toNat = map.dataStart.toNat + dataOffset p.globals k)
  /-- No two entries or globals share a byte. -/
  apart : (q.spans rules.stride).Pairwise Disjoint
  within : ∀ s ∈ q.spans rules.stride,
    s ⊆ Set.Ico rules.base.toNat (rules.base.toNat + map.totalSize.toNat)
  finish : rules.base.toNat + map.totalSize.toNat = map.dataStart.toNat + dataSize p.globals
  inAddressSpace : rules.base.toNat + map.totalSize.toNat ≤ 2 ^ 32
  allowed : rules.maxSize ≠ 0 → map.totalSize.toNat ≤ rules.maxSize.toNat

theorem dataStart_of_plan {count : Nat} {sizes : List Word} (h : Plan rules count sizes map) :
    (rules.dataAlignment ≠ 0 →
      IsLeast {n | rules.dataAlignment.toNat ∣ n ∧
        rules.base.toNat + count * rules.stride.toNat ≤ n} map.dataStart.toNat) ∧
    (rules.dataAlignment = 0 →
      map.dataStart.toNat = rules.base.toNat + count * rules.stride.toNat) := by
  rw [h.dataStart]
  constructor
  · intro hne
    exact alignUp_isLeast fun h0 => hne (BitVec.eq_of_toNat_eq h0)
  · intro h0
    rw [h0]
    rfl

theorem totalSize_of_plan {count : Nat} {sizes : List Word} (h : Plan rules count sizes map) :
    map.totalSize.toNat = rules.totalSize count sizes := by
  rw [h.totalSize, h.dataStart, h.base]
  rfl

/-- **Nothing wraps.** A program that is placed lies, in natural numbers, where its plan puts it:
the entries a stride apart from the base on, the globals one after the other from the next aligned
address on, all of them apart and within the size of the program. -/
theorem laidOut_of_place (h : p.place rules = .ok q) : ∃ map, LaidOut rules p map q := by
  obtain ⟨map, hinitial, hmap, -, rfl⟩ := place_ok_iff.1 h
  have hplaced := placedBy_placeAt hinitial hmap
  have hplan := plan_of_planMemory hmap
  obtain ⟨-, hallows, -, -⟩ := planMemory_ok_iff.1 hmap
  obtain ⟨haligned, hunaligned⟩ := dataStart_of_plan hplan
  have hfinish := hplan.base_add_totalSize
  refine ⟨map, {
    memoryMap := rfl
    length_code := ?_
    code := ?_
    aligned := haligned
    unaligned := hunaligned
    length_globals := ?_
    globals := ?_
    apart := hplan.stride ▸ hplaced.apart
    within := fun s hs => hplan.base ▸ hplaced.within (hplan.stride ▸ hs)
    finish := hplan.base ▸ hfinish
    inAddressSpace := hplan.base ▸ hfinish.trans_le hplan.finish
    allowed := fun hmax => (totalSize_of_plan hplan).trans_le (hallows.resolve_left hmax) }⟩
  · simp [placeAt, bindReferences]
  · intro k e he
    obtain ⟨hk, -⟩ := List.getElem?_eq_some_iff.1 he
    refine ⟨map.codeStart + BitVec.ofNat 32 k * map.stride, ?_, ?_⟩
    · rw [getElem?_code_placeAt, he]
      rfl
    · rw [hplan.toNat_address hk, hplan.base, hplan.stride]
  · have hsizes : (addressGlobals map.dataStart p.globals).map Global.size =
        p.globals.map Global.size := sizes_addressGlobals
    have hlen := congrArg List.length hsizes
    rwa [List.length_map, List.length_map] at hlen
  · intro k g hg
    have hplace : (addressGlobals map.dataStart p.globals)[k]? = _ := getElem?_addressGlobals
    rw [hg] at hplace
    refine ⟨_, hplace, fun hsize => ?_⟩
    rw [← dataOffset_addressGlobals]
    exact hplaced.toNat_address hplace hsize

/-- Two instructions, sixteen bytes of data behind a gap, and a global without bytes at the very end
of the address space. -/
def topmost : Program where
  fileName := "unit.o"
  code := [{ text := some "NOP" }, { text := some "HALT" }]
  globals := [{ name := "a", size := 8 }, { name := "b", size := 8 }, { name := "c", size := 0 }]

def topmostRules : PlacementRules := { base := 0xFFFFFFE4, maxSize := 28, dataAlignment := 16 }

theorem laidOut_of_place_topmost : ∃ q, topmost.place topmostRules = .ok q ∧
    q.globals.map Global.address = [some 0xFFFFFFF0, some 0xFFFFFFF8, some 0] ∧
      ∃ map, LaidOut topmostRules topmost map q := by
  have hplace : ∃ q, topmost.place topmostRules = .ok q ∧
      q.globals.map Global.address = [some 0xFFFFFFF0, some 0xFFFFFFF8, some 0] :=
    ⟨_, rfl, by decide⟩
  obtain ⟨q, hq, haddresses⟩ := hplace
  exact ⟨q, hq, haddresses, laidOut_of_place hq⟩

end Program
end WordMachine
