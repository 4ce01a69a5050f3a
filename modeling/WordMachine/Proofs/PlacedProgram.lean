import WordMachine.Proofs.PlanLimits
import WordMachine.Proofs.SettledCode

/-!
# WordMachine.Proofs.PlacedProgram

Where linking puts things, in natural numbers. `Plan` is what a memory map promises that was not
refused, and `Program.PlacedBy` what a linked program keeps of it: entries lie a stride apart, and
each global lies behind the globals before it. Only the address of a global that takes no byte can
wrap, where the data ends with the address space.
-/

namespace WordMachine

open Outcome

/-- What holds of the memory map for `count` code entries and globals of these sizes. -/
structure Plan (rules : PlacementRules) (count : Nat) (sizes : List Word) (map : MemoryMap) :
    Prop where
  base : map.base = rules.base
  codeStart : map.codeStart = rules.base
  stride : map.stride = rules.stride
  codeSize : map.codeSize.toNat = count * rules.stride.toNat
  dataStart : map.dataStart.toNat =
    alignUp (rules.base.toNat + count * rules.stride.toNat) rules.dataAlignment.toNat
  dataSize : map.dataSize.toNat = bytesOf sizes
  totalSize : map.totalSize.toNat =
    map.dataStart.toNat - map.base.toNat + bytesOf sizes
  finish : map.dataStart.toNat + bytesOf sizes ≤ 2 ^ 32

theorem plan_of_planMemory {rules : PlacementRules} {count : Nat} {sizes : List Word}
    {map : MemoryMap} (h : planMemory rules count sizes = .ok map) :
    Plan rules count sizes map := by
  obtain ⟨-, -, hfits, rfl⟩ := planMemory_ok_iff.1 h
  obtain ⟨hcode, hdata, hsize, htotal, hfinish⟩ := rules.lt_of_not_overflows hfits
  have hdataStart := Nat.mod_eq_of_lt hdata
  exact {
    base := rfl
    codeStart := rfl
    stride := rfl
    codeSize := by rw [MemoryMap.ofRules, BitVec.toNat_ofNat, Nat.mod_eq_of_lt hcode]
    dataStart := by rw [MemoryMap.ofRules, BitVec.toNat_ofNat, hdataStart]; rfl
    dataSize := by rw [MemoryMap.ofRules, BitVec.toNat_ofNat, Nat.mod_eq_of_lt hsize]
    totalSize := by
      rw [MemoryMap.ofRules, BitVec.toNat_ofNat, BitVec.toNat_ofNat, Nat.mod_eq_of_lt htotal,
        hdataStart]
      rfl
    finish := by
      rw [MemoryMap.ofRules, BitVec.toNat_ofNat, hdataStart]
      exact hfinish }

theorem stride_pos_of_planMemory {rules : PlacementRules} {count : Nat} {sizes : List Word}
    {map : MemoryMap} (h : planMemory rules count sizes = .ok map) : 0 < rules.stride.toNat := by
  obtain ⟨hne, -⟩ := planMemory_ok_iff.1 h
  exact Nat.pos_of_ne_zero fun h0 => hne (BitVec.eq_of_toNat_eq h0)

namespace Plan

variable {rules : PlacementRules} {count : Nat} {sizes : List Word} {map : MemoryMap}

/-- The code ends at or before the data. -/
theorem code_le_dataStart (h : Plan rules count sizes map) :
    map.base.toNat + count * map.stride.toNat ≤ map.dataStart.toNat := by
  rw [h.dataStart, h.base, h.stride]
  exact le_alignUp _ _

/-- The whole program lies between its base and its size above it. -/
theorem base_add_totalSize (h : Plan rules count sizes map) :
    map.base.toNat + map.totalSize.toNat = map.dataStart.toNat + bytesOf sizes := by
  have hcode := h.code_le_dataStart
  rw [h.totalSize]
  omega

/-- The address of a code entry, without wrapping. -/
theorem toNat_address {k : Nat} (h : Plan rules count sizes map) (hk : k < count) :
    (map.codeStart + BitVec.ofNat 32 k * map.stride).toNat =
      map.base.toNat + k * map.stride.toNat := by
  have hcode := h.code_le_dataStart
  have hdata := map.dataStart.isLt
  have hwithin : k * map.stride.toNat ≤ count * map.stride.toNat :=
    Nat.mul_le_mul_right _ (Nat.le_of_lt hk)
  have hmul : BitVec.ofNat 32 k * map.stride = BitVec.ofNat 32 (k * map.stride.toNat) := by
    rw [BitVec.ofNat_mul, BitVec.ofNat_toNat, BitVec.setWidth_eq]
  rw [hmul, BitVec.toNat_add, BitVec.toNat_ofNat, h.codeStart, ← h.base]
  omega

end Plan

/-- The number of bytes that globals take. -/
def dataSize (gs : List Global) : Nat := bytesOf (gs.map Global.size)

theorem dataSize_cons {g : Global} {gs : List Global} :
    dataSize (g :: gs) = g.size.toNat + dataSize gs := rfl

/-- The number of bytes that the globals before one of them take. -/
def dataOffset (gs : List Global) (k : Nat) : Nat := dataSize (gs.take k)

theorem dataOffset_cons_succ {g : Global} {gs : List Global} {k : Nat} :
    dataOffset (g :: gs) (k + 1) = g.size.toNat + dataOffset gs k := by
  rw [dataOffset, List.take_succ_cons, dataSize_cons, dataOffset]

theorem dataOffset_le_dataSize :
    ∀ (gs : List Global) (k : Nat), dataOffset gs k ≤ dataSize gs := by
  intro gs
  induction gs with
  | nil => intro k; simp [dataOffset, dataSize, bytesOf]
  | cons g gs ih =>
    intro k
    cases k with
    | zero => simp [dataOffset, dataSize, bytesOf]
    | succ k =>
      have hk := ih k
      rw [dataOffset_cons_succ, dataSize_cons]
      omega

/-- Every byte of the data belongs to a global. -/
theorem exists_global_at :
    ∀ {gs : List Global} {j : Nat}, j < dataSize gs →
      ∃ (k : Nat) (g : Global), gs[k]? = some g ∧ dataOffset gs k ≤ j ∧
        j < dataOffset gs k + g.size.toNat := by
  intro gs
  induction gs with
  | nil => intro j h; simp [dataSize, bytesOf] at h
  | cons g gs ih =>
    intro j h
    rw [dataSize_cons] at h
    by_cases hj : j < g.size.toNat
    · exact ⟨0, g, rfl, Nat.zero_le j, by omega⟩
    · obtain ⟨k, g', hg', hle, hlt⟩ := ih (j := j - g.size.toNat) (by omega)
      refine ⟨k + 1, g', hg', ?_, ?_⟩
      · rw [dataOffset_cons_succ]
        omega
      · rw [dataOffset_cons_succ]
        omega

namespace Program

theorem getElem?_addressGlobals :
    ∀ {gs : List Global} {a : Word} {k : Nat},
      (addressGlobals a gs)[k]? =
        gs[k]?.map ({ · with address := some (a + BitVec.ofNat 32 (dataOffset gs k)) }) := by
  intro gs
  induction gs with
  | nil => intro a k; simp [addressGlobals]
  | cons g gs ih =>
    intro a k
    cases k with
    | zero => simp [addressGlobals, dataOffset, dataSize, bytesOf]
    | succ k =>
      have hadd : a + g.size + BitVec.ofNat 32 (dataOffset gs k) =
          a + BitVec.ofNat 32 (dataOffset (g :: gs) (k + 1)) := by
        rw [dataOffset_cons_succ, BitVec.ofNat_add, BitVec.ofNat_toNat, BitVec.add_assoc]
        simp
      simp only [addressGlobals, List.getElem?_cons_succ, ih, hadd]

variable {s : InstructionSet} {p q : Program} {rules : PlacementRules} {map : MemoryMap}
  {e e' : CodeEntry}

theorem sizes_addressGlobals :
    ∀ {gs : List Global} {a : Word},
      (addressGlobals a gs).map Global.size = gs.map Global.size := by
  intro gs
  induction gs with
  | nil => intro a; rfl
  | cons g gs ih => intro a; simp only [addressGlobals, List.map_cons, ih]

theorem dataOffset_addressGlobals {gs : List Global} {a : Word} {k : Nat} :
    dataOffset (addressGlobals a gs) k = dataOffset gs k := by
  rw [dataOffset, dataSize, List.map_take, sizes_addressGlobals, ← List.map_take, ← dataSize,
    ← dataOffset]

/-- What placing and linking promise of the places of code and data. -/
structure PlacedBy (rules : PlacementRules) (map : MemoryMap) (q : Program) : Prop where
  memoryMap : q.memoryMap = some map
  plan : Plan rules q.code.length (q.globals.map Global.size) map
  code : ∀ (k : Nat) e, q.code[k]? = some e →
    ∃ a, e.address = some a ∧ a.toNat = map.base.toNat + k * map.stride.toNat
  globals : ∀ (k : Nat) g, q.globals[k]? = some g →
    g.address = some (map.dataStart + BitVec.ofNat 32 (dataOffset q.globals k)) ∧
      g.initialSize ≤ g.size.toNat

namespace PlacedBy

variable {a : Word} {i j : Nat}

/-- Where the entries of a placed program are, without wrapping. -/
theorem entryAddress?_eq_some_iff (hq : PlacedBy rules map q) : q.entryAddress? i = some a ↔
    i < q.code.length ∧ a.toNat = map.base.toNat + i * map.stride.toNat := by
  rw [entryAddress?, Option.bind_eq_some_iff]
  constructor
  · rintro ⟨e, he, ha⟩
    obtain ⟨a', ha', hat⟩ := hq.code i e he
    cases ha.symm.trans ha'
    exact ⟨(List.getElem?_eq_some_iff.1 he).1, hat⟩
  · rintro ⟨hi, hat⟩
    have he := List.getElem?_eq_getElem hi
    obtain ⟨a', ha', hat'⟩ := hq.code i _ he
    cases BitVec.eq_of_toNat_eq (hat.trans hat'.symm)
    exact ⟨_, he, ha'⟩

/-- No two entries are at one address. -/
theorem index_unique (hq : PlacedBy rules map q) (hstride : 0 < map.stride.toNat)
    (hi : q.entryAddress? i = some a) (hj : q.entryAddress? j = some a) : i = j := by
  obtain ⟨-, hi⟩ := hq.entryAddress?_eq_some_iff.1 hi
  obtain ⟨-, hj⟩ := hq.entryAddress?_eq_some_iff.1 hj
  exact Nat.eq_of_mul_eq_mul_right hstride (by omega)

end PlacedBy

/-- A program has its places as soon as its plan is carried out. -/
theorem placedBy_placeAt (hinitial : ∀ g ∈ p.globals, g.initialSize ≤ g.size.toNat)
    (hmap : planMemory rules p.code.length (p.globals.map Global.size) = .ok map) :
    PlacedBy rules map (p.bindReferences.placeAt map) := by
  have hplan := plan_of_planMemory hmap
  have hsizes : (addressGlobals map.dataStart p.globals).map Global.size =
      p.globals.map Global.size := sizes_addressGlobals
  have hlen : (p.bindReferences.placeAt map).code.length = p.code.length := by
    simp [placeAt, bindReferences]
  refine ⟨rfl, ?_, ?_, ?_⟩
  · rw [hlen]
    exact hsizes ▸ hplan
  · intro k e he
    obtain ⟨hk, -⟩ := List.getElem?_eq_some_iff.1 he
    rw [hlen] at hk
    rw [getElem?_code_placeAt, List.getElem?_eq_getElem hk] at he
    cases he
    exact ⟨_, rfl, hplan.toNat_address hk⟩
  · intro k g hg
    obtain ⟨g₀, hg₀, rfl⟩ := Option.map_eq_some_iff.1 (getElem?_addressGlobals.symm.trans hg)
    refine ⟨?_, hinitial g₀ (List.mem_of_getElem? hg₀)⟩
    exact congrArg (fun n => some (map.dataStart + BitVec.ofNat 32 n))
      dataOffset_addressGlobals.symm

/-- Settling keeps every entry in its place. -/
theorem placedBy_of_link (h : p.link s rules = .ok q) : ∃ map, PlacedBy rules map q := by
  obtain ⟨map, code, -, hinitial, hmap, hcode, rfl⟩ := link_ok_iff.1 h
  obtain ⟨hlen, hentries⟩ := of_settleFrom hcode
  have hplaced := placedBy_placeAt hinitial hmap
  refine ⟨map, hplaced.memoryMap, ?_, ?_, hplaced.globals⟩
  · rw [hlen]
    exact hplaced.plan
  · intro k e' he'
    obtain ⟨hk, -⟩ := List.getElem?_eq_some_iff.1 he'
    have he := List.getElem?_eq_getElem (Nat.lt_of_lt_of_eq hk hlen)
    obtain ⟨a, ha, hat⟩ := hplaced.code k _ he
    have hsettles := settles_of_settleEntry (hentries k _ e' he he')
    exact ⟨a, (address_of_settles hsettles).trans ha, hat⟩

theorem stride_pos_of_link (h : p.link s rules = .ok q) : 0 < rules.stride.toNat := by
  obtain ⟨map, _, -, -, hmap, -⟩ := link_ok_iff.1 h
  exact stride_pos_of_planMemory hmap

/-- No two entries of a linked program have the same address. -/
theorem eq_of_address (h : p.link s rules = .ok q) (he : e ∈ q.code) (he' : e' ∈ q.code)
    (haddress : e.address = e'.address) : e = e' := by
  obtain ⟨map, hplaced⟩ := placedBy_of_link h
  obtain ⟨k, hk⟩ := List.getElem?_of_mem he
  obtain ⟨k', hk'⟩ := List.getElem?_of_mem he'
  obtain ⟨a, ha, -⟩ := hplaced.code k e hk
  have hstride := hplaced.plan.stride ▸ stride_pos_of_link h
  obtain rfl : k = k' := hplaced.index_unique hstride
    (Option.bind_eq_some_iff.2 ⟨e, hk, ha⟩)
    (Option.bind_eq_some_iff.2 ⟨e', hk', haddress.symm.trans ha⟩)
  exact Option.some.inj (hk.symm.trans hk')

end Program
end WordMachine
