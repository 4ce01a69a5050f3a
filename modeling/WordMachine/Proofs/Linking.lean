import WordMachine.Program.Link
import WordMachine.Proofs.Outcome

/-!
# WordMachine.Proofs.Linking

The link taken apart. `Program.link_ok_iff` says what a program links to and when;
`Program.exists_of_link` follows one code entry through the link: it is bound, given an address
that its index decides, and settled.
-/

namespace WordMachine

open Outcome

namespace Program

variable {s : InstructionSet} {p q : Program} {e e' : CodeEntry} {rules : PlacementRules}
  {map : MemoryMap}

/-! ## Binding and placing -/

theorem bindEntry_bindEntry (p : Program) (e : CodeEntry) :
    p.bindEntry (p.bindEntry e) = p.bindEntry e := by
  simp [bindEntry, Function.comp_def]

/-- Binding a second time changes nothing. -/
theorem bindReferences_bindReferences (p : Program) :
    p.bindReferences.bindReferences = p.bindReferences := by
  have hcode : (p.code.map p.bindEntry).map p.bindEntry = p.code.map p.bindEntry := by
    rw [List.map_map]
    exact List.map_congr_left fun e _ => bindEntry_bindEntry p e
  show { p with code := (p.code.map p.bindEntry).map p.bindEntry } = p.bindReferences
  rw [hcode]
  rfl

theorem referencedNames_bindReferences (p : Program) :
    p.bindReferences.referencedNames = p.referencedNames := by
  simp [referencedNames, bindReferences, bindEntry, List.flatMap_map, Function.comp_def]

theorem unknownNames_bindReferences (p : Program) :
    p.bindReferences.unknownNames = p.unknownNames := by
  rw [unknownNames, referencedNames_bindReferences]
  rfl

theorem bound_iff : p.bind = .ok q ↔ p.unknownNames = [] ∧ p.bindReferences = q := by
  unfold bind
  by_cases h : p.unknownNames = [] <;> simp [h]

theorem place_ok_iff : p.place rules = .ok q ↔
    ∃ map, (∀ g ∈ p.globals, g.initialSize ≤ g.size.toNat) ∧
      planMemory rules p.code.length (p.globals.map Global.size) = .ok map ∧
      p.unknownNames = [] ∧ p.bindReferences.placeAt map = q := by
  have hfind : p.globals.find? (fun g => decide (g.size.toNat < g.initialSize)) = none ↔
      ∀ g ∈ p.globals, g.initialSize ≤ g.size.toNat := by
    simp
  simp only [place]
  split
  · rename_i g hg
    simp only [throw_bind, throw_ok_iff, false_iff, not_exists]
    rintro map ⟨hall, -⟩
    rw [hfind.2 hall] at hg
    cases hg
  · rename_i hnone
    simp only [bind_ok_iff, throw_bind, guard_ok_iff, pure_ok_iff, ne_eq, Classical.not_not]
    constructor
    · rintro ⟨map, hmap, hnames, rfl⟩
      exact ⟨map, hfind.1 hnone, hmap, hnames, rfl⟩
    · rintro ⟨map, -, hmap, hnames, rfl⟩
      exact ⟨map, hmap, hnames, rfl⟩

/-- What a program links to, when it links. -/
theorem link_ok_iff : p.link s rules = .ok q ↔
    ∃ map code, p.unknownNames = [] ∧ (∀ g ∈ p.globals, g.initialSize ≤ g.size.toNat) ∧
      planMemory rules p.code.length (p.globals.map Global.size) = .ok map ∧
      settleFrom s (p.bindReferences.placeAt map) 0 (p.bindReferences.placeAt map).code =
        .ok code ∧
      { p.bindReferences.placeAt map with code } = q := by
  simp only [link, bind_ok_iff, mapError_ok_iff, bound_iff, place_ok_iff, settle, pure_ok_iff]
  constructor
  · rintro ⟨_, ⟨hnames, rfl⟩, _, ⟨map, hinit, hmap, -, rfl⟩, code, hcode, rfl⟩
    rw [bindReferences_bindReferences] at hcode ⊢
    exact ⟨map, code, hnames, hinit, by simpa [bindReferences] using hmap, hcode, rfl⟩
  · rintro ⟨map, code, hnames, hinit, hmap, hcode, rfl⟩
    refine ⟨_, ⟨hnames, rfl⟩, p.bindReferences.placeAt map, ⟨map, hinit, ?_, ?_, ?_⟩, code,
      hcode, rfl⟩
    · simpa [bindReferences] using hmap
    · rw [unknownNames_bindReferences, hnames]
    · rw [bindReferences_bindReferences]

/-! ## Entry by entry -/

theorem of_settleFrom :
    ∀ {es es' : List CodeEntry} {n : Nat}, settleFrom s p n es = .ok es' →
      es'.length = es.length ∧ ∀ (k : Nat) e e', es[k]? = some e → es'[k]? = some e' →
        p.settleEntry s e = .ok e' := by
  intro es
  induction es with
  | nil =>
    intro es' n h
    simp only [settleFrom, pure_ok_iff] at h
    subst h
    simp
  | cons e₀ es ih =>
    intro es' n h
    simp only [settleFrom, bind_ok_iff, pure_ok_iff, mapError_ok_iff] at h
    obtain ⟨e₁, hfirst, es₁, hrest, rfl⟩ := h
    obtain ⟨hlen, hall⟩ := ih hrest
    refine ⟨by simp [hlen], ?_⟩
    intro k e e' he he'
    cases k with
    | zero =>
      cases he
      cases he'
      exact hfirst
    | succ k => exact hall k e e' he he'

theorem getElem?_addressCode {st : Word} :
    ∀ {es : List CodeEntry} {a : Word} {k : Nat},
      (addressCode st a es)[k]? =
        es[k]?.map ({ · with address := some (a + BitVec.ofNat 32 k * st) }) := by
  intro es
  induction es with
  | nil => intro a k; simp [addressCode]
  | cons e es ih =>
    intro a k
    cases k with
    | zero => simp [addressCode]
    | succ k =>
      have hadd : a + st + BitVec.ofNat 32 k * st = a + BitVec.ofNat 32 (k + 1) * st := by
        rw [BitVec.ofNat_add, BitVec.add_mul, BitVec.add_assoc, BitVec.add_comm st]
        simp
      simp only [addressCode, List.getElem?_cons_succ, ih, hadd]

@[simp] theorem length_addressCode {st : Word} :
    ∀ {es : List CodeEntry} {a : Word}, (addressCode st a es).length = es.length := by
  intro es
  induction es with
  | nil => intro a; rfl
  | cons e es ih => intro a; simp [addressCode, ih]

/-- The entry at index `k` of a placed program. -/
def placedEntry (p : Program) (map : MemoryMap) (k : Nat) (e : CodeEntry) : CodeEntry :=
  { p.bindEntry e with address := some (map.codeStart + BitVec.ofNat 32 k * map.stride) }

theorem getElem?_code_placeAt {k : Nat} :
    (p.bindReferences.placeAt map).code[k]? = p.code[k]?.map (p.placedEntry map k) := by
  simp only [placeAt, bindReferences, getElem?_addressCode, List.getElem?_map, Option.map_map]
  rfl

/-- Every entry of a linked program is one of the program, placed and settled. -/
theorem exists_of_link (h : p.link s rules = .ok q) :
    q.code.length = p.code.length ∧
      ∃ map, planMemory rules p.code.length (p.globals.map Global.size) = .ok map ∧
        ∀ (k : Nat) e e', p.code[k]? = some e → q.code[k]? = some e' →
          (p.bindReferences.placeAt map).settleEntry s (p.placedEntry map k e) = .ok e' := by
  obtain ⟨map, code, -, -, hmap, hcode, rfl⟩ := link_ok_iff.1 h
  obtain ⟨hlen, hall⟩ := of_settleFrom hcode
  refine ⟨?_, map, hmap, fun k e e' he he' => hall k _ e' ?_ he'⟩
  · rw [hlen]
    simp [placeAt, bindReferences]
  · rw [getElem?_code_placeAt, he]
    rfl

end Program
end WordMachine
