import WordMachine.Program.DebugInfo

/-!
# WordMachine.Proofs.Relocation

Moving debugging information. A shift by a distance moves every entry of an address map and merges
none, also where addresses wrap (`AddressMap.entries_shift_perm`), so two shifts are one by the sum
of the distances (`AddressMap.shift_shift`), and what an address finds is found at the address as
far away (`AddressMap.get?_shift`). The same holds of variables and regions, and information that
has been moved to an origin can be moved on from there as if it had never been moved
(`DebugInfo.relocatedTo_relocatedTo`).
-/

namespace WordMachine

namespace AddressMap

variable {α : Type} {a : Word} {x : α} {m n : AddressMap α}

/-- A map is determined by its entries in any order. -/
theorem eq_of_perm (h : m.entries.Perm n.entries) : m = n := by
  refine ext (h.eq_of_pairwise ?_ m.increasing n.increasing)
  intro e f _ _ hef hfe
  exact absurd (BitVec.lt_trans hef hfe) (BitVec.lt_irrefl _)

theorem place_perm :
    ∀ {es : List (Word × α)}, (∀ e ∈ es, a ≠ e.1) → (place a x es).Perm ((a, x) :: es) := by
  intro es
  induction es with
  | nil => intro _; exact .refl _
  | cons e es ih =>
    obtain ⟨b, y⟩ := e
    intro ha
    rw [List.forall_mem_cons] at ha
    unfold place
    split
    · exact .refl _
    · rw [if_neg ha.1]
      exact ((ih ha.2).cons _).trans (.swap _ _ _)

theorem foldl_insert_perm :
    ∀ {es : List (Word × α)} {m : AddressMap α}, (es ++ m.entries).Pairwise (fun e f => e.1 ≠ f.1) →
      (es.foldl (fun m e => m.insert e.1 e.2) m).entries.Perm (es ++ m.entries) := by
  intro es
  induction es with
  | nil => intro m _; exact .refl _
  | cons e es ih =>
    intro m h
    have hplace : (m.insert e.1 e.2).entries.Perm (e :: m.entries) := by
      rw [List.cons_append, List.pairwise_cons] at h
      exact place_perm fun f hf => h.1 f (List.mem_append_right _ hf)
    -- What is inserted first may stand anywhere among the entries that come after it.
    have hperm : (es ++ (m.insert e.1 e.2).entries).Perm (e :: es ++ m.entries) :=
      (hplace.append_left es).trans List.perm_middle
    exact (ih ((hperm.pairwise_iff fun hne => hne.symm).2 h)).trans hperm

/-- A list in which no address stands twice keeps all of its entries. -/
theorem entries_ofList_perm {es : List (Word × α)} (h : es.Pairwise fun e f => e.1 ≠ f.1) :
    (ofList es).entries.Perm es := by
  have hempty : (empty : AddressMap α).entries = [] := rfl
  have hfold := foldl_insert_perm (m := empty) (by rwa [hempty, List.append_nil])
  rwa [hempty, List.append_nil] at hfold

/-- Shifting moves every entry and merges none. -/
theorem entries_shift_perm (m : AddressMap α) (distance : Word) (f : α → α) :
    (m.shift distance f).entries.Perm (m.entries.map fun e => (e.1 + distance, f e.2)) := by
  refine entries_ofList_perm (List.pairwise_map.2 ?_)
  refine m.increasing.imp fun hlt heq => ?_
  rw [BitVec.add_left_inj] at heq
  exact absurd hlt (heq ▸ BitVec.lt_irrefl _)

theorem length_shift (m : AddressMap α) (distance : Word) (f : α → α) :
    (m.shift distance f).entries.length = m.entries.length := by
  rw [(entries_shift_perm m distance f).length_eq, List.length_map]

theorem shift_shift (m : AddressMap α) (d d' : Word) (f g : α → α) :
    (m.shift d f).shift d' g = m.shift (d + d') (g ∘ f) := by
  refine eq_of_perm ((entries_shift_perm _ d' g).trans ?_)
  refine ((entries_shift_perm m d f).map _).trans ?_
  rw [List.map_map]
  refine .trans (.of_eq ?_) (entries_shift_perm m (d + d') (g ∘ f)).symm
  exact List.map_congr_left fun e _ => by simp [BitVec.add_assoc]

theorem shift_zero (m : AddressMap α) {f : α → α} (hf : ∀ x, f x = x) : m.shift 0#32 f = m := by
  refine eq_of_perm ((entries_shift_perm m 0#32 f).trans (.of_eq ?_))
  have hentry (e : Word × α) : (e.1 + 0#32, f e.2) = e := by rw [BitVec.add_zero, hf]
  simp only [hentry, List.map_id']

theorem get?_eq_some_iff : m.get? a = some x ↔ (a, x) ∈ m.entries := by
  simp only [get?, Option.map_eq_some_iff]
  constructor
  · rintro ⟨⟨b, y⟩, hfind, rfl⟩
    obtain rfl : b = a := by simpa using List.find?_some hfind
    exact List.mem_of_find?_eq_some hfind
  · intro hmem
    obtain ⟨before, after, hentries⟩ := List.append_of_mem hmem
    have hincreasing := m.increasing
    rw [hentries, List.pairwise_append] at hincreasing
    -- the entries before this one have lower addresses
    have hbefore : before.find? (·.1 = a) = none := by
      refine List.find?_eq_none.2 fun e he heq => ?_
      have hlt := hincreasing.2.2 e he (a, x) List.mem_cons_self
      rw [of_decide_eq_true heq] at hlt
      exact BitVec.lt_irrefl _ hlt
    exact ⟨(a, x), by simp [hentries, hbefore], rfl⟩

/-- What is at an address is found as far away as everything is shifted. -/
theorem get?_shift (m : AddressMap α) (distance : Word) (f : α → α) (a : Word) :
    (m.shift distance f).get? (a + distance) = (m.get? a).map f := by
  refine Option.ext fun y => ?_
  rw [get?_eq_some_iff, (entries_shift_perm m distance f).mem_iff, List.mem_map,
    Option.map_eq_some_iff]
  constructor
  · rintro ⟨⟨b, x⟩, hmem, heq⟩
    obtain ⟨hb, hx⟩ := Prod.mk.inj heq
    obtain rfl : b = a := BitVec.add_left_inj _ |>.1 hb
    exact ⟨x, get?_eq_some_iff.2 hmem, hx⟩
  · rintro ⟨x, hget, rfl⟩
    exact ⟨(a, x), get?_eq_some_iff.1 hget, rfl⟩

end AddressMap

namespace NameTable

theorem mapValues_mapValues {α β γ : Type} (t : NameTable α) (f : α → β) (g : β → γ) :
    (t.mapValues f).mapValues g = t.mapValues (g ∘ f) :=
  ext (List.map_map ..)

theorem mapValues_id {α : Type} (t : NameTable α) {f : α → α} (hf : ∀ x, f x = x) :
    t.mapValues f = t := by
  refine ext ?_
  simp only [mapValues, hf, List.map_id']

end NameTable

namespace Variable

theorem shift_shift (d d' : Word) (v : Variable) :
    (v.shift d).shift d' = v.shift (d + d') := by
  cases v with
  | mk name typeName size place =>
    cases place with
    | address a => simp only [shift, BitVec.add_assoc]
    | register _ => rfl
    | frameOffset _ => rfl

theorem shift_comp_shift (d d' : Word) : shift d' ∘ shift d = shift (d + d') :=
  funext (shift_shift d d')

theorem shift_zero (v : Variable) : v.shift 0#32 = v := by
  cases v with
  | mk name typeName size place =>
    cases place with
    | address a => simp only [shift, BitVec.add_zero]
    | register _ => rfl
    | frameOffset _ => rfl

theorem map_shift_zero (vs : List Variable) : vs.map (shift 0#32) = vs := by
  rw [funext shift_zero, List.map_id']

end Variable

namespace Scope

mutual

theorem shift_shift (d d' : Word) : ∀ s : Scope, (s.shift d).shift d' = s.shift (d + d')
  | ⟨low, high, locals, children⟩ => by
    simp only [shift, shiftAll_shiftAll d d' children, List.map_map, Variable.shift_comp_shift,
      BitVec.add_assoc]

theorem shiftAll_shiftAll (d d' : Word) :
    ∀ ss : List Scope, shiftAll d' (shiftAll d ss) = shiftAll (d + d') ss
  | [] => rfl
  | s :: rest => by
    simp only [shiftAll, shift_shift d d' s, shiftAll_shiftAll d d' rest]

end

mutual

theorem shift_zero : ∀ s : Scope, s.shift 0#32 = s
  | ⟨low, high, locals, children⟩ => by
    simp only [shift, shiftAll_zero children, Variable.map_shift_zero, BitVec.add_zero]

theorem shiftAll_zero : ∀ ss : List Scope, shiftAll 0#32 ss = ss
  | [] => rfl
  | s :: rest => by
    simp only [shiftAll, shift_zero s, shiftAll_zero rest]

end

end Scope

namespace DebugInfo

/-- Where information has been moved before does not matter. -/
theorem relocatedTo_relocatedTo (d : DebugInfo) (o o' : Word) :
    (d.relocatedTo o).relocatedTo o' = d.relocatedTo o' := by
  have hdistance : o - d.origin + (o' - o) = o' - d.origin := by bv_omega
  have hlisted : (fun vs : List Variable => vs.map (Variable.shift (o' - o))) ∘
      (fun vs : List Variable => vs.map (Variable.shift (o - d.origin))) =
        fun vs : List Variable => vs.map (Variable.shift (o' - d.origin)) := by
    funext vs
    rw [Function.comp_apply, List.map_map, Variable.shift_comp_shift, hdistance]
  have hscopes : Scope.shift (o' - o) ∘ Scope.shift (o - d.origin) =
      Scope.shift (o' - d.origin) := by
    funext s
    rw [Function.comp_apply, Scope.shift_shift, hdistance]
  simp only [relocatedTo, AddressMap.shift_shift, NameTable.mapValues_mapValues, hdistance,
    hlisted, hscopes, Function.comp_id]

/-- Information that is where it belongs stays as it is. -/
theorem relocatedTo_origin (d : DebugInfo) : d.relocatedTo d.origin = d := by
  have hlines : d.lines.shift 0#32 id = d.lines := AddressMap.shift_zero d.lines fun _ => rfl
  simp only [relocatedTo, BitVec.sub_self, hlines, AddressMap.shift_zero _ Variable.map_shift_zero,
    NameTable.mapValues_id _ Scope.shift_zero]

theorem exactLocation?_relocatedTo (d : DebugInfo) (o a : Word) :
    (d.relocatedTo o).exactLocation? (a + (o - d.origin)) = d.exactLocation? a :=
  (AddressMap.get?_shift d.lines _ id a).trans Option.map_id_apply

/-- **Moving loses nothing.** Information that is moved twice is moved to the later origin, moved
back it is what it was, and moving it keeps every entry: what was found at an address is found at
the address that lies beyond it by the difference of the origins, modulo the size of the address
space. -/
theorem relocation_exact (d : DebugInfo) (a b : Word) :
    (d.relocatedTo a).relocatedTo b = d.relocatedTo b ∧
    (d.relocatedTo a).relocatedTo d.origin = d ∧
    (d.relocatedTo a).lines.entries.length = d.lines.entries.length ∧
    (d.relocatedTo a).listed.entries.length = d.listed.entries.length ∧
    ∀ x : Word, (d.relocatedTo a).exactLocation?
      (BitVec.ofInt 32 (x.toNat + (a.toNat - d.origin.toNat))) = d.exactLocation? x := by
  refine ⟨relocatedTo_relocatedTo d a b, ?_, ?_, ?_, fun x => ?_⟩
  · rw [relocatedTo_relocatedTo, relocatedTo_origin]
  · exact AddressMap.length_shift d.lines _ _
  · exact AddressMap.length_shift d.listed _ _
  · have hmoved : BitVec.ofInt 32 (x.toNat + (a.toNat - d.origin.toNat)) = x + (a - d.origin) := by
      bv_omega
    rw [hmoved, exactLocation?_relocatedTo]

/-- A line that is moved past the end of the address space. -/
example : (({ lines := .ofList [(0x10, ⟨"unit.c", 1⟩), (0xFFFFFFF0, ⟨"unit.c", 2⟩)] } : DebugInfo)
    |>.relocatedTo 0x20).exactLocation? 0x10 = some ⟨"unit.c", 2⟩ := by
  decide +kernel

end DebugInfo
end WordMachine
