import WordMachine.Proofs.Relinking

/-!
# WordMachine.Proofs.NameLookup

What names stand for. `Program.StandsFor` says it without a search: a name stands for the function
of that name, else for the first global, else for the first label. `Program.lookup?` finds just
that (`Program.lookup?_eq_some_iff`), and the address of what it finds is the address that the name
has in the same table (`Program.targetAddress?_of_standsFor`).

`Program.bind_exact` says it of a whole program: which programs bind, what binding makes of them,
and which names are reported when it fails.
-/

namespace WordMachine

open Outcome

namespace NameTable

variable {α : Type} {t : NameTable α} {name : String} {k : Nat}

/-- A name stands at one place of a table only. -/
theorem indexOf?_eq_some_iff : t.indexOf? name = some k ↔ ∃ x, t.at? k = some (name, x) := by
  simp only [indexOf?, at?, List.findIdx?_eq_some_iff_getElem, decide_eq_true_eq]
  constructor
  · rintro ⟨hk, rfl, -⟩
    exact ⟨t.entries[k].2, List.getElem?_eq_getElem hk⟩
  · rintro ⟨x, hx⟩
    obtain ⟨hk, hx⟩ := List.getElem?_eq_some_iff.1 hx
    refine ⟨hk, by rw [hx], fun j hj hname => ?_⟩
    have hdistinct := List.pairwise_iff_getElem.1 (List.pairwise_map.1 t.distinct)
    exact hdistinct j k (hj.trans hk) hk hj (by rw [hname, hx])

theorem indexOf?_eq_none_iff : t.indexOf? name = none ↔ ∀ x, (name, x) ∉ t.entries := by
  simp only [indexOf?, List.findIdx?_eq_none_iff, decide_eq_false_iff_not]
  constructor
  · intro h x hx
    exact h _ hx rfl
  · rintro h ⟨n, x⟩ hx rfl
    exact h x hx

theorem get?_eq_bind : t.get? name = ((t.indexOf? name).bind t.at?).map (·.2) := by
  rw [get?, List.find?_eq_bind_findIdx?_getElem?]
  rfl

end NameTable

namespace Program

variable {p q : Program} {name : String} {t : Target} {k : Nat} {e : CodeEntry} {r : Reference}

/-! ## What a name stands for -/

/-- Whether a function, a global or a label has this name. -/
def Defines (p : Program) (name : String) : Prop :=
  name ∈ p.functions.entries.map (·.1) ∨ name ∈ p.globals.map Global.name ∨
    name ∈ p.labels.map Label.name

instance (p : Program) (name : String) : Decidable (p.Defines name) :=
  inferInstanceAs (Decidable (_ ∨ _ ∨ _))

/-- Whether an element of a list is the first one with a name. -/
def FirstNamed {α : Type} (nameOf : α → String) (xs : List α) (name : String) (k : Nat) : Prop :=
  (∃ x, xs[k]? = some x ∧ nameOf x = name) ∧ ∀ j < k, ∀ x, xs[j]? = some x → nameOf x ≠ name

/-- What a name stands for: the function of that name, else the first global, else the first
label. -/
inductive StandsFor (p : Program) (name : String) : Target → Prop
  | function {k : Nat} {f : Function} (h : p.functions.at? k = some (name, f)) :
      StandsFor p name (.function k)
  | global {k : Nat} (hfunctions : ∀ f, (name, f) ∉ p.functions.entries)
      (h : FirstNamed Global.name p.globals name k) : StandsFor p name (.global k)
  | label {k : Nat} (hfunctions : ∀ f, (name, f) ∉ p.functions.entries)
      (hglobals : ∀ g ∈ p.globals, g.name ≠ name)
      (h : FirstNamed Label.name p.labels name k) : StandsFor p name (.label k)

/-- The address that a name has in the table that a target is in. -/
def namedAddress? (p : Program) (name : String) : Target → Option Word
  | .function _ => p.functionAddress? name
  | .global _ => (p.global? name).bind Global.address
  | .label _ => p.labelAddress? name

theorem findIdx?_eq_some_iff_firstNamed {α : Type} {nameOf : α → String} {xs : List α} :
    xs.findIdx? (fun x => decide (nameOf x = name)) = some k ↔ FirstNamed nameOf xs name k := by
  simp only [List.findIdx?_eq_some_iff_getElem, FirstNamed, decide_eq_true_eq]
  constructor
  · rintro ⟨hk, hname, hbefore⟩
    refine ⟨⟨xs[k], List.getElem?_eq_getElem hk, hname⟩, fun j hj x hx => ?_⟩
    obtain ⟨-, rfl⟩ := List.getElem?_eq_some_iff.1 hx
    exact hbefore j hj
  · rintro ⟨⟨x, hx, hname⟩, hbefore⟩
    obtain ⟨hk, rfl⟩ := List.getElem?_eq_some_iff.1 hx
    exact ⟨hk, hname, fun j hj => hbefore j hj _ (List.getElem?_eq_getElem (hj.trans hk))⟩

theorem lookup?_eq_some_iff : p.lookup? name = some t ↔ p.StandsFor name t := by
  simp only [lookup?, Option.or_eq_some_iff, Option.or_eq_none_iff, Option.map_eq_some_iff,
    Option.map_eq_none_iff, NameTable.indexOf?_eq_some_iff, NameTable.indexOf?_eq_none_iff,
    findIdx?_eq_some_iff_firstNamed, List.findIdx?_eq_none_iff, decide_eq_false_iff_not]
  constructor
  · rintro ((⟨k, ⟨f, hf⟩, rfl⟩ | ⟨hfunctions, k, hk, rfl⟩) | ⟨⟨hfunctions, hglobals⟩, k, hk, rfl⟩)
    · exact .function hf
    · exact .global hfunctions hk
    · exact .label hfunctions hglobals hk
  · rintro (⟨hf⟩ | ⟨hfunctions, hk⟩ | ⟨hfunctions, hglobals, hk⟩)
    · exact .inl (.inl ⟨_, ⟨_, hf⟩, rfl⟩)
    · exact .inl (.inr ⟨hfunctions, _, hk, rfl⟩)
    · exact .inr ⟨⟨hfunctions, hglobals⟩, _, hk, rfl⟩

theorem lookup?_eq_none_iff : p.lookup? name = none ↔ ¬ p.Defines name := by
  simp only [lookup?, Option.or_eq_none_iff, Option.map_eq_none_iff, NameTable.indexOf?,
    List.findIdx?_eq_none_iff, decide_eq_false_iff_not, Defines, List.mem_map, not_or, not_exists,
    not_and, and_assoc]

/-- What a name stands for is found at the same address by its name. -/
theorem targetAddress?_of_standsFor (h : p.StandsFor name t) :
    p.targetAddress? t = p.namedAddress? name t := by
  cases h with
  | function hf =>
    have hindex := NameTable.indexOf?_eq_some_iff.2 ⟨_, hf⟩
    simp only [targetAddress?, namedAddress?, functionAddress?, NameTable.get?_eq_bind, hindex, hf,
      Option.bind_some, Option.map_some, Option.bind_eq_bind]
  | global _ hk =>
    have hindex := findIdx?_eq_some_iff_firstNamed.2 hk
    simp only [targetAddress?, namedAddress?, global?, List.find?_eq_bind_findIdx?_getElem?, hindex,
      Option.bind_some, Option.bind_eq_bind]
  | label _ _ hk =>
    have hindex := findIdx?_eq_some_iff_firstNamed.2 hk
    simp only [targetAddress?, namedAddress?, labelAddress?, List.find?_eq_bind_findIdx?_getElem?,
      hindex, Option.bind_some, Option.bind_eq_bind]

/-! ## Unknown names -/

theorem mem_unknownNames :
    name ∈ p.unknownNames ↔ name ∈ p.referencedNames ∧ ¬ p.Defines name := by
  rw [unknownNames, List.mem_eraseDups, List.mem_filter, Option.isNone_iff_eq_none,
    lookup?_eq_none_iff]

theorem unknownNames_eq_nil_iff :
    p.unknownNames = [] ↔ ∀ name ∈ p.referencedNames, p.Defines name := by
  simp only [List.eq_nil_iff_forall_not_mem, mem_unknownNames, not_and, Classical.not_not]

/-- Of some of the names in a list, each once, the first to be there is the first to be listed. -/
theorem pairwise_idxOf_eraseDups :
    ∀ {names : List String} {picked : String → Bool},
      (names.filter picked).eraseDups.Pairwise (names.idxOf · < names.idxOf ·) := by
  intro names
  induction names with
  | nil =>
    intro picked
    rw [List.filter_nil, List.eraseDups_nil]
    exact .nil
  | cons first rest ih =>
    intro picked
    -- whatever is listed of the rest is not the first name
    have hrest {other : String → Bool} (hother : ∀ name, other name = true → name ≠ first) :
        (rest.filter other).eraseDups.Pairwise
          ((first :: rest).idxOf · < (first :: rest).idxOf ·) := by
      refine ih.imp_of_mem fun {a b} ha hb hab => ?_
      have ha' := hother a (List.of_mem_filter (List.mem_eraseDups.1 ha))
      have hb' := hother b (List.of_mem_filter (List.mem_eraseDups.1 hb))
      rw [List.idxOf_cons_ne _ ha'.symm, List.idxOf_cons_ne _ hb'.symm]
      exact Nat.succ_lt_succ hab
    by_cases hpicked : picked first = true
    · rw [List.filter_cons_of_pos hpicked, List.eraseDups_cons, List.filter_filter]
      refine .cons (fun name hname => ?_) (hrest fun name hname => ?_)
      · have hne : name ≠ first := by
          have := List.of_mem_filter (List.mem_eraseDups.1 hname)
          simp only [Bool.and_eq_true, Bool.not_eq_true', beq_eq_false_iff_ne] at this
          exact this.1
        rw [List.idxOf_cons_self, List.idxOf_cons_ne _ hne.symm]
        exact Nat.succ_pos _
      · simp only [Bool.and_eq_true, Bool.not_eq_true', beq_eq_false_iff_ne] at hname
        exact hname.1
    · rw [List.filter_cons_of_neg hpicked]
      exact hrest fun name hname heq => hpicked (heq ▸ hname)

/-! ## Binding -/

/-- Whether a reference is another one with what its name stands for, and else unchanged. -/
def BindsReference (p : Program) (r r' : Reference) : Prop :=
  ∃ t, p.StandsFor r.name t ∧ r' = { r with target := some t }

/-- Whether a program is another one with every reference bound, and else unchanged. -/
structure BindsTo (p q : Program) : Prop where
  rest : q = { p with code := q.code }
  code : List.Forall₂ (fun e e' => e' = { e with references := e'.references } ∧
    List.Forall₂ p.BindsReference e.references e'.references) p.code q.code

theorem standsFor_of_known (hnames : p.unknownNames = []) (he : e ∈ p.code)
    (hr : r ∈ e.references) : ∃ t, p.lookup? r.name = some t ∧ p.StandsFor r.name t := by
  have hmem : r.name ∈ p.referencedNames :=
    List.mem_flatMap.2 ⟨e, he, List.mem_map_of_mem hr⟩
  have hdefines := unknownNames_eq_nil_iff.1 hnames _ hmem
  rcases hlookup : p.lookup? r.name with _ | t
  · exact absurd hdefines (lookup?_eq_none_iff.1 hlookup)
  · exact ⟨t, rfl, lookup?_eq_some_iff.1 hlookup⟩

theorem bindsTo_bindReferences (hnames : p.unknownNames = []) : p.BindsTo p.bindReferences := by
  refine ⟨rfl, ?_⟩
  rw [bindReferences, List.forall₂_map_right_iff, List.forall₂_same]
  intro e he
  refine ⟨rfl, ?_⟩
  rw [bindEntry, List.forall₂_map_right_iff, List.forall₂_same]
  intro r hr
  obtain ⟨t, hlookup, ht⟩ := standsFor_of_known hnames he hr
  exact ⟨t, ht, by rw [hlookup]⟩

theorem lookup?_bindReferences (name : String) : p.bindReferences.lookup? name = p.lookup? name :=
  rfl

/-- What the references of a bound entry are bound to. -/
theorem target_of_mem_bindEntry (hnames : p.unknownNames = []) (he : e ∈ p.code)
    (hr : r ∈ (p.bindEntry e).references) : ∃ t, r.target = some t ∧ p.StandsFor r.name t := by
  obtain ⟨r₀, hr₀, rfl⟩ := List.mem_map.1 hr
  exact standsFor_of_known hnames he hr₀

/-- **Binding is exact.** A program binds if and only if every name in its references is the name
of something. Then every reference is bound to what its name stands for, whatever it was bound to
before, and nothing else changes; bound or placed, the program has what a reference is bound to
where it has the name. Otherwise the names of nothing are reported, each once, in the order of their
first use. -/
theorem bind_exact (p : Program) :
    ((∃ q, p.bind = .ok q) ↔ ∀ name ∈ p.referencedNames, p.Defines name) ∧
    (∀ q, p.bind = .ok q → p.BindsTo q ∧
      ∀ q', q' = q ∨ (∃ rules, q.place rules = .ok q') →
        ∀ e ∈ q'.code, ∀ r ∈ e.references, ∃ t, r.target = some t ∧ p.StandsFor r.name t ∧
          q'.targetAddress? t = q'.namedAddress? r.name t) ∧
    ∀ err, p.bind = .error err →
      err.names.Pairwise (p.referencedNames.idxOf · < p.referencedNames.idxOf ·) ∧
        ∀ name, name ∈ err.names ↔ name ∈ p.referencedNames ∧ ¬ p.Defines name := by
  refine ⟨?_, ?_, ?_⟩
  · simp only [bound_iff, unknownNames_eq_nil_iff, exists_and_left, exists_eq', and_true]
  · intro q h
    obtain ⟨hnames, rfl⟩ := bound_iff.1 h
    refine ⟨bindsTo_bindReferences hnames, ?_⟩
    rintro q' (rfl | ⟨rules, hplace⟩) e he r hr
    · obtain ⟨e₀, he₀, rfl⟩ := List.mem_map.1 he
      obtain ⟨t, htarget, ht⟩ := target_of_mem_bindEntry hnames he₀ hr
      refine ⟨t, htarget, ht, targetAddress?_of_standsFor (lookup?_eq_some_iff.1 ?_)⟩
      exact (lookup?_bindReferences r.name).trans (lookup?_eq_some_iff.2 ht)
    · obtain ⟨map, -, -, -, rfl⟩ := place_ok_iff.1 hplace
      rw [bindReferences_bindReferences] at he ⊢
      obtain ⟨k, hk⟩ := List.getElem?_of_mem he
      rw [getElem?_code_placeAt, Option.map_eq_some_iff] at hk
      obtain ⟨e₀, he₀, rfl⟩ := hk
      obtain ⟨t, htarget, ht⟩ := target_of_mem_bindEntry hnames (List.mem_of_getElem? he₀) hr
      refine ⟨t, htarget, ht, targetAddress?_of_standsFor (lookup?_eq_some_iff.1 ?_)⟩
      rw [lookup?_placeAt, lookup?_eq_some_iff]
      exact ht
  · intro err h
    unfold bind at h
    split at h <;> cases h
    exact ⟨pairwise_idxOf_eraseDups, fun _ => mem_unknownNames⟩

/-- Names that are in several tables, and a reference that was bound to something else before. -/
def clashing : Program where
  fileName := "unit.o"
  functions := .ofList [("main", { ranges := [⟨0, 1⟩] }), ("twin", { ranges := [⟨1, 2⟩] })]
  code := [
    { text := some "CALLIMM twin",
      references := [{ name := "twin", target := some (.label 0) }, { name := "shared" }] },
    { references := [{ name := "spot" }, { name := "twin" }] }]
  globals := [{ name := "twin", size := 4 }, { name := "shared", size := 4 },
    { name := "shared", size := 8 }]
  labels := [{ name := "twin", index := some 0 }, { name := "spot", index := some 1 }]

theorem bind_exact_clashing :
    (∃ q q', clashing.bind = .ok q ∧ q.place {} = .ok q' ∧
      q'.code.map (·.references.map Reference.target) =
        [[some (.function 1), some (.global 1)], [some (.label 1), some (.function 1)]] ∧
      clashing.BindsTo q ∧ ∀ e ∈ q'.code, ∀ r ∈ e.references, ∃ t, r.target = some t ∧
        clashing.StandsFor r.name t ∧ q'.targetAddress? t = q'.namedAddress? r.name t) ∧
    ∃ err, { clashing with globals := [], labels := [] }.bind = .error err ∧
      err.names = ["shared", "spot"] ∧ err.names.Pairwise fun a b =>
        clashing.referencedNames.idxOf a < clashing.referencedNames.idxOf b := by
  constructor
  · obtain ⟨q, q', hq, hq', htargets⟩ : ∃ q q', clashing.bind = .ok q ∧ q.place {} = .ok q' ∧
        q'.code.map (·.references.map Reference.target) =
          [[some (.function 1), some (.global 1)], [some (.label 1), some (.function 1)]] :=
      ⟨clashing.bindReferences, _, bound_iff.2 ⟨by decide +kernel, rfl⟩, rfl, by decide +kernel⟩
    obtain ⟨hbinds, hplaced⟩ := (bind_exact clashing).2.1 q hq
    exact ⟨q, q', hq, hq', htargets, hbinds, hplaced q' (.inr ⟨_, hq'⟩)⟩
  · obtain ⟨err, herr, hnames⟩ : ∃ err,
        { clashing with globals := [], labels := [] }.bind = .error err ∧
          err.names = ["shared", "spot"] := ⟨_, rfl, by decide +kernel⟩
    exact ⟨err, herr, hnames, ((bind_exact _).2.2 err herr).1⟩

end Program
end WordMachine
