import WordMachine.Proofs.Relocation
import Mathlib.Algebra.Ring.Int.Defs
import Mathlib.Data.List.Forall2

/-!
# WordMachine.Proofs.RelocatedLookup

What is found in debugging information that has been moved. A move is a distance between the
origins, an integer. As long as no address wraps by it (`DebugInfo.CanMove`) it keeps the order of
addresses, so the entries of an address map stay in their order (`AddressMap.entries_shift`) and
regions of code contain what they contained. Whatever is looked up from an address is then found
from the address that lies beyond it by the distance, with the addresses in it moved as far
(`DebugInfo.lookups_relocatedTo`).
-/

namespace WordMachine

variable {δ : Int} {w a b : Word}

namespace Word

/-- Whether the address space has a place for an address that is moved by a distance. -/
def CanMove (δ : Int) (a : Word) : Prop := 0 ≤ a.toNat + δ ∧ a.toNat + δ < 2 ^ 32

instance (δ : Int) (a : Word) : Decidable (a.CanMove δ) := inferInstanceAs (Decidable (_ ∧ _))

/-- Whether an address lies beyond another one by a distance. -/
def MovedBy (δ : Int) (a b : Word) : Prop := (b.toNat : Int) = a.toNat + δ

instance (δ : Int) (a b : Word) : Decidable (a.MovedBy δ b) := inferInstanceAs (Decidable (_ = _))

/-- Whether adding a word moves addresses by a distance. -/
def Moves (w : Word) (δ : Int) : Prop := ∀ a : Word, a.CanMove δ → a.MovedBy δ (a + w)

theorem moves_sub (o origin : Word) : (o - origin).Moves (o.toNat - origin.toNat) := by
  rintro a ⟨hlow, hhigh⟩
  have hsum : (a + (o - origin)).toNat =
      (a.toNat + o.toNat + (2 ^ 32 - origin.toNat)) % 2 ^ 32 := by
    rw [BitVec.toNat_add, BitVec.toNat_sub]
    omega
  rw [MovedBy, hsum]
  omega

theorem MovedBy.le_iff {c d : Word} (hab : a.MovedBy δ b) (hcd : c.MovedBy δ d) :
    b ≤ d ↔ a ≤ c := by
  rw [MovedBy] at hab hcd
  rw [BitVec.le_def, BitVec.le_def]
  omega

theorem MovedBy.lt_iff {c d : Word} (hab : a.MovedBy δ b) (hcd : c.MovedBy δ d) :
    b < d ↔ a < c := by
  rw [← BitVec.not_le, hcd.le_iff hab, BitVec.not_le]

end Word

/-! ## Address maps -/

namespace AddressMap

variable {α : Type} {m : AddressMap α} {f : α → α}

/-- Entries that do not wrap stay in their order. -/
theorem entries_shift (hw : w.Moves δ) (hm : ∀ e ∈ m.entries, e.1.CanMove δ) :
    (m.shift w f).entries = m.entries.map fun e => (e.1 + w, f e.2) := by
  have hincreasing : (m.entries.map fun e => (e.1 + w, f e.2)).Pairwise fun x y => x.1 < y.1 := by
    rw [List.pairwise_map]
    refine m.increasing.imp_of_mem fun hx hy hlt => ?_
    exact ((hw _ (hm _ hx)).lt_iff (hw _ (hm _ hy))).2 hlt
  refine (entries_shift_perm m w f).eq_of_pairwise ?_ (m.shift w f).increasing hincreasing
  intro x y _ _ hxy hyx
  exact absurd (BitVec.lt_trans hxy hyx) (BitVec.lt_irrefl _)

theorem floor?_shift (hw : w.Moves δ) (hm : ∀ e ∈ m.entries, e.1.CanMove δ)
    (hab : a.MovedBy δ b) : (m.shift w f).floor? b = (m.floor? a).map f := by
  have hbelow : ∀ e ∈ m.entries, decide (e.1 + w ≤ b) = decide (e.1 ≤ a) := fun e he =>
    decide_eq_decide.2 ((hw _ (hm e he)).le_iff hab)
  have hkept : (m.entries.map fun e => (e.1 + w, f e.2)).filter (·.1 ≤ b) =
      (m.entries.filter (·.1 ≤ a)).map fun e => (e.1 + w, f e.2) := by
    rw [List.filter_map]
    exact congrArg _ (List.filter_congr hbelow)
  rw [floor?, floor?, entries_shift hw hm, hkept, List.getLast?_map, Option.map_map,
    Option.map_map]
  rfl

theorem firstAddress?_shift (hw : w.Moves δ) (hm : ∀ e ∈ m.entries, e.1.CanMove δ)
    {p : α → Bool} (hp : ∀ x, p (f x) = p x) :
    Option.Rel (Word.MovedBy δ) (m.firstAddress? p) ((m.shift w f).firstAddress? p) := by
  rw [firstAddress?, firstAddress?, entries_shift hw hm, List.find?_map]
  have hsame : ((fun e => p e.2) ∘ fun e : Word × α => (e.1 + w, f e.2)) = fun e => p e.2 :=
    funext fun e => hp e.2
  rw [hsame]
  cases hfind : m.entries.find? fun e => p e.2 with
  | none => exact .none
  | some e => exact .some (hw _ (hm e (List.mem_of_find?_eq_some hfind)))

end AddressMap

/-! ## Variables -/

/-- Whether a variable lives as far beyond where another one does, if that is at an address, and
where the other one does if it is not. -/
inductive VariablePlace.MovedBy (δ : Int) : VariablePlace → VariablePlace → Prop
  | register (r : Register) : MovedBy δ (.register r) (.register r)
  | address {a b : Word} (h : a.MovedBy δ b) : MovedBy δ (.address a) (.address b)
  | frameOffset (d : Word) : MovedBy δ (.frameOffset d) (.frameOffset d)

namespace Variable

/-- Whether a variable differs from another one in its address alone, by a distance. -/
structure MovedBy (δ : Int) (v v' : Variable) : Prop where
  name : v'.name = v.name
  typeName : v'.typeName = v.typeName
  size : v'.size = v.size
  place : v.place.MovedBy δ v'.place

/-- Whether the address of a variable, if it has one, does not wrap. -/
def CanMove (δ : Int) (v : Variable) : Prop :=
  match v.place with
  | .address a => a.CanMove δ
  | _ => True

instance (δ : Int) (v : Variable) : Decidable (v.CanMove δ) := by
  unfold CanMove; split <;> infer_instance

theorem movedBy_shift (hw : w.Moves δ) {v : Variable} (hv : v.CanMove δ) :
    v.MovedBy δ (v.shift w) := by
  cases v with
  | mk name typeName size place =>
    cases place with
    | register r => exact ⟨rfl, rfl, rfl, .register r⟩
    | address a => exact ⟨rfl, rfl, rfl, .address (hw a hv)⟩
    | frameOffset d => exact ⟨rfl, rfl, rfl, .frameOffset d⟩

theorem forall₂_movedBy_shift (hw : w.Moves δ) {vs : List Variable}
    (hvs : ∀ v ∈ vs, v.CanMove δ) : List.Forall₂ (MovedBy δ) vs (vs.map (shift w)) := by
  rw [List.forall₂_map_right_iff, List.forall₂_same]
  exact fun v hv => movedBy_shift hw (hvs v hv)

theorem any_name_of_movedBy {vs vs' : List Variable} (h : List.Forall₂ (MovedBy δ) vs vs')
    (name : String) : (vs'.any (·.name = name)) = vs.any (·.name = name) := by
  induction h with
  | nil => rfl
  | cons hv _ ih => rw [List.any_cons, List.any_cons, ih, hv.name]

end Variable

/-! ## Regions -/

namespace Scope

mutual

/-- Whether no address in a region or in one inside it wraps. -/
def CanMove (δ : Int) : Scope → Prop
  | ⟨low, high, locals, children⟩ =>
    low.CanMove δ ∧ high.CanMove δ ∧ (∀ v ∈ locals, v.CanMove δ) ∧ AllCanMove δ children

/-- Whether no address in several regions wraps. -/
def AllCanMove (δ : Int) : List Scope → Prop
  | [] => True
  | s :: rest => s.CanMove δ ∧ AllCanMove δ rest

end

mutual

/-- A region that is moved shows what it showed. -/
theorem visible_shift (hw : w.Moves δ) (hab : a.MovedBy δ b) : ∀ s : Scope, s.CanMove δ →
    List.Forall₂ (Variable.MovedBy δ) (visible a s) (visible b (s.shift w))
  | ⟨low, high, locals, children⟩, h => by
    obtain ⟨hlow, hhigh, hlocals, hchildren⟩ := h
    have hinside : low + w ≤ b ∧ b < high + w ↔ low ≤ a ∧ a < high :=
      and_congr ((hw low hlow).le_iff hab) (hab.lt_iff (hw high hhigh))
    simp only [visible, shift, hinside]
    split
    · exact List.rel_append (Variable.forall₂_movedBy_shift hw hlocals)
        (visibleIn_shiftAll hw hab children hchildren)
    · exact .nil

theorem visibleIn_shiftAll (hw : w.Moves δ) (hab : a.MovedBy δ b) : ∀ ss : List Scope,
    AllCanMove δ ss →
      List.Forall₂ (Variable.MovedBy δ) (visibleIn a ss) (visibleIn b (shiftAll w ss))
  | [], _ => .nil
  | s :: rest, h =>
    List.rel_append (visible_shift hw hab s h.1) (visibleIn_shiftAll hw hab rest h.2)

end

theorem visibleIn_eq_flatMap (a : Word) (ss : List Scope) :
    visibleIn a ss = ss.flatMap (visible a) := by
  induction ss with
  | nil => rfl
  | cons s rest ih => rw [visibleIn, ih, List.flatMap_cons]

theorem shiftAll_eq_map (w : Word) (ss : List Scope) : shiftAll w ss = ss.map (shift w) := by
  induction ss with
  | nil => rfl
  | cons s rest ih => rw [shiftAll, ih, List.map_cons]

end Scope

namespace DebugInfo

/-- Whether no address that is stored anywhere in the information wraps. -/
structure CanMove (δ : Int) (d : DebugInfo) : Prop where
  lines : ∀ e ∈ d.lines.entries, e.1.CanMove δ
  listed : ∀ e ∈ d.listed.entries, e.1.CanMove δ ∧ ∀ v ∈ e.2, v.CanMove δ
  scopes : Scope.AllCanMove δ d.scopes.values

/-- Names decide on what is added, and names do not move. -/
theorem forall₂_addUnseen {vs vs' : List Variable} (h : List.Forall₂ (Variable.MovedBy δ) vs vs') :
    ∀ {seen seen' : List Variable}, List.Forall₂ (Variable.MovedBy δ) seen seen' →
      List.Forall₂ (Variable.MovedBy δ) (addUnseen seen vs) (addUnseen seen' vs') := by
  induction h with
  | nil => exact id
  | @cons v v' vs vs' hv _ ih =>
    intro seen seen' hseen
    simp only [addUnseen, List.foldl_cons, hv.name, Variable.any_name_of_movedBy hseen]
    refine ih ?_
    split
    · exact hseen
    · exact List.rel_append hseen (.cons hv .nil)

theorem variablesAt_relocatedTo {d : DebugInfo} {o : Word} (hw : (o - d.origin).Moves δ)
    (hd : d.CanMove δ) (hab : a.MovedBy δ b) :
    List.Forall₂ (Variable.MovedBy δ) (d.variablesAt a) ((d.relocatedTo o).variablesAt b) := by
  have hvalues : (d.relocatedTo o).scopes.values =
      Scope.shiftAll (o - d.origin) d.scopes.values := by
    simp only [relocatedTo, NameTable.values, NameTable.mapValues, Scope.shiftAll_eq_map,
      List.map_map, Function.comp_def]
  have hlisted : (d.relocatedTo o).listed.floor? b =
      (d.listed.floor? a).map (·.map (Variable.shift (o - d.origin))) :=
    AddressMap.floor?_shift hw (fun e he => (hd.listed e he).1) hab
  rw [variablesAt, variablesAt, hvalues, hlisted, ← Scope.visibleIn_eq_flatMap,
    ← Scope.visibleIn_eq_flatMap]
  refine forall₂_addUnseen ?_ (Scope.visibleIn_shiftAll hw hab _ hd.scopes)
  cases hfloor : d.listed.floor? a with
  | none => exact .nil
  | some vs =>
    obtain ⟨e, he, rfl⟩ := Option.map_eq_some_iff.1 hfloor
    have hmem : e ∈ d.listed.entries := List.mem_of_mem_filter (List.mem_of_getLast? he)
    exact Variable.forall₂_movedBy_shift hw (hd.listed e hmem).2

/-- **What is found moves with the code.** Of information that is moved by a distance, by which none
of its addresses wraps, an address finds the line that the address it was moved from found, and the
same variables in the same order, those at fixed addresses moved as far; the first address of every
line is moved as far as well. -/
theorem lookups_relocatedTo (d : DebugInfo) (o : Word)
    (hd : d.CanMove (o.toNat - d.origin.toNat)) :
    (∀ a b : Word, a.MovedBy (o.toNat - d.origin.toNat) b →
      (d.relocatedTo o).locationAt? b = d.locationAt? a ∧
      List.Forall₂ (Variable.MovedBy (o.toNat - d.origin.toNat)) (d.variablesAt a)
        ((d.relocatedTo o).variablesAt b)) ∧
    ∀ l : SourceLocation, Option.Rel (Word.MovedBy (o.toNat - d.origin.toNat))
      (d.addressOfLine? l) ((d.relocatedTo o).addressOfLine? l) := by
  have hw := Word.moves_sub o d.origin
  refine ⟨fun a b hab => ⟨?_, variablesAt_relocatedTo hw hd hab⟩, fun l => ?_⟩
  · exact (AddressMap.floor?_shift hw hd.lines hab).trans Option.map_id_apply
  · exact AddressMap.firstAddress?_shift hw hd.lines fun _ => rfl

/-- A region inside another one, and a variable that the outer one hides. -/
def nested : DebugInfo where
  lines := .ofList [(0x1000, ⟨"unit.c", 3⟩), (0x1008, ⟨"unit.c", 4⟩)]
  listed := .ofList [(0x1004,
    [⟨"x", "int", 4, .register .r1⟩, ⟨"g", "int", 4, .address 0x1020⟩])]
  scopes := .ofList [("main", ⟨0x1000, 0x1010, [⟨"x", "int", 4, .frameOffset 8⟩],
    [⟨0x1008, 0x100C, [⟨"y", "char", 1, .register .r2⟩], []⟩]⟩)]
  origin := 0x1000

theorem lookups_relocatedTo_nested : nested.CanMove (-0xFE0) ∧
    (nested.relocatedTo 0x20).locationAt? 0x29 = some ⟨"unit.c", 4⟩ ∧
    List.Forall₂ (Variable.MovedBy (-0xFE0)) [⟨"x", "int", 4, .frameOffset 8⟩,
      ⟨"y", "char", 1, .register .r2⟩, ⟨"g", "int", 4, .address 0x1020⟩]
      ((nested.relocatedTo 0x20).variablesAt 0x29) ∧
    Option.Rel (Word.MovedBy (-0xFE0)) (some 0x1008)
      ((nested.relocatedTo 0x20).addressOfLine? ⟨"unit.c", 4⟩) := by
  have hcan : nested.CanMove (-0xFE0) :=
    { lines := by decide +kernel
      listed := by decide +kernel
      scopes := by
        refine ⟨⟨by decide, by decide, by decide, ⟨by decide, by decide, by decide, ?_⟩, ?_⟩, ?_⟩
        all_goals trivial }
  obtain ⟨hat, hline⟩ := lookups_relocatedTo nested 0x20 hcan
  obtain ⟨hlocation, hvariables⟩ := hat 0x1009 0x29 (by decide)
  refine ⟨hcan, hlocation.trans (by decide +kernel), ?_, ?_⟩
  · have hbefore : nested.variablesAt 0x1009 = [⟨"x", "int", 4, .frameOffset 8⟩,
        ⟨"y", "char", 1, .register .r2⟩, ⟨"g", "int", 4, .address 0x1020⟩] := by decide +kernel
    exact hbefore ▸ hvariables
  · have hbefore : nested.addressOfLine? ⟨"unit.c", 4⟩ = some 0x1008 := by decide +kernel
    exact hbefore ▸ hline ⟨"unit.c", 4⟩

end DebugInfo
end WordMachine
