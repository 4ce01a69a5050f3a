import Mathlib
import WordMachine.Proofs.AdmittedFormats
import WordMachine.Proofs.Meaning

/-!
# WordMachine.Proofs.AcceptedOperands

Which instructions have field values, and which of these have a word. An instruction is written
field by field, and each field takes its operand or not (`Field.Takes`). It does not follow that the
value fits the field: the slot of a register is written without a look at the width, so that a field
has room for it or not (`Field.HasRoom`).

* `InstructionSet.exists_toFields_iff`: an instruction has field values when every field takes its
  operand;
* `InstructionSet.exists_encode_iff`: it has a word when, besides, every field has room for it;
* `InstructionSet.hasRoom_iff_slotsFit`: in the sets in which no register field is narrower than a
  slot, and in no other ones, the two are the same for all instructions.
-/

namespace WordMachine

open Outcome

variable {op : Opcode} {k : Nat} {x : Operand} {v : Word}

/-! ## One field -/

namespace Field

variable {f : Field}

/-- Whether an operand is such as the field is written with: a register, or a number in its
range. -/
def Takes (f : Field) : Operand → Prop
  | .register _ => f.kind = .register
  | .immediate n => f.kind = .immediate ∧ f.min ≤ n ∧ n ≤ f.max

instance (f : Field) : (x : Operand) → Decidable (f.Takes x)
  | .register _ => inferInstanceAs (Decidable (_ = _))
  | .immediate _ => inferInstanceAs (Decidable (_ ∧ _))

/-- An operand that the field takes whatever its range. -/
def zero (f : Field) : Operand :=
  match f.kind with
  | .register => .register .r0
  | .immediate => .immediate 0

theorem exists_writeField_iff : (∃ v, InstructionSet.writeField op k f x = .ok v) ↔ f.Takes x := by
  cases x with
  | register r => cases hkind : f.kind <;> simp [InstructionSet.writeField, Takes, hkind]
  | immediate n =>
    cases hkind : f.kind with
    | register => simp [InstructionSet.writeField, Takes, hkind]
    | immediate =>
      by_cases hrange : n < f.min ∨ f.max < n
      · simp only [InstructionSet.writeField, Takes, hkind, if_pos hrange, reduceCtorEq,
          exists_false, true_and, false_iff]
        omega
      · simp only [InstructionSet.writeField, Takes, hkind, if_neg hrange, Except.ok.injEq,
          exists_eq', true_and, true_iff]
        omega

theorem takes_zero (f : Field) : f.Takes f.zero := by
  cases hkind : f.kind with
  | register => simp only [zero, hkind, Takes]
  | immediate =>
    have hall : (0 : ℤ) < 2 ^ f.width := by positivity
    have hhalf : (0 : ℤ) < 2 ^ (f.width - 1) := by positivity
    cases hsigned : f.signedness with
    | unsigned =>
      simp only [zero, hkind, Takes, min, max, hsigned, cast_shiftLeft, true_and]
      omega
    | signed =>
      simp only [zero, hkind, Takes, min, max, hsigned, cast_shiftLeft, true_and]
      omega

/-- The operand `x` for the field `g`, and one that it takes for every other field. -/
def pick (g : Field) (x : Operand) (f : Field) : Operand := if f = g then x else f.zero

theorem pick_self (g : Field) (x : Operand) : g.pick x g = x := if_pos rfl

theorem takes_pick {g : Field} (hx : g.Takes x) (f : Field) : f.Takes (g.pick x f) := by
  rw [pick]
  split
  · rename_i hf
    rwa [hf]
  · exact f.takes_zero

end Field

namespace InstructionSet

/-! ## One instruction -/

section Convert

variable {α β : Type} {c : Nat → Field → α → Except CodingError β}

theorem exists_forFields_iff {P : Field → α → Prop}
    (hc : ∀ k f x, (∃ y, c k f x = .ok y) ↔ P f x) :
    ∀ {fs : List Field} {xs : List α} {k : Nat},
      (∃ ys, forFields c k fs xs = .ok ys) ↔ ∀ p ∈ fs.zip xs, P p.1 p.2 := by
  intro fs
  induction fs with
  | nil => intro xs k; simp [forFields, pure_ok_iff]
  | cons f fs ih =>
    intro xs k
    cases xs with
    | nil => simp [forFields, pure_ok_iff]
    | cons x xs =>
      rw [List.zip_cons_cons, List.forall_mem_cons, ← hc k, ← ih (k := k + 1)]
      constructor
      · rintro ⟨ys, hys⟩
        obtain ⟨y, zs, hy, hzs, -⟩ := forFields_cons.1 hys
        exact ⟨⟨y, hy⟩, zs, hzs⟩
      · rintro ⟨⟨y, hy⟩, zs, hzs⟩
        exact ⟨_, forFields_cons.2 ⟨y, zs, hy, hzs, rfl⟩⟩

/-- What holds of each result when it does of what was converted holds of all of them when it does
of all of that. -/
theorem forall_forFields_iff {P : Field → β → Prop} {Q : Field → α → Prop} :
    ∀ {fs : List Field} {xs : List α} {ys : List β} {k : Nat}, forFields c k fs xs = .ok ys →
      (∀ f ∈ fs, ∀ j x y, c j f x = .ok y → (P f y ↔ Q f x)) →
        ((∀ p ∈ fs.zip ys, P p.1 p.2) ↔ ∀ p ∈ fs.zip xs, Q p.1 p.2) := by
  intro fs
  induction fs with
  | nil => intro xs ys k _ _; simp
  | cons f fs ih =>
    intro xs ys k h hiff
    cases xs with
    | nil =>
      cases h
      simp
    | cons x xs =>
      obtain ⟨y, zs, hy, hzs, rfl⟩ := forFields_cons.1 h
      obtain ⟨hf, hfs⟩ := List.forall_mem_cons.1 hiff
      rw [List.zip_cons_cons, List.zip_cons_cons, List.forall_mem_cons, List.forall_mem_cons,
        hf k x y hy, ih hzs hfs]

end Convert

variable {s : InstructionSet} {i : Instruction} {y : FieldValues} {fs : List Format}

theorem exists_toFields_iff :
    (∃ y, s.toFields i = .ok y) ↔ ∃ f, s.format? i.opcode = some f ∧
      i.operands.length = f.arity ∧ ∀ p ∈ f.fields.zip i.operands, p.1.Takes p.2 := by
  have hiff (f : Format) : (∃ vs, forFields (writeField i.opcode) 0 f.fields i.operands = .ok vs) ↔
      ∀ p ∈ f.fields.zip i.operands, p.1.Takes p.2 :=
    exists_forFields_iff (P := Field.Takes) fun _ _ _ => Field.exists_writeField_iff
  simp only [toFields_eq_ok, ← hiff]
  constructor
  · rintro ⟨y, f, hf, hlen, -, hvalues⟩
    exact ⟨f, hf, hlen, _, hvalues⟩
  · rintro ⟨f, hf, hlen, values, hvalues⟩
    exact ⟨⟨i.opcode, values⟩, f, hf, hlen, rfl, hvalues⟩

/-- Whether every field of an instruction has room for its operand. -/
def HasRoom (s : InstructionSet) (i : Instruction) : Prop :=
  ∀ f, s.format? i.opcode = some f → ∀ p ∈ f.fields.zip i.operands, p.1.HasRoom p.2

theorem valuesFit_iff_hasRoom (hs : s.Sound) (h : s.toFields i = .ok y) :
    s.ValuesFit y ↔ s.HasRoom i := by
  obtain ⟨f, hf, -, hop, hvalues⟩ := toFields_eq_ok.1 h
  have hword := (hs f (format?_eq_some hf).1).inWord
  have hiff := forall_forFields_iff hvalues fun g hg _ _ _ => fits_iff_hasRoom (hword g hg)
  simp only [ValuesFit, HasRoom, hop, hf, Option.some.injEq, forall_eq']
  exact hiff

theorem exists_pack_iff_valuesFit (h : s.toFields i = .ok y) :
    (∃ w, s.pack y = .ok w) ↔ s.ValuesFit y := by
  obtain ⟨f, hf, hlen, hop, hvalues⟩ := toFields_eq_ok.1 h
  rw [exists_pack_iff, ValuesFit, hop]
  simp only [hf, Option.some.injEq, forall_eq', exists_eq_left']
  exact and_iff_right (length_of_forFields hlen.symm hvalues)

theorem exists_encode_iff (hs : s.Sound) :
    (∃ w, s.encode i = .ok w) ↔ (∃ y, s.toFields i = .ok y) ∧ s.HasRoom i := by
  simp only [encode, bind_ok_iff]
  constructor
  · rintro ⟨w, y, hy, hw⟩
    exact ⟨⟨y, hy⟩, (valuesFit_iff_hasRoom hs hy).1 ((exists_pack_iff_valuesFit hy).1 ⟨w, hw⟩)⟩
  · rintro ⟨⟨y, hy⟩, hroom⟩
    obtain ⟨w, hw⟩ := (exists_pack_iff_valuesFit hy).2 ((valuesFit_iff_hasRoom hs hy).2 hroom)
    exact ⟨w, y, hy, hw⟩

/-! ## All instructions of a set -/

theorem hasRoom_iff_slotsFit (h : ofFormats fs = .ok s) :
    (∀ i y, s.toFields i = .ok y → s.HasRoom i) ↔ s.SlotsFit := by
  constructor
  · intro hall f hf g hg hkind
    refine Register.slots_lt_iff.1 fun r => ?_
    -- An instruction of the format that has the register in this field.
    have hzip : f.fields.zip (f.fields.map (g.pick (.register r))) =
        f.fields.map fun g' => (g', g.pick (.register r) g') := by
      conv_lhs => rw [← List.map_id f.fields, List.map_map]
      exact List.zip_map'
    have htakes : ∀ p ∈ f.fields.zip (f.fields.map (g.pick (.register r))), p.1.Takes p.2 := by
      rw [hzip, List.forall_mem_map]
      have hg : g.Takes (.register r) := hkind
      exact fun g' _ => Field.takes_pick hg g'
    have hformat := format?_of_ofFormats h hf
    obtain ⟨y, hy⟩ := (exists_toFields_iff (i := ⟨f.opcode, _⟩)).2
      ⟨f, hformat, List.length_map _, htakes⟩
    have hroom := hall _ y hy f hformat (g, g.pick (.register r) g) (by
      rw [hzip]
      exact List.mem_map.2 ⟨g, hg, rfl⟩)
    rwa [Field.pick_self] at hroom
  · rintro hfit i y hy f hf ⟨g, x⟩ hp
    obtain ⟨f', hf', -, htakes⟩ := exists_toFields_iff.1 ⟨y, hy⟩
    cases hf.symm.trans hf'
    cases x with
    | immediate n => trivial
    | register r =>
      have hkind : g.kind = .register := htakes _ hp
      have hroom := hfit f (format?_eq_some hf).1 g (List.of_mem_zip hp).1 hkind
      exact Register.slots_lt_iff.2 hroom r

/-- **Which instructions have a word.** In every admitted set, the values of an instruction that has
field values fit their fields exactly when its registers have room in theirs, and exactly then it
has a word. That this is so for every instruction with field values is the mark of the sets in which
no register field is narrower than a slot. -/
theorem encode_iff_toFields (h : ofFormats fs = .ok s) :
    (∀ i y, s.toFields i = .ok y → (s.ValuesFit y ↔ s.HasRoom i)) ∧
    (∀ i, (∃ w, s.encode i = .ok w) ↔ (∃ y, s.toFields i = .ok y) ∧ s.HasRoom i) ∧
    ((∀ i, (∃ w, s.encode i = .ok w) ↔ ∃ y, s.toFields i = .ok y) ↔ s.SlotsFit) := by
  have hs := sound_of_ofFormats h
  refine ⟨fun i y hy => valuesFit_iff_hasRoom hs hy, fun i => exists_encode_iff hs, ?_⟩
  rw [← hasRoom_iff_slotsFit h]
  simp only [exists_encode_iff hs, and_iff_left_iff_imp, forall_exists_index]

def narrowSlots : List Format := [⟨.push, [{ Field.source 5 with width := 3 }]⟩]

theorem encode_iff_toFields_narrowSlots :
    ofFormats narrowSlots = .ok ⟨narrowSlots⟩ ∧
      (∃ w, encode ⟨narrowSlots⟩ ⟨.push, [.register .r7]⟩ = .ok w) ∧
        ¬ SlotsFit ⟨narrowSlots⟩ := by
  have hset : ofFormats narrowSlots = .ok ⟨narrowSlots⟩ := rfl
  obtain ⟨-, hencode, hall⟩ := encode_iff_toFields hset
  refine ⟨hset, (hencode _).2 ⟨⟨_, rfl⟩, ?_⟩, fun hfit => ?_⟩
  · rintro _ ⟨⟩
    decide
  · obtain ⟨w, hw⟩ := (hall.2 hfit ⟨.push, [.register .r8]⟩).2 ⟨_, rfl⟩
    cases hw

/-- A register whose slot is too large for its field has a field value all the same, but no word. -/
theorem exists_toFields_without_word : ∃ (fs : List Format) (s : InstructionSet) (i : Instruction)
    (y : FieldValues), ofFormats fs = .ok s ∧ s.toFields i = .ok y ∧ ¬ s.ValuesFit y ∧
      ¬ ∃ w, s.encode i = .ok w := by
  refine ⟨narrowSlots, ⟨narrowSlots⟩, ⟨.push, [.register .sp]⟩, ⟨.push, [10]⟩, rfl, rfl, ?_, ?_⟩
  · intro hfit
    exact absurd (hfit _ rfl _ (List.mem_singleton.2 rfl)) (by decide)
  · rintro ⟨w, hw⟩
    cases hw

end InstructionSet
end WordMachine
