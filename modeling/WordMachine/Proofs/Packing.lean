import WordMachine.Instruction.Codec
import WordMachine.Proofs.FieldBits
import WordMachine.Proofs.SoundFormats

/-!
# WordMachine.Proofs.Packing

Between field values and words.

Packing lays the values over the ordinal of the opcode, one after the other (`layFields`). Since
the fields of a sound format lie apart, none of them disturbs another or the opcode, and reading
the fields gives the values back.

* `exists_pack_iff`: which field values have a word.
* `unpack_pack`: the word has these field values and no other.
* `exists_pack_of_unpack`: what was read from a word makes a word again, which has the bits of the
  first one wherever the format defines any and zeros elsewhere.
* `pack_exact`: all of this, for every set of formats that is admitted.
-/

namespace WordMachine

namespace Opcode

theorem ordinal_lt (op : Opcode) : op.ordinal < 2 ^ bits := by
  cases op <;> decide

@[simp] theorem ofOrdinal?_ordinal (op : Opcode) : ofOrdinal? op.ordinal = some op := by
  cases op <;> rfl

theorem ordinal_of_ofOrdinal? {n : Nat} {op : Opcode} (h : ofOrdinal? n = some op) :
    op.ordinal = n := by
  obtain ⟨hn, rfl⟩ := List.getElem?_eq_some_iff.1 h
  have key : ∀ k : Fin all.length, (all.get k).ordinal = k := by decide
  exact key ⟨n, hn⟩

theorem toNat_ordinal (op : Opcode) : (BitVec.ofNat 32 op.ordinal).toNat = op.ordinal := by
  cases op <;> decide

end Opcode

/-- Whether a bit of the word belongs to the opcode or to an operand field. -/
def Format.Defines (f : Format) (i : Nat) : Prop :=
  i < Opcode.bits ∨ ∃ g ∈ f.fields, g.position ≤ i ∧ i < g.stop

instance (f : Format) (i : Nat) : Decidable (f.Defines i) :=
  inferInstanceAs (Decidable (_ ∨ ∃ g ∈ f.fields, g.position ≤ i ∧ i < g.stop))

namespace InstructionSet

open Outcome

variable {s : InstructionSet} {x : FieldValues} {w : Word}

/-! ## Formats of opcodes -/

theorem format?_eq_some {op : Opcode} {f : Format} (h : s.format? op = some f) :
    f ∈ s.formats ∧ f.opcode = op :=
  ⟨List.mem_of_find?_eq_some h, by simpa using List.find?_some h⟩

theorem format_eq_ok {op : Opcode} {f : Format} :
    s.format op = .ok f ↔ s.format? op = some f := by
  cases h : s.format? op <;> simp [format, h]

theorem formatFor_eq_ok {op : Opcode} {n : Nat} {f : Format} :
    s.formatFor op n = .ok f ↔ s.format? op = some f ∧ n = f.arity := by
  simp only [formatFor, bind_ok_iff, format_eq_ok]
  constructor
  · rintro ⟨g, hg, h⟩
    split at h <;> simp only [pure_ok_iff, throw_ok_iff] at h
    rename_i hn
    subst h
    exact ⟨hg, hn.symm⟩
  · rintro ⟨hf, hn⟩
    exact ⟨f, hf, by simp [hn, pure_ok_iff]⟩

/-! ## Laying values into fields -/

/-- The word with values laid into fields, as far as there are both. -/
def layFields : Word → List Field → List Word → Word
  | w, f :: fs, v :: vs => layFields (w ||| v <<< f.position) fs vs
  | w, _, _ => w

theorem packFields_eq_ok {op : Opcode} :
    ∀ {fs : List Field} {vs : List Word} {w w' : Word} {k : Nat},
      packFields op w k fs vs = .ok w' ↔
        (∀ p ∈ fs.zip vs, p.1.Fits p.2) ∧ layFields w fs vs = w' := by
  intro fs
  induction fs with
  | nil => intro vs w w' k; simp [packFields, layFields]
  | cons f fs ih =>
    intro vs w w' k
    cases vs with
    | nil => simp [packFields, layFields]
    | cons v vs =>
      simp only [packFields, layFields, List.zip_cons_cons, List.forall_mem_cons]
      split
      · rename_i hv
        rw [ih]
        simp [hv]
      · rename_i hv
        simp [hv]

/-- A field does not notice values laid into fields apart from it. -/
theorem extract_layFields {f : Field} :
    ∀ {fs : List Field} {vs : List Word} {w : Word}, (∀ p ∈ fs.zip vs, p.1.Fits p.2) →
      (∀ g ∈ fs, ¬ f.Overlaps g) → f.extract (layFields w fs vs) = f.extract w := by
  intro fs
  induction fs with
  | nil => intro vs w _ _; simp [layFields]
  | cons g fs ih =>
    intro vs w hfit hapart
    cases vs with
    | nil => simp [layFields]
    | cons v vs =>
      simp only [List.zip_cons_cons, List.forall_mem_cons] at hfit
      rw [List.forall_mem_cons] at hapart
      rw [layFields, ih hfit.2 hapart.2, Field.extract_or,
        Field.extract_shift_of_apart hfit.1 hapart.1]
      simp

/-- Fields that lie apart give back the values laid into them. -/
theorem map_extract_layFields :
    ∀ {fs : List Field} {vs : List Word} {w : Word}, fs.length = vs.length →
      (∀ p ∈ fs.zip vs, p.1.Fits p.2) → (∀ f ∈ fs, f.InWord) →
      fs.Pairwise (fun f g => ¬ f.Overlaps g) → (∀ f ∈ fs, f.extract w = 0) →
      fs.map (·.extract (layFields w fs vs)) = vs := by
  intro fs
  induction fs with
  | nil => intro vs w hlen _ _ _ _; simpa using hlen.symm
  | cons f fs ih =>
    intro vs w hlen hfit hword hapart hclear
    cases vs with
    | nil => simp at hlen
    | cons v vs =>
      simp only [List.zip_cons_cons, List.forall_mem_cons] at hfit hword hclear
      obtain ⟨hf, hrest⟩ := List.pairwise_cons.1 hapart
      have hhead : f.extract (layFields (w ||| v <<< f.position) fs vs) = v := by
        rw [extract_layFields hfit.2 hf, Field.extract_or, hclear.1,
          Field.extract_shift_self hfit.1 hword.1.inside]
        simp
      have hclear' : ∀ g ∈ fs, g.extract (w ||| v <<< f.position) = 0 := by
        intro g hg
        rw [Field.extract_or, hclear.2 g hg,
          Field.extract_shift_of_apart hfit.1 fun ho => hf g hg ⟨ho.2, ho.1⟩]
        simp
      rw [layFields, List.map_cons, hhead,
        ih (by simpa using hlen) hfit.2 hword.2 hrest hclear']

/-! ## The opcode under the fields -/

theorem getLsbD_opcodeMask (i : Nat) : opcodeMask.getLsbD i = decide (i < Opcode.bits) := by
  rw [opcodeMask, Word.getLsbD_ones]
  by_cases h : i < Opcode.bits
  · have h32 : i < 32 := Nat.lt_trans h (by decide)
    simp [h, h32]
  · simp [h]

theorem layFields_and_opcodeMask :
    ∀ {fs : List Field} {vs : List Word} {w : Word}, (∀ f ∈ fs, f.InWord) →
      layFields w fs vs &&& opcodeMask = w &&& opcodeMask := by
  intro fs
  induction fs with
  | nil => intro vs w _; simp [layFields]
  | cons f fs ih =>
    intro vs w hword
    cases vs with
    | nil => simp [layFields]
    | cons v vs =>
      rw [List.forall_mem_cons] at hword
      rw [layFields, ih hword.2]
      apply BitVec.eq_of_getLsbD_eq
      intro i _
      simp only [BitVec.getLsbD_and, BitVec.getLsbD_or, BitVec.getLsbD_shiftLeft,
        getLsbD_opcodeMask]
      have habove := hword.1.above
      by_cases h : i < Opcode.bits
      · have hlow : i < f.position := by omega
        simp [hlow]
      · simp [h]

theorem ordinal_and_opcodeMask (op : Opcode) :
    BitVec.ofNat 32 op.ordinal &&& opcodeMask = BitVec.ofNat 32 op.ordinal := by
  cases op <;> decide

theorem extract_ordinal {f : Field} (h : f.InWord) (op : Opcode) :
    f.extract (BitVec.ofNat 32 op.ordinal) = 0 := by
  apply BitVec.eq_of_getLsbD_eq
  intro i _
  have hlt : op.ordinal < 2 ^ (f.position + i) := Nat.lt_of_lt_of_le op.ordinal_lt
    (Nat.pow_le_pow_right (by decide) (Nat.le_add_right_of_le h.above))
  rw [Field.getLsbD_extract, BitVec.getLsbD_ofNat, Nat.testBit_lt_two_pow hlt]
  simp

/-! ## Field values to words -/

theorem pack_eq_ok :
    s.pack x = .ok w ↔ ∃ f, s.format? x.opcode = some f ∧ x.values.length = f.arity ∧
      (∀ p ∈ f.fields.zip x.values, p.1.Fits p.2) ∧
      layFields (BitVec.ofNat 32 x.opcode.ordinal) f.fields x.values = w := by
  simp only [pack, bind_ok_iff, formatFor_eq_ok, packFields_eq_ok, and_assoc]

theorem exists_pack_iff :
    (∃ w, s.pack x = .ok w) ↔ ∃ f, s.format? x.opcode = some f ∧ x.values.length = f.arity ∧
      ∀ p ∈ f.fields.zip x.values, p.1.Fits p.2 := by
  simp only [pack_eq_ok]
  constructor
  · rintro ⟨w, f, hf, hlen, hfit, -⟩
    exact ⟨f, hf, hlen, hfit⟩
  · rintro ⟨f, hf, hlen, hfit⟩
    exact ⟨_, f, hf, hlen, hfit, rfl⟩

theorem unpack_eq_ok :
    s.unpack w = .ok x ↔ ∃ f, s.format? x.opcode = some f ∧
      w &&& opcodeMask = BitVec.ofNat 32 x.opcode.ordinal ∧
      x.values = f.fields.map (·.extract w) := by
  simp only [unpack]
  constructor
  · intro h
    split at h <;> cases h
    rename_i f hf
    obtain ⟨op, hop, hf⟩ := Option.bind_eq_some_iff.1 hf
    obtain ⟨-, rfl⟩ := format?_eq_some hf
    refine ⟨f, hf, ?_, rfl⟩
    rw [Opcode.ordinal_of_ofOrdinal? hop]
    simp
  · rintro ⟨f, hf, hop, hv⟩
    obtain ⟨-, ho⟩ := format?_eq_some hf
    rw [hop, Opcode.toNat_ordinal, Opcode.ofOrdinal?_ordinal, Option.bind_some, hf]
    simp only [← hv, ho]

theorem unpack_pack (hs : s.Sound) (h : s.pack x = .ok w) : s.unpack w = .ok x := by
  obtain ⟨f, hf, hlen, hfit, rfl⟩ := pack_eq_ok.1 h
  obtain ⟨hword, hapart⟩ := hs f (format?_eq_some hf).1
  refine unpack_eq_ok.2 ⟨f, hf, ?_, ?_⟩
  · rw [layFields_and_opcodeMask hword, ordinal_and_opcodeMask]
  · exact (map_extract_layFields hlen.symm hfit hword hapart fun g hg =>
      extract_ordinal (hword g hg) _).symm

/-! ## Words to field values and back -/

/-- Laid back where it was read from, a value restores the bits of its field. -/
theorem getLsbD_shift_extract {f : Field} (h : f.InWord) (w : Word) (i : Nat) :
    (f.extract w <<< f.position).getLsbD i =
      (w.getLsbD i && decide (f.position ≤ i ∧ i < f.stop)) := by
  have hstop := h.inside
  unfold Field.stop at hstop ⊢
  rw [BitVec.getLsbD_shiftLeft, Field.getLsbD_extract]
  by_cases hi : f.position ≤ i ∧ i < f.position + f.width
  · have h32 : i < 32 := by omega
    have hin : i - f.position < f.width := by omega
    have hat : f.position + (i - f.position) = i := by omega
    rw [hat]
    simp [hi, h32, hin, Nat.not_lt.2 hi.1]
  · rw [decide_eq_false hi, Bool.and_false]
    by_cases hlow : i < f.position
    · simp [hlow]
    · have hout : ¬ i - f.position < f.width := by omega
      simp [hout]

theorem getLsbD_layFields_extract {w : Word} {i : Nat} :
    ∀ {fs : List Field} {u : Word}, (∀ f ∈ fs, f.InWord) →
      (layFields u fs (fs.map (·.extract w))).getLsbD i =
        (u.getLsbD i || (w.getLsbD i && decide (∃ f ∈ fs, f.position ≤ i ∧ i < f.stop))) := by
  intro fs
  induction fs with
  | nil => intro u _; simp [layFields]
  | cons f fs ih =>
    intro u hword
    rw [List.forall_mem_cons] at hword
    rw [List.map_cons, layFields, ih hword.2, BitVec.getLsbD_or, getLsbD_shift_extract hword.1]
    cases w.getLsbD i <;> simp [Bool.or_assoc]

theorem fits_of_mem_zip_extract {w : Word} :
    ∀ {fs : List Field}, ∀ p ∈ fs.zip (fs.map (·.extract w)), p.1.Fits p.2 := by
  intro fs
  induction fs with
  | nil => simp
  | cons f fs ih =>
    rw [List.map_cons, List.zip_cons_cons, List.forall_mem_cons]
    exact ⟨Field.fits_extract f w, ih⟩

theorem exists_pack_of_unpack (hs : s.Sound) (h : s.unpack w = .ok x) :
    ∃ f w', s.format? x.opcode = some f ∧ s.pack x = .ok w' ∧
      ∀ i, w'.getLsbD i = (w.getLsbD i && decide (f.Defines i)) := by
  obtain ⟨f, hf, hop, hv⟩ := unpack_eq_ok.1 h
  have hword := (hs f (format?_eq_some hf).1).inWord
  refine ⟨f, _, hf, pack_eq_ok.2 ⟨f, hf, by simp [hv, Format.arity], ?_, rfl⟩, fun i => ?_⟩
  · rw [hv]
    exact fits_of_mem_zip_extract
  · rw [hv, getLsbD_layFields_extract hword, ← hop, BitVec.getLsbD_and, getLsbD_opcodeMask]
    by_cases ho : i < Opcode.bits <;> cases w.getLsbD i <;> simp [Format.Defines, ho]

/-- **Packing is exact.** In every admitted set, field values have a word exactly when their opcode
has a format with one field for each of them and each value fits its field, and the word has those
field values. What a word unpacks to packs to the same word with every bit cleared that belongs
neither to the opcode nor to a field. -/
theorem pack_exact {fs : List Format} {s : InstructionSet} (h : ofFormats fs = .ok s) :
    (∀ x : FieldValues,
      ((∃ w, s.pack x = .ok w) ↔ ∃ f, s.format? x.opcode = some f ∧ x.values.length = f.arity ∧
        ∀ p ∈ f.fields.zip x.values, p.1.Fits p.2) ∧
      ∀ w, s.pack x = .ok w → s.unpack w = .ok x) ∧
    ∀ (w : Word) (x : FieldValues), s.unpack w = .ok x →
      ∃ f w', s.format? x.opcode = some f ∧ s.pack x = .ok w' ∧
        ∀ i, w'.getLsbD i = (w.getLsbD i && decide (f.Defines i)) :=
  ⟨fun _ => ⟨exists_pack_iff, fun _ => unpack_pack (sound_of_ofFormats h)⟩,
    fun _ _ => exists_pack_of_unpack (sound_of_ofFormats h)⟩

/-- Formats with gaps between fields that are not in the order of their positions. -/
def scattered : List Format := [⟨.add, [.unsigned 29 3, .source 5, .signed 11 13]⟩]

theorem pack_exact_scattered :
    ofFormats scattered = .ok ⟨scattered⟩ ∧
      InstructionSet.unpack ⟨scattered⟩ 0xFFFFFFE5 = .ok ⟨.add, [7, 15, 0x1FFF]⟩ ∧
      (∃ w, InstructionSet.pack ⟨scattered⟩ ⟨.add, [7, 15, 0x1FFF]⟩ = .ok w) ∧
      ¬ (∃ w, InstructionSet.pack ⟨scattered⟩ ⟨.add, [8, 15, 0x1FFF]⟩ = .ok w) ∧
      ∃ f w', InstructionSet.format? ⟨scattered⟩ .add = some f ∧
        InstructionSet.pack ⟨scattered⟩ ⟨.add, [7, 15, 0x1FFF]⟩ = .ok w' ∧
        ∀ i, w'.getLsbD i = ((0xFFFFFFE5 : Word).getLsbD i && decide (f.Defines i)) := by
  have hset : ofFormats scattered = .ok ⟨scattered⟩ := rfl
  have hunpack : InstructionSet.unpack ⟨scattered⟩ 0xFFFFFFE5 = .ok ⟨.add, [7, 15, 0x1FFF]⟩ := rfl
  obtain ⟨hpack, hback⟩ := pack_exact hset
  refine ⟨hset, hunpack, ?_, ?_, hback _ _ hunpack⟩
  · refine (hpack _).1.2 ⟨_, rfl, rfl, ?_⟩
    decide
  · rw [(hpack _).1]
    rintro ⟨f, hf, -, hfit⟩
    cases hf
    revert hfit
    decide

end InstructionSet
end WordMachine
