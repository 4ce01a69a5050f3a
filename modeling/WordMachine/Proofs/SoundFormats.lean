import WordMachine.Instruction.InstructionSet
import WordMachine.Proofs.Outcome

/-!
# WordMachine.Proofs.SoundFormats

What the checks of `InstructionSet.ofFormats` are good for. A sound format has its fields beside
one another between the opcode and the end of the word, and an admitted set has sound formats
only (`sound_of_ofFormats`). None of its formats begins with a hidden field
(`not_hidden_first_of_ofFormats`), as that would have nothing to repeat. Both are read off from what
all the checks together ask for (`Format.check_ok_iff`, `ofFormats_ok_iff`). The usual set is
admitted.
-/

namespace WordMachine

/-- A field that takes up bits of the word above the opcode. -/
structure Field.InWord (f : Field) : Prop where
  positive : 0 < f.width
  above : Opcode.bits ≤ f.position
  inside : f.stop ≤ 32

theorem Field.InWord.width_le {f : Field} (h : f.InWord) : f.width ≤ 32 :=
  Nat.le_trans (Nat.le_add_left _ _) h.inside

namespace Format

open Outcome

/-- A format whose fields lie beside one another above the opcode. -/
structure Sound (f : Format) : Prop where
  inWord : ∀ g ∈ f.fields, g.InWord
  apart : f.fields.Pairwise fun g h => ¬ g.Overlaps h

/-- Whether every hidden field can repeat the one before it; `previous` is the one before them
all. -/
def RepeatsFrom : Option Field → List Field → Prop
  | _, [] => True
  | previous, f :: fs => (f.hidden → CanRepeat previous f) ∧ RepeatsFrom (some f) fs

theorem checkField_ok_iff {op : Opcode} {earlier : List Field} {f : Field} :
    checkField op earlier f = .ok () ↔
      f.InWord ∧ (∀ g ∈ earlier, ¬ g.Overlaps f) ∧ (f.hidden → CanRepeat earlier.getLast? f) := by
  have hword : f.InWord ↔ ¬ f.width = 0 ∧ ¬ f.stop > 32 ∧ ¬ f.position < Opcode.bits :=
    ⟨fun ⟨hpos, habove, hin⟩ => ⟨by omega, by omega, by omega⟩,
      fun ⟨hpos, hin, habove⟩ => ⟨by omega, by omega, by omega⟩⟩
  have hfind : earlier.findIdx? (fun g => decide (f.Overlaps g)) = none ↔
      ∀ g ∈ earlier, ¬ g.Overlaps f := by
    simp [List.findIdx?_eq_none_iff, Field.Overlaps, and_comm]
  simp only [checkField, throw_bind, guard_ok_iff, hword, and_assoc, ← hfind]
  refine and_congr_right fun _ => and_congr_right fun _ => and_congr_right fun _ => ?_
  cases earlier.findIdx? (fun g => decide (f.Overlaps g)) with
  | none => simp [guard_ok_iff, pure_ok_iff]
  | some j => simp [throw_ok_iff]

theorem checkFields_ok_iff {op : Opcode} :
    ∀ {fs earlier : List Field}, checkFields op earlier fs = .ok () ↔
      (∀ f ∈ fs, f.InWord) ∧ fs.Pairwise (fun g h => ¬ g.Overlaps h) ∧
        (∀ g ∈ earlier, ∀ f ∈ fs, ¬ g.Overlaps f) ∧ RepeatsFrom earlier.getLast? fs := by
  intro fs
  induction fs with
  | nil => intro earlier; simp [checkFields, RepeatsFrom, pure_ok_iff]
  | cons f rest ih =>
    intro earlier
    simp only [checkFields, seq_ok_iff, ih, checkField_ok_iff, RepeatsFrom, List.pairwise_cons,
      List.forall_mem_cons, List.getLast?_concat, List.forall_mem_append, List.not_mem_nil]
    constructor
    · rintro ⟨⟨hword, hbefore, hrepeat⟩, hwords, hpair, ⟨hearlier, hafter, -⟩, hrepeats⟩
      exact ⟨⟨hword, hwords⟩, ⟨hafter, hpair⟩,
        fun g hg => ⟨hbefore g hg, hearlier g hg⟩, hrepeat, hrepeats⟩
    · rintro ⟨⟨hword, hwords⟩, ⟨hafter, hpair⟩, hearlier, hrepeat, hrepeats⟩
      exact ⟨⟨hword, fun g hg => (hearlier g hg).1, hrepeat⟩, hwords, hpair,
        ⟨fun g hg => (hearlier g hg).2, hafter, fun _ h => h.elim⟩, hrepeats⟩

theorem check_ok_iff {f : Format} :
    f.check = .ok () ↔
      Opcode.bits + f.operandBits ≤ 32 ∧ f.Sound ∧ RepeatsFrom none f.fields := by
  simp only [check, throw_bind, guard_ok_iff, checkFields_ok_iff, Nat.not_lt]
  constructor
  · rintro ⟨hbits, hwords, hpair, -, hrepeats⟩
    exact ⟨hbits, ⟨hwords, hpair⟩, hrepeats⟩
  · rintro ⟨hbits, ⟨hwords, hpair⟩, hrepeats⟩
    exact ⟨hbits, hwords, hpair, fun _ h => (List.not_mem_nil h).elim, hrepeats⟩

theorem sound_of_check {f : Format} (h : f.check = .ok ()) : f.Sound := (check_ok_iff.1 h).2.1

theorem not_hidden_first_of_check {f : Format} {field : Field} (h : f.check = .ok ())
    (hfield : f.fields[0]? = some field) : ¬ field.hidden := by
  obtain ⟨-, -, hrepeats⟩ := check_ok_iff.1 h
  cases hfields : f.fields with
  | nil =>
    rw [hfields] at hfield
    cases hfield
  | cons first rest =>
    rw [hfields] at hfield hrepeats
    cases hfield
    exact hrepeats.1

end Format

namespace InstructionSet

open Outcome

/-- A set of which every format is sound. -/
def Sound (s : InstructionSet) : Prop := ∀ f ∈ s.formats, f.Sound

theorem checkAll_ok_iff :
    ∀ {fs : List Format} {seen : List Opcode}, checkAll seen fs = .ok () ↔
      (∀ f ∈ fs, f.check = .ok ()) ∧ (fs.map (·.opcode)).Nodup ∧ ∀ f ∈ fs, f.opcode ∉ seen := by
  intro fs
  induction fs with
  | nil => intro seen; simp [checkAll, pure_ok_iff]
  | cons f rest ih =>
    intro seen
    rw [List.forall_mem_cons, List.forall_mem_cons]
    simp only [checkAll, seq_ok_iff, throw_bind, guard_ok_iff, ih, List.map_cons, List.nodup_cons,
      List.mem_map, List.mem_cons, not_or, not_exists, not_and]
    constructor
    · rintro ⟨hf, hseen, hrest, hnodup, hapart⟩
      exact ⟨⟨hf, hrest⟩, ⟨fun g hg => (hapart g hg).1, hnodup⟩, hseen, fun g hg => (hapart g hg).2⟩
    · rintro ⟨⟨hf, hrest⟩, ⟨hfirst, hnodup⟩, hseen, hapart⟩
      exact ⟨hf, hseen, hrest, hnodup, fun g hg => ⟨hfirst g hg, hapart g hg⟩⟩

theorem ofFormats_ok_iff {fs : List Format} {s : InstructionSet} :
    ofFormats fs = .ok s ↔
      (∀ f ∈ fs, f.check = .ok ()) ∧ (fs.map (·.opcode)).Nodup ∧ ⟨fs⟩ = s := by
  simp only [ofFormats, seq_ok_iff, checkAll_ok_iff, pure_ok_iff, List.not_mem_nil,
    not_false_eq_true, implies_true, and_true, and_assoc]

theorem check_of_ofFormats {fs : List Format} {s : InstructionSet} (h : ofFormats fs = .ok s) :
    ∀ f ∈ s.formats, f.check = .ok () := by
  obtain ⟨hall, -, rfl⟩ := ofFormats_ok_iff.1 h
  exact hall

theorem sound_of_ofFormats {fs : List Format} {s : InstructionSet} (h : ofFormats fs = .ok s) :
    s.Sound := fun f hf => Format.sound_of_check (check_of_ofFormats h f hf)

theorem not_hidden_first_of_ofFormats {fs : List Format} {s : InstructionSet} {op : Opcode}
    {f : Format} (h : ofFormats fs = .ok s) (hf : s.format? op = some f) :
    ∀ field, f.fields[0]? = some field → ¬ field.hidden := fun _ =>
  Format.not_hidden_first_of_check (check_of_ofFormats h f (List.mem_of_find?_eq_some hf))

theorem ofFormats_standard : ofFormats (Opcode.all.map Format.standard) = .ok standard := rfl

theorem sound_standard : standard.Sound := sound_of_ofFormats ofFormats_standard

/-- A set whose register fields have room for the slot of every register. -/
def SlotsFit (s : InstructionSet) : Prop :=
  ∀ f ∈ s.formats, ∀ g ∈ f.fields, g.kind = .register → Register.fieldBits ≤ g.width

theorem slotsFit_standard : standard.SlotsFit := by
  unfold SlotsFit
  decide

end InstructionSet
end WordMachine
