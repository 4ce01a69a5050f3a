import WordMachine.Proofs.Linking
import WordMachine.Proofs.Meaning

/-!
# WordMachine.Proofs.SettledCode

What linking leaves of a code entry. `Program.Settles` lists the ways in which an entry comes by
its three forms, and `Program.link_agrees_iff` says for which entries of a linked program the three
forms agree.

Text and instructions are checked against the widths of the fields on their way to field values.
Field values are not: read, they mean something even where a value does not fit its field.
-/

namespace WordMachine

open Outcome InstructionSet

namespace CodeEntry

/-- The three forms are there, the field values have a word, the word holds the instruction, and
the instruction is written as the field values. -/
def Agrees (s : InstructionSet) (e : CodeEntry) : Prop :=
  ∃ line x i w, e.text = some line ∧ e.fields = some x ∧ e.instruction = some i ∧
    s.pack x = .ok w ∧ s.decode w = .ok i ∧ s.toFields i = .ok x

/-- An entry with text, or with an instruction, or with no field value too great for its field. -/
def InWidths (s : InstructionSet) (e : CodeEntry) : Prop :=
  e.text.isSome ∨ e.instruction.isSome ∨
    ∀ x, e.fields = some x → ∀ f, s.format? x.opcode = some f →
      ∀ p ∈ f.fields.zip x.values, p.1.Fits p.2

end CodeEntry

namespace Program

variable {s : InstructionSet} {p q : Program} {e e' : CodeEntry} {rules : PlacementRules}

/-! ## One entry -/

/-- How an entry comes by its three forms, one way for each form that can decide. -/
inductive Settles (s : InstructionSet) (p : Program) (e : CodeEntry) : CodeEntry → Prop where
  | ofText {line i uses x} (ht : e.text = some line)
      (ha : p.assemble s e.references line = .ok (i, uses)) (hx : s.toFields i = .ok x) :
      Settles s p e { e with
        fields := some x, instruction := some i, references := noteUses e.references uses }
  | ofInstruction {line i x} (ht : e.text = none) (hi : e.instruction = some i)
      (hx : s.toFields i = .ok x) (htied : checkTied s i = .ok ())
      (hl : p.print s e.references i = .ok line) :
      Settles s p e { e with text := some line, fields := some x }
  | ofFields {line i x} (ht : e.text = none) (hi : e.instruction = none) (hf : e.fields = some x)
      (hx : s.ofFields x = .ok i) (htied : checkTied s i = .ok ())
      (hl : p.print s e.references i = .ok line) :
      Settles s p e { e with text := some line, instruction := some i }

theorem settles_of_settleEntry (h : p.settleEntry s e = .ok e') : Settles s p e e' := by
  simp only [settleEntry] at h
  split at h
  · simp only [throw_bind, throw_ok_iff] at h
  · split at h
    · rename_i line ht
      simp only [bind_ok_iff, pure_ok_iff, mapError_ok_iff] at h
      obtain ⟨⟨i, uses⟩, ha, x, hx, rfl⟩ := h
      exact .ofText ht ha hx
    · rename_i i ht hi
      simp only [bind_ok_iff, pure_ok_iff, mapError_ok_iff] at h
      obtain ⟨x, hx, _, htied, line, hl, rfl⟩ := h
      exact .ofInstruction ht hi hx htied hl
    · rename_i x ht hi hf
      simp only [bind_ok_iff, pure_ok_iff, mapError_ok_iff] at h
      obtain ⟨i, hx, _, htied, line, hl, rfl⟩ := h
      exact .ofFields ht hi hf hx htied hl
    · simp only [throw_ok_iff] at h

theorem isComplete_of_settles (h : Settles s p e e') : e'.isComplete := by
  cases h with
  | ofText ht _ _ => simp [CodeEntry.isComplete, ht]
  | ofInstruction _ hi _ _ _ => simp [CodeEntry.isComplete, hi]
  | ofFields _ _ hf _ _ _ => simp [CodeEntry.isComplete, hf]

theorem address_of_settles (h : Settles s p e e') : e'.address = e.address := by
  cases h <;> rfl

/-- Settled by text or by an instruction, the forms agree. -/
theorem agrees_of_toFields (hs : s.Sound) (hr : s.SlotsFit) {line : String} {i : Instruction}
    {x : FieldValues} (ht : e'.text = some line) (hi : e'.instruction = some i)
    (hf : e'.fields = some x) (hx : s.toFields i = .ok x) : e'.Agrees s := by
  obtain ⟨w, hw, hdec⟩ := decode_of_toFields hs hr hx
  exact ⟨line, x, i, w, ht, hf, hi, hw, hdec, hx⟩

/-- Settled by its field values, the forms agree when the values have a word. -/
theorem agrees_of_ofFields (hs : s.Sound) {line : String} {i : Instruction}
    {x : FieldValues} (ht : e'.text = some line) (hi : e'.instruction = some i)
    (hf : e'.fields = some x) (hx : s.ofFields x = .ok i) :
    e'.Agrees s ↔ ∃ w, s.pack x = .ok w := by
  constructor
  · rintro ⟨_, y, _, w, _, hy, _, hw, _⟩
    rw [hf] at hy
    cases hy
    exact ⟨w, hw⟩
  · rintro ⟨w, hw⟩
    have hdec : s.decode w = .ok i := (decode_of_pack hs hw).trans hx
    exact ⟨line, x, i, w, ht, hf, hi, hw, hdec, toFields_of_ofFields hs ⟨w, hw⟩ hx⟩

theorem agrees_iff_of_settles (hs : s.Sound) (hr : s.SlotsFit) (h : Settles s p e e') :
    e'.Agrees s ↔ e.InWidths s := by
  cases h with
  | ofText ht _ hx =>
    exact iff_of_true (agrees_of_toFields hs hr ht rfl rfl hx) (.inl (by rw [ht]; rfl))
  | ofInstruction _ hi hx _ _ =>
    exact iff_of_true (agrees_of_toFields hs hr rfl hi rfl hx) (.inr (.inl (by rw [hi]; rfl)))
  | @ofFields line i x ht hi hf hx _ _ =>
    refine Iff.trans (agrees_of_ofFields hs rfl rfl hf hx) ?_
    rw [exists_pack_iff]
    obtain ⟨f, hformat, hlen, -, -⟩ := ofFields_eq_ok.1 hx
    constructor
    · rintro ⟨g, hg, -, hfit⟩
      refine .inr (.inr fun y hy g' hg' => ?_)
      rw [hf] at hy
      cases hy
      cases hg.symm.trans hg'
      exact hfit
    · rintro (habs | habs | hfit)
      · simp [ht] at habs
      · simp [hi] at habs
      · exact ⟨f, hformat, hlen, hfit x hf f hformat⟩

/-! ## The whole code -/

/-- Every entry of a linked program was settled from one of the program, at its place. -/
theorem settles_of_link (h : p.link s rules = .ok q) :
    q.code.length = p.code.length ∧ ∃ map, ∀ (k : Nat) e e', p.code[k]? = some e →
      q.code[k]? = some e' →
        Settles s (p.bindReferences.placeAt map) (p.placedEntry map k e) e' := by
  obtain ⟨hlen, map, -, hall⟩ := exists_of_link h
  exact ⟨hlen, map, fun k e e' he he' => settles_of_settleEntry (hall k e e' he he')⟩

/-- Placing an entry touches none of its forms. -/
theorem inWidths_placedEntry {map : MemoryMap} {k : Nat} :
    (p.placedEntry map k e).InWidths s ↔ e.InWidths s := Iff.rfl

theorem agrees_of_link (h : p.link .standard rules = .ok q)
    (hforms : ∀ e ∈ p.code, e.text.isSome ∨ e.instruction.isSome) :
    ∀ e ∈ q.code, e.Agrees .standard := by
  obtain ⟨hlen, map, hall⟩ := settles_of_link h
  intro e' he'
  obtain ⟨k, hk⟩ := List.getElem?_of_mem he'
  obtain ⟨hlt, -⟩ := List.getElem?_eq_some_iff.1 hk
  rw [hlen] at hlt
  have hsettles := hall k _ e' (List.getElem?_eq_getElem hlt) hk
  rw [agrees_iff_of_settles sound_standard slotsFit_standard hsettles, inWidths_placedEntry]
  rcases hforms _ (List.getElem_mem hlt) with htext | hinstruction
  · exact .inl htext
  · exact .inr (.inl hinstruction)

/-- **Whose forms agree.** Linking over the standard set gives every entry all three forms. They
agree for exactly the entries that had text, or an instruction, or only field values that fit. -/
theorem link_agrees_iff (h : p.link .standard rules = .ok q) :
    q.code.length = p.code.length ∧ ∀ (k : Nat) e e', p.code[k]? = some e →
      q.code[k]? = some e' → e'.isComplete ∧ (e'.Agrees .standard ↔ e.InWidths .standard) := by
  obtain ⟨hlen, map, hall⟩ := settles_of_link h
  refine ⟨hlen, fun k e e' he he' => ?_⟩
  have hsettles := hall k e e' he he'
  refine ⟨isComplete_of_settles hsettles, ?_⟩
  rw [agrees_iff_of_settles sound_standard slotsFit_standard hsettles, inWidths_placedEntry]

/-- One entry for each form that can decide; the value in the last one takes seventeen bits. -/
def mixed : Program where
  fileName := "unit.o"
  code := [
    { text := some "movimm16l #0xFFFF, r3" },
    { instruction := some ⟨.movImm16L, [.immediate 0xFFFF, .register .r3]⟩ },
    { fields := some ⟨.movImm16L, [0x10000, 3]⟩ }]

theorem link_agrees_iff_mixed : ∃ q e₀ e₁ e₂, mixed.link .standard {} = .ok q ∧
    q.code = [e₀, e₁, e₂] ∧ e₀.Agrees .standard ∧ e₁.Agrees .standard ∧
      ¬ e₂.Agrees .standard := by
  have hlink : ∃ q e₀ e₁ e₂, mixed.link .standard {} = .ok q ∧ q.code = [e₀, e₁, e₂] :=
    ⟨_, _, _, _, rfl, rfl⟩
  obtain ⟨q, e₀, e₁, e₂, hq, hcode⟩ := hlink
  obtain ⟨-, hall⟩ := link_agrees_iff hq
  rw [hcode] at hall
  refine ⟨q, e₀, e₁, e₂, hq, hcode, ?_, ?_, ?_⟩
  · exact (hall 0 _ _ rfl rfl).2.2 (.inl rfl)
  · exact (hall 1 _ _ rfl rfl).2.2 (.inr (.inl rfl))
  · rw [(hall 2 _ _ rfl rfl).2]
    rintro (habs | habs | hfit)
    · cases habs
    · cases habs
    · have hwide := hfit _ rfl _ rfl
      revert hwide
      decide

/-- Field values alone, one of them too great for its field. -/
def overwide : Program where
  fileName := "unit.o"
  code := [{ fields := some ⟨.movImm16L, [0x10000, 0]⟩ }]

/-- Linking does not refuse values that are too great, so the forms need not agree. -/
theorem exists_link_not_agrees :
    ¬ ∀ (p q : Program) (rules : PlacementRules), p.link .standard rules = .ok q →
      ∀ e ∈ q.code, e.Agrees .standard := by
  intro hclaim
  have hlink : ∃ q e, overwide.link .standard {} = .ok q ∧ q.code = [e] ∧
      e.fields = some ⟨.movImm16L, [0x10000, 0]⟩ := ⟨_, _, rfl, rfl, rfl⟩
  obtain ⟨q, e, hq, hcode, hfields⟩ := hlink
  obtain ⟨_, x, _, w, _, hx, _, hw, _⟩ := hclaim overwide q {} hq e (by simp [hcode])
  rw [hfields] at hx
  cases hx
  cases hw

end Program
end WordMachine
