import WordMachine.Machine.Listing
import WordMachine.Proofs.AddressLookup
import WordMachine.Proofs.PrintedText

/-!
# WordMachine.Proofs.FaithfulListing

A listing says what is in memory. Its rows lie one after the other, as far as memory can be read
(`Listing.getElem?_rowsFrom`, `Listing.unreadable_of_rowsFrom`), and each is faithful to its word
(`Listing.Row.Faithful`): it is marked exactly if the word is no instruction, and otherwise its text
reads as the instruction in the word.

A word may be shown in two ways, with the names of the entry at its address or with numbers only.
Both show what the word decodes to, under names that read as the numbers (`Listing.of_shown?`),
whether or not the word is the one that was linked.

All this is so as long as there is room for the rows that are asked for; where there is none, nothing
is listed (`Listing.rows_faithful`).
-/

namespace WordMachine

open Outcome InstructionSet

namespace Program

variable {s : InstructionSet} {p q : Program} {rules : PlacementRules} {e : CodeEntry} {a : Word}

/-! ## Entries by their address -/

/-- The references of the code entry at an address; there are none where no entry is. -/
def referencesAt (p : Program) (a : Word) : List Reference :=
  ((p.code.find? (·.address = some a)).map CodeEntry.references).getD []

theorem of_entryAt? (h : p.entryAt? a = some e) : e ∈ p.code ∧ e.address = some a := by
  rw [entryAt?, Option.bind_eq_bind, Option.bind_eq_some_iff] at h
  obtain ⟨i, hi, he⟩ := h
  have haddress := entryAddress?_of_indexAt? hi
  rw [entryAddress?, he, Option.bind_some] at haddress
  exact ⟨List.mem_of_getElem? he, haddress⟩

theorem referencesAt_of_mem (h : p.link s rules = .ok q) (he : e ∈ q.code)
    (ha : e.address = some a) : q.referencesAt a = e.references := by
  have hsome : (q.code.find? (·.address = some a)).isSome :=
    List.find?_isSome.2 ⟨e, he, by simp [ha]⟩
  obtain ⟨e', he'⟩ := Option.isSome_iff_exists.1 hsome
  have ha' : e'.address = some a := by simpa using List.find?_some he'
  have heq := eq_of_address h (List.mem_of_find?_eq_some he') he (ha'.trans ha.symm)
  rw [referencesAt, he', heq]
  rfl

end Program

namespace Listing

open Assembly

variable {s : InstructionSet} {p q : Program} {rules : PlacementRules} {m : Memory}
  {a word : Word} {i : Instruction} {names : Names} {f : Format} {r : Row} {count k : Nat}

/-! ## Rows -/

theorem row_eq : row s p a word = illegalRow a word ∨
    ∃ f i names, row s p a word = legalRow a word f i names := by
  rw [row]
  split
  · exact .inl rfl
  · split
    · exact .inl rfl
    · exact .inr ⟨_, _, _, rfl⟩

@[simp] theorem address_row : (row s p a word).address = a := by
  rcases row_eq with h | ⟨f, i, names, h⟩ <;> rw [h] <;> rfl

@[simp] theorem word_row : (row s p a word).word = word := by
  rcases row_eq with h | ⟨f, i, names, h⟩ <;> rw [h] <;> rfl

theorem length_rowsFrom_le : ∀ {count : Nat} {a : Word}, (rowsFrom s p m count a).length ≤ count := by
  intro count
  induction count with
  | zero => intro a; exact Nat.le_refl 0
  | succ count ih =>
    intro a
    rw [rowsFrom]
    split
    · exact Nat.zero_le _
    · split
      · exact Nat.succ_le_succ ih
      · exact Nat.succ_le_succ (Nat.zero_le _)

theorem toNat_next (h : a.toNat + Word.size < 0x100000000) : (a + 4).toNat = a.toNat + 4 := by
  rw [Word.size] at h
  rw [BitVec.toNat_add]
  exact Nat.mod_eq_of_lt h

/-- The rows lie a word apart, and each is that of the word at its address. -/
theorem getElem?_rowsFrom :
    ∀ {count : Nat} {a : Word} {k : Nat}, (rowsFrom s p m count a)[k]? = some r →
      r.address.toNat = a.toNat + 4 * k ∧ m.readWord r.address = .ok r.word ∧
        r = row s p r.address r.word := by
  intro count
  induction count with
  | zero => intro a k h; cases h
  | succ count ih =>
    intro a k h
    rw [rowsFrom] at h
    split at h
    · cases h
    · rename_i word hread
      cases k with
      | zero =>
        have hr : row s p a word = r := by split at h <;> exact Option.some.inj h
        subst hr
        rw [address_row, word_row]
        exact ⟨by omega, hread, rfl⟩
      | succ k =>
        split at h
        · rename_i hnext
          obtain ⟨haddress, hrow⟩ := ih h
          rw [toNat_next hnext] at haddress
          exact ⟨by omega, hrow⟩
        · cases h

/-- Fewer rows than were asked for end where the next word cannot be read, if there is an address
for it at all. -/
theorem unreadable_of_rowsFrom :
    ∀ {count : Nat} {a b : Word}, (rowsFrom s p m count a).length < count →
      b.toNat = a.toNat + 4 * (rowsFrom s p m count a).length → ∃ t, m.readWord b = .error t := by
  intro count
  induction count with
  | zero => intro a b h; exact absurd h (Nat.not_lt_zero _)
  | succ count ih =>
    intro a b h hb
    rw [rowsFrom] at h hb
    split at h
    · rename_i t hread
      simp only [hread, List.length_nil] at hb
      have hsame : b = a := BitVec.eq_of_toNat_eq (by omega)
      exact ⟨t, by rw [hsame, hread]⟩
    · rename_i word hread
      simp only [hread] at hb
      split at h
      · rename_i hnext
        have htoNat := toNat_next hnext
        rw [if_pos hnext, List.length_cons] at hb
        rw [List.length_cons] at h
        exact ih (a := a + 4) (by omega) (by omega)
      · rename_i hlast
        rw [if_neg hlast, List.length_singleton] at hb
        have hbound := b.isLt
        rw [Word.size] at hlast
        omega

/-! ## What a row shows -/

theorem of_linked? (h : linked? s p a word = some (i, names)) :
    ∃ e ∈ p.code, e.address = some a ∧ e.instruction = some i ∧ s.encode i = .ok word ∧
      p.referenceNames e.references = names := by
  simp only [linked?, Option.bind_eq_bind, Option.bind_eq_some_iff] at h
  obtain ⟨e, he, i', hi', h⟩ := h
  obtain ⟨hmem, haddress⟩ := Program.of_entryAt? he
  split at h
  · rename_i hencode
    cases h
    exact ⟨e, hmem, haddress, hi', toOption_eq_some_iff.1 hencode, rfl⟩
  · cases h

/-- What is shown of a word is what it decodes to, under names that read as its numbers. -/
theorem of_shown? (h : p.link .standard rules = .ok q)
    (hnames : ∀ e ∈ q.code, ∀ r ∈ e.references, isName r.name = true)
    (hshown : shown? .standard q a word = some (i, names)) :
    (∃ o, standard.operation word = .ok (i, o)) ∧ q.Reads (q.referencesAt a) names := by
  rw [shown?, Option.or_eq_some_iff] at hshown
  rcases hshown with hlinked | ⟨-, hplain⟩
  · obtain ⟨e, he, haddress, -, hencode, rfl⟩ := of_linked? hlinked
    simp only [encode, bind_ok_iff] at hencode
    obtain ⟨x, hx, hw⟩ := hencode
    refine ⟨operation_of_toFields hx hw, ?_⟩
    rw [Program.referencesAt_of_mem h he haddress]
    exact Program.reads_referenceNames (Program.binds_of_link h he) fun r hr _ => hnames e he r hr
  · obtain ⟨⟨i', o⟩, hop, heq⟩ := Option.map_eq_some_iff.1 hplain
    cases heq
    exact ⟨⟨o, by rw [operation, hop]⟩, Program.reads_none⟩

theorem operation_of_shown?_eq_none (h : shown? .standard q a word = none) :
    ∃ t, standard.operation word = .error t := by
  rw [shown?, Option.or_eq_none_iff, Option.map_eq_none_iff] at h
  exact ⟨.illegalInstruction word, by rw [operation, h.2]⟩

theorem text_legalRow (htokens : ∀ t ∈ operandTexts names f i, IsToken t) :
    (legalRow a word f i names).text = render names f i := by
  rw [Row.text, render, legalRow]
  cases htexts : operandTexts names f i with
  | nil => simp [separated]
  | cons t ts =>
    have hhead := (htokens t (by rw [htexts]; exact List.mem_cons_self)).nonempty
    have hsome : separated (t :: ts) ≠ "" := by
      intro hempty
      have hscan := scan_separated (htexts ▸ htokens)
      rw [hempty] at hscan
      cases hscan
    simp [hsome]

/-- What a row says about the word at its address, beside a linked program and in any memory. -/
structure Row.Faithful (q : Program) (m : Memory) (r : Row) : Prop where
  word : m.readWord r.address = .ok r.word
  illegal : r.illegal = true ↔ ∃ t, standard.operation r.word = .error t
  legal : r.illegal = false → ∃ i o i' uses,
    standard.operation r.word = .ok (i, o) ∧
      q.assemble .standard (q.referencesAt r.address) r.text = .ok (i', uses) ∧
        i'.opcode = i.opcode ∧
          visibleOperands (Format.standard i.opcode) i' =
            visibleOperands (Format.standard i.opcode) i ∧
              (i.Tied (Format.standard i.opcode) → ∃ w, standard.encode i' = .ok w ∧
                ∀ j, w.getLsbD j =
                  (r.word.getLsbD j && decide ((Format.standard i.opcode).Defines j)))

theorem faithful_illegalRow (hread : m.readWord a = .ok word)
    (hop : ∃ t, standard.operation word = .error t) : (illegalRow a word).Faithful q m where
  word := hread
  illegal := iff_of_true rfl hop
  legal hlegal := by cases hlegal

theorem faithful_legalRow {o : Operation} (hread : m.readWord a = .ok word)
    (hop : standard.operation word = .ok (i, o)) (hreads : q.Reads (q.referencesAt a) names) :
    (legalRow a word (Format.standard i.opcode) i names).Faithful q m := by
  obtain ⟨x, f, w, hx, hf, hw, hbits⟩ :=
    encode_of_decode sound_standard (operation_ok_iff.1 hop).1
  cases hf.symm.trans (format?_standard i.opcode)
  obtain ⟨f, hf', hlen, -⟩ := toFields_eq_ok.1 hx
  cases hf'.symm.trans (format?_standard i.opcode)
  have hfirst := not_hidden_first_of_ofFormats ofFormats_standard (format?_standard i.opcode)
  have htext : (legalRow a word (Format.standard i.opcode) i names).text =
      render names (Format.standard i.opcode) i :=
    text_legalRow (Program.isToken_operandTexts sound_standard hf hreads hx)
  obtain ⟨uses, hassemble⟩ := Program.assemble_render sound_standard hf hfirst hreads hx
  refine ⟨hread, iff_of_false Bool.false_ne_true ?_, fun _ => ?_⟩
  · rintro ⟨t, ht⟩
    cases hop.symm.trans ht
  · refine ⟨i, o, i.retied (Format.standard i.opcode), uses, hop, ?_, rfl,
      Instruction.visibleOperands_retied, fun htied => ⟨w, ?_, hbits⟩⟩
    · rw [htext]
      exact hassemble
    · rw [Instruction.retied_of_tied hlen htied]
      exact hw

theorem faithful_row (h : p.link .standard rules = .ok q)
    (hnames : ∀ e ∈ q.code, ∀ r ∈ e.references, isName r.name = true)
    (hread : m.readWord a = .ok word) : (row .standard q a word).Faithful q m := by
  cases hshown : shown? .standard q a word with
  | none =>
    have hrow : row .standard q a word = illegalRow a word := by rw [row, hshown]
    rw [hrow]
    exact faithful_illegalRow hread (operation_of_shown?_eq_none hshown)
  | some shown =>
    obtain ⟨i, names⟩ := shown
    obtain ⟨⟨o, hop⟩, hreads⟩ := of_shown? h hnames hshown
    have hrow : row .standard q a word =
        legalRow a word (Format.standard i.opcode) i names := by
      simp only [row, hshown, format?_standard]
    rw [hrow]
    exact faithful_legalRow hread hop hreads

theorem hasRoom_iff : HasRoom count ↔ count < 2 ^ 57 := by
  simp only [HasRoom, Row.size, maxRoom]
  omega

/-- **A listing is faithful where there is room for it.** Whatever memory holds, the rows for a
linked program whose references have names that may stand in text are those of consecutive words, as
far as memory can be read, and each is faithful to its word. This is so for fewer than 2 ^ 57 rows.
There is no listing for more. -/
theorem rows_faithful (h : p.link .standard rules = .ok q)
    (hnames : ∀ e ∈ q.code, ∀ r ∈ e.references, isName r.name = true) (m : Memory) (count : Nat)
    (a : Word) :
    (count < 2 ^ 57 → ∃ rs, rows .standard q m count a = some rs ∧ rs.length ≤ count ∧
      (∀ (k : Nat) r, rs[k]? = some r →
        r.address.toNat = a.toNat + 4 * k ∧ r.Faithful q m) ∧
          (rs.length < count → ∀ b : Word, b.toNat = a.toNat + 4 * rs.length →
            ∃ t, m.readWord b = .error t)) ∧
      (2 ^ 57 ≤ count → rows .standard q m count a = none) := by
  refine ⟨fun hcount => ?_, fun hcount => if_neg fun hroom => ?_⟩
  · refine ⟨rowsFrom .standard q m count a, if_pos (hasRoom_iff.2 hcount), length_rowsFrom_le,
      fun k r hr => ?_, fun hless b hb => unreadable_of_rowsFrom hless hb⟩
    obtain ⟨haddress, hread, hrow⟩ := getElem?_rowsFrom hr
    refine ⟨haddress, ?_⟩
    rw [hrow]
    exact faithful_row h hnames hread
  · exact absurd (hasRoom_iff.1 hroom) (Nat.not_lt.2 hcount)

/-- A program that puts an address together from its halves. -/
def listed : Program where
  fileName := "unit.o"
  code := [
    { text := some "MOVIMM16L buf@lo, r3", references := [{ name := "buf" }] },
    { text := some "MOVIMM16H buf@hi, r3", references := [{ name := "buf" }] },
    { text := some "HALT" }]
  globals := [{ name := "buf", size := 4 }]

/-- The first instruction as it was linked, the second one with other numbers, another register in
its hidden field and bits outside all fields, and a word that is no instruction. -/
def overwritten : Memory :=
  ⟨0x1000, ([0x00620183, 0xEA600044, 0x1F].flatMap Word.toBytes).toArray⟩

theorem rows_faithful_listed : ∃ q rs, listed.link .standard {} = .ok q ∧
    rows .standard q overwritten 10 0x1000 = some rs ∧
    rs.map Row.text =
      ["MOVIMM16L buf, r3", "MOVIMM16H #2, r3", ".word 0x0000001F ; ILLEGAL"] ∧
    (∀ (k : Nat) r, rs[k]? = some r →
      r.address.toNat = 0x1000 + 4 * k ∧ r.Faithful q overwritten) ∧
    ∃ t, overwritten.readWord 0x100C = .error t := by
  obtain ⟨q, hlink, htext, hnames⟩ : ∃ q, listed.link .standard {} = .ok q ∧
      (rows .standard q overwritten 10 0x1000).map (List.map Row.text) = some
        ["MOVIMM16L buf, r3", "MOVIMM16H #2, r3", ".word 0x0000001F ; ILLEGAL"] ∧
      ∀ e ∈ q.code, ∀ r ∈ e.references, isName r.name = true :=
    ⟨_, rfl, by decide +kernel, by decide +kernel⟩
  obtain ⟨hlisting, -⟩ := rows_faithful hlink hnames overwritten 10 0x1000
  obtain ⟨rs, hrs, -, hrows, hend⟩ := hlisting (by decide)
  rw [hrs, Option.map_some, Option.some.injEq] at htext
  have hlength : rs.length = 3 := by
    rw [← List.length_map, htext]
    rfl
  exact ⟨q, rs, hlink, hrs, htext, hrows, hend (by omega) 0x100C (by rw [hlength]; rfl)⟩

/-- Where too many rows are asked for, what can be read is not listed either. -/
theorem exists_rows_eq_none : ∃ q w, listed.link .standard {} = .ok q ∧
    (∀ e ∈ q.code, ∀ r ∈ e.references, isName r.name = true) ∧
    overwritten.readWord 0x1000 = .ok w ∧
    rows .standard q overwritten (2 ^ 60) 0x1000 = none :=
  ⟨_, _, rfl, by decide +kernel, rfl, rfl⟩

end Listing
end WordMachine
