import WordMachine.Proofs.NamedOperands
import WordMachine.Proofs.PrintedTokens

/-!
# WordMachine.Proofs.PrintedText

What is printed is read back. Numbers are printed in digits or under names that read as these
numbers again (`Program.Reads`), such as those of the references of an entry
(`Program.reads_referenceNames`). Hidden operands are not printed, and reading puts the operands
before them in their place (`Instruction.retied`), which changes nothing where they repeat these
anyway.

* `Program.assemble_render`: what reading makes of a printed line, whatever its numbers were printed
  under;
* `Program.settle_of_print`: an entry of which only the printed text is given settles as the
  instruction.

The names are the only condition: they must be such as a token may have (`Assembly.isName`).
Printing asks nothing of them, and reading refuses all others.
-/

namespace WordMachine
namespace Assembly

variable {names : Names} {f : Format} {i : Instruction} {field : Field} {fields : List Field}
  {x : Operand} {xs : List Operand} {index n : Nat}

/-! ## Visible operands -/

/-- The operands of fields from number `index` on, each with its number, hidden ones left out. -/
def visibleFrom (index : Nat) (fields : List Field) (xs : List Operand) : List (Nat × Operand) :=
  (((fields.zip xs).zipIdx index).filter (!·.1.1.hidden)).map fun ((_, x), k) => (k, x)

theorem visibleFrom_hidden (h : field.hidden) :
    visibleFrom index (field :: fields) (x :: xs) = visibleFrom (index + 1) fields xs := by
  rw [visibleFrom, List.zip_cons_cons, List.zipIdx_cons, List.filter_cons_of_neg (by simpa using h)]
  rfl

theorem visibleFrom_visible (h : ¬ field.hidden) :
    visibleFrom index (field :: fields) (x :: xs) =
      (index, x) :: visibleFrom (index + 1) fields xs := by
  rw [visibleFrom, List.zip_cons_cons, List.zipIdx_cons, List.filter_cons_of_pos (by simpa using h)]
  rfl

theorem of_mem_visibleOperands (h : (n, x) ∈ visibleOperands f i) :
    ∃ field, f.fields[n]? = some field ∧ i.operands[n]? = some x := by
  obtain ⟨⟨⟨field, y⟩, k⟩, hmem, heq⟩ := List.mem_map.1 h
  cases heq
  have hzip := List.mk_mem_zipIdx_iff_getElem?.1 (List.mem_of_mem_filter hmem)
  exact ⟨field, List.getElem?_zip_eq_some.1 hzip⟩

theorem length_visibleFrom :
    ∀ {fields : List Field} {xs : List Operand} {index : Nat}, fields.length = xs.length →
      (visibleFrom index fields xs).length = fields.countP (!·.hidden) := by
  intro fields
  induction fields with
  | nil => intro xs index _; rfl
  | cons field fields ih =>
    intro xs index hlen
    cases xs with
    | nil => cases hlen
    | cons x xs =>
      have hrest : (visibleFrom (index + 1) fields xs).length = fields.countP (!·.hidden) :=
        ih (Nat.succ.inj hlen)
      by_cases hhidden : field.hidden
      · rw [visibleFrom_hidden hhidden, hrest, List.countP_cons_of_neg (by simpa using hhidden)]
      · rw [visibleFrom_visible hhidden, List.length_cons, hrest,
          List.countP_cons_of_pos (by simpa using hhidden)]

/-! ## Hidden operands -/

/-- The operands with every hidden one replaced by the operand before it; `previous` is the one
before them all. -/
def tieFrom : Option Operand → List Field → List Operand → List Operand
  | previous, field :: fields, x :: xs =>
    let y := if field.hidden then previous.getD x else x
    y :: tieFrom (some y) fields xs
  | _, _, _ => []

/-- Operands of which the hidden ones repeat the ones before them stay as they are. -/
theorem tieFrom_of_tied :
    ∀ {fields : List Field} {xs : List Operand} {previous : Option Operand},
      fields.length = xs.length → previous = none ∨
        (∀ field, fields[0]? = some field → field.hidden → previous = xs[0]?) →
          (∀ n field, fields[n + 1]? = some field → field.hidden → xs[n + 1]? = xs[n]?) →
            tieFrom previous fields xs = xs := by
  intro fields
  induction fields with
  | nil =>
    intro xs previous hlen _ _
    rw [List.length_eq_zero_iff.1 hlen.symm]
    rfl
  | cons field fields ih =>
    intro xs previous hlen hfirst htied
    cases xs with
    | nil => cases hlen
    | cons x xs =>
      have hx : (if field.hidden then previous.getD x else x) = x := by
        split
        · rename_i hhidden
          rcases hfirst with rfl | hfirst
          · rfl
          · rw [hfirst field rfl hhidden]
            rfl
        · rfl
      have hrest : tieFrom (some x) fields xs = xs := by
        refine ih (Nat.succ.inj hlen) (.inr ?_) (fun n => htied (n + 1))
        exact fun field hfield hhidden => (htied 0 field hfield hhidden).symm
      simp only [tieFrom, hx, hrest]

theorem visibleFrom_tieFrom :
    ∀ {fields : List Field} {xs : List Operand} {previous : Option Operand} {index : Nat},
      visibleFrom index fields (tieFrom previous fields xs) = visibleFrom index fields xs := by
  intro fields
  induction fields with
  | nil => intro xs previous index; rfl
  | cons field fields ih =>
    intro xs previous index
    cases xs with
    | nil => rfl
    | cons x xs =>
      by_cases hhidden : field.hidden
      · rw [tieFrom, visibleFrom_hidden hhidden, visibleFrom_hidden hhidden, ih]
      · rw [tieFrom, visibleFrom_visible hhidden, visibleFrom_visible hhidden, ih, if_neg hhidden]

end Assembly

namespace Instruction

variable {f : Format} {i : Instruction}

/-- The instruction with every hidden operand replaced by the operand before it. -/
def retied (f : Format) (i : Instruction) : Instruction :=
  { i with operands := Assembly.tieFrom none f.fields i.operands }

theorem retied_of_tied (hlen : i.operands.length = f.arity) (htied : i.Tied f) :
    i.retied f = i := by
  rw [retied, Assembly.tieFrom_of_tied hlen.symm (.inl rfl) htied]

theorem visibleOperands_retied :
    Assembly.visibleOperands f (i.retied f) = Assembly.visibleOperands f i :=
  Assembly.visibleFrom_tieFrom

end Instruction

namespace InstructionSet

open Outcome

section Convert

variable {α β : Type} {c : Nat → Field → α → Except CodingError β}

theorem of_forFields {f : Field} {x : α} :
    ∀ {fs : List Field} {xs : List α} {ys : List β} {k n : Nat}, forFields c k fs xs = .ok ys →
      fs[n]? = some f → xs[n]? = some x → ∃ y, c (k + n) f x = .ok y := by
  intro fs
  induction fs with
  | nil =>
    intro xs ys k n _ hf
    cases hf
  | cons g fs ih =>
    intro xs ys k n h hf hx
    cases xs with
    | nil => cases hx
    | cons z xs =>
      obtain ⟨y, zs, hy, hzs, -⟩ := forFields_cons.1 h
      cases n with
      | zero =>
        cases hf
        cases hx
        exact ⟨y, hy⟩
      | succ n =>
        obtain ⟨y', hy'⟩ := ih hzs hf hx
        exact ⟨y', by rw [← Nat.add_assoc, Nat.add_right_comm]; exact hy'⟩

end Convert

variable {op : Opcode} {f : Field} {k : Nat} {v : Int} {w : Word}

/-- A number that fits a field of a word is small enough to be read from text. -/
theorem natAbs_le_of_writeField (hf : f.InWord)
    (h : writeField op k f (.immediate v) = .ok w) : (v.natAbs : Int) ≤ Numeral.maxSigned := by
  have hpow : ∀ n ≤ 32, 1 <<< n ≤ 0x100000000 := fun n hn => by
    rw [Nat.one_shiftLeft]
    exact Nat.pow_le_pow_right (by decide) hn
  have hwidth := hpow f.width hf.width_le
  have hhalf := hpow (f.width - 1) (Nat.le_trans (Nat.sub_le _ _) hf.width_le)
  have hrange : f.min ≤ v ∧ v ≤ f.max := by
    cases hkind : f.kind with
    | register => simp only [writeField, hkind, reduceCtorEq] at h
    | immediate =>
      simp only [writeField, hkind] at h
      split at h
      · cases h
      · rename_i hin
        omega
  obtain ⟨hmin, hmax⟩ := hrange
  rw [Numeral.maxSigned]
  cases hsigned : f.signedness with
  | unsigned =>
    simp only [Field.min, Field.max, hsigned] at hmin hmax
    omega
  | signed =>
    simp only [Field.min, Field.max, hsigned] at hmin hmax
    omega

end InstructionSet

namespace Program

variable {s : InstructionSet} {p : Program} {refs : List Reference} {names : Assembly.Names}
  {f : Format} {i : Instruction} {x : Operand} {k : Nat} {w : Word}

open Assembly Outcome

/-! ## Reading what was printed -/

/-- Whether every name that a number is printed under is a token of its own, and reads as that
number. -/
def Reads (p : Program) (refs : List Reference) (names : Assembly.Names) : Prop :=
  ∀ k v token, names k v = some token → IsToken token ∧ token.toList.head? ≠ some '#' ∧
    ∃ w j, p.namedValue refs token = .ok (w, j) ∧ (w.toNat : Int) = v

theorem reads_none : p.Reads refs Assembly.Names.none := by
  intro k v token h
  cases h

/-- The token of a reference reads as the part of the address that the reference stands for. -/
theorem namedValue_token {r : Reference} (hbinds : p.Binds refs) (hr : r ∈ refs)
    (hname : isName r.name = true) (hvalue : p.referenceValue? r = some w) :
    ∃ j, p.namedValue refs r.token = .ok (w, j) := by
  have hsign : '@' ∉ r.name.toList := fun hmem => ((of_isName hname).2 _ hmem).2.1 rfl
  have hsplit : AddressPart.split? r.token = some (r.name, r.part) :=
    AddressPart.split?_append_suffix hsign r.part
  obtain ⟨j, hj⟩ : ∃ j, findReference? refs r.name r.part = some j := by
    have hsome : (refs.findIdx? fun r' => decide (r'.name = r.name ∧ r'.part = r.part)).isSome := by
      rw [List.findIdx?_isSome, List.any_eq_true]
      exact ⟨r, hr, by simp⟩
    obtain ⟨j, hj⟩ := Option.isSome_iff_exists.1 hsome
    exact ⟨j, by rw [findReference?, hj, Option.some_or]⟩
  -- The reference that is found may be another one; it has the name, so it is bound to the same.
  obtain ⟨r', hr', hname'⟩ := name_of_findReference? hj
  have htarget : r'.target = r.target := by
    rw [hbinds r' (List.mem_of_getElem? hr'), hbinds r hr, hname']
  simp only [referenceValue?, Option.bind_eq_bind, Option.bind_eq_some_iff, Option.pure_def,
    Option.some.injEq] at hvalue
  obtain ⟨t, ht, a, ha, rfl⟩ := hvalue
  refine ⟨j, ?_⟩
  simp only [namedValue, hsplit, hname, hj, hr', Option.bind_some, htarget, ht, ha]
  rfl

/-- The names of references read as what they are printed for if those that were noted at an operand
may stand in text. -/
theorem reads_referenceNames (hbinds : p.Binds refs)
    (hnames : ∀ r ∈ refs, r.operand.isSome → isName r.name = true) :
    p.Reads refs (p.referenceNames refs) := by
  intro k v token htoken
  rw [referenceNames_eq_map_naming?, Option.map_eq_some_iff] at htoken
  obtain ⟨r, hnaming, rfl⟩ := htoken
  have hr := List.mem_of_find?_eq_some hnaming
  have hfound := List.find?_some hnaming
  simp only [Bool.and_eq_true, Option.any_eq_true, decide_eq_true_eq] at hfound
  obtain ⟨hoperand, w, hvalue, hw⟩ := hfound
  have hname := hnames r hr (by rw [hoperand]; rfl)
  obtain ⟨j, hj⟩ := namedValue_token hbinds hr hname hvalue
  exact ⟨isToken_token hname, head?_token hname, w, j, hj, hw⟩

/-- An operand is read back from its text, if it is no greater than numbers in text may be. -/
theorem readOperand_operandText (hreads : p.Reads refs names)
    (hrange : ∀ v, x = .immediate v → (v.natAbs : Int) ≤ Numeral.maxSigned) :
    IsToken (operandText names (k, x)) ∧
      ∃ use, p.readOperand refs x.kind (operandText names (k, x)) = .ok (x, use) := by
  cases x with
  | register r =>
    refine ⟨isToken_registerName r, none, ?_⟩
    simp only [operandText, Operand.kind, readOperand, Register.ofName?_name]
    rfl
  | immediate v =>
    rw [operandText]
    cases hname : names k v with
    | none =>
      refine ⟨isToken_immediateText v, none, ?_⟩
      simp only [Option.getD_none, Operand.kind, readOperand, head?_immediateText,
        immediate?_immediateText (hrange v rfl), if_true]
      rfl
    | some token =>
      obtain ⟨htoken, hplain, w, j, hj, rfl⟩ := hreads k v token hname
      refine ⟨htoken, some j, ?_⟩
      simp only [Option.getD_some, Operand.kind, readOperand, hplain, if_false, hj]
      rfl

/-- Operands are read back from their texts. A hidden one has no text, and repeats the one before
it. -/
theorem readOperands_visibleFrom :
    ∀ {fields : List Field} {xs : List Operand} {index : Nat} {previous : Option Operand},
      fields.length = xs.length →
        (∀ field, fields[0]? = some field → field.hidden → previous.isSome) →
          (∀ n field x, fields[n]? = some field → xs[n]? = some x → ∃ use,
            p.readOperand refs field.kind (operandText names (index + n, x)) = .ok (x, use)) →
              ∃ uses, p.readOperands refs f index previous fields
                ((visibleFrom index fields xs).map (operandText names)) =
                  .ok (tieFrom previous fields xs, uses) := by
  intro fields
  induction fields with
  | nil =>
    intro xs index previous hlen _ _
    rw [List.length_eq_zero_iff.1 hlen.symm]
    exact ⟨[], rfl⟩
  | cons field fields ih =>
    intro xs index previous hlen hfirst hread
    cases xs with
    | nil => cases hlen
    | cons x xs =>
      -- Whatever stands here is there to be repeated by the next operand.
      have hrest : ∀ y, ∃ uses, p.readOperands refs f (index + 1) (some y) fields
          ((visibleFrom (index + 1) fields xs).map (operandText names)) =
            .ok (tieFrom (some y) fields xs, uses) := by
        intro y
        refine ih (Nat.succ.inj hlen) (fun _ _ _ => rfl) fun n field z hfield hz => ?_
        rw [Nat.add_assoc, Nat.add_comm 1]
        exact hread (n + 1) field z hfield hz
      by_cases hhidden : field.hidden
      · obtain ⟨y, rfl⟩ := Option.isSome_iff_exists.1 (hfirst field rfl hhidden)
        obtain ⟨uses, hrest⟩ := hrest y
        refine ⟨uses, ?_⟩
        simp only [visibleFrom_hidden hhidden, readOperands, tieFrom, if_pos hhidden,
          Option.getD_some, hrest]
        rfl
      · obtain ⟨use, hx⟩ := hread 0 field x rfl rfl
        obtain ⟨uses, hrest⟩ := hrest x
        refine ⟨(use.map (·, index)).toList ++ uses, ?_⟩
        rw [Nat.add_zero] at hx
        simp only [visibleFrom_visible hhidden, List.map_cons, readOperands, tieFrom,
          if_neg hhidden, hx, ok_bind, hrest]
        rfl

variable {line : String} {y : FieldValues}

/-- Every operand that was written to its field is read back, as it has the kind of the field and is
in its range. -/
theorem readOperand_of_toFields (hsound : s.Sound) (hf : s.format? i.opcode = some f)
    (hreads : p.Reads refs names) (hy : s.toFields i = .ok y) {n : Nat} {field : Field}
    (hfield : f.fields[n]? = some field) (hx : i.operands[n]? = some x) :
    IsToken (operandText names (n, x)) ∧
      ∃ use, p.readOperand refs field.kind (operandText names (n, x)) = .ok (x, use) := by
  obtain ⟨f', hf', -, -, hvalues⟩ := InstructionSet.toFields_eq_ok.1 hy
  cases hf.symm.trans hf'
  obtain ⟨v, hv⟩ := InstructionSet.of_forFields hvalues hfield hx
  rw [← InstructionSet.kind_of_writeField hv]
  refine readOperand_operandText hreads ?_
  rintro v rfl
  exact InstructionSet.natAbs_le_of_writeField
    ((hsound f (InstructionSet.format?_eq_some hf).1).inWord field (List.mem_of_getElem? hfield)) hv

theorem isToken_operandTexts (hsound : s.Sound) (hf : s.format? i.opcode = some f)
    (hreads : p.Reads refs names) (hy : s.toFields i = .ok y) :
    ∀ t ∈ operandTexts names f i, IsToken t := by
  intro t ht
  obtain ⟨⟨n, x⟩, hmem, rfl⟩ := List.mem_map.1 ht
  obtain ⟨field, hfield, hx⟩ := of_mem_visibleOperands hmem
  exact (readOperand_of_toFields hsound hf hreads hy hfield hx).1

/-- What was printed of an instruction is read back as it, whatever set of formats it belongs to,
but for hidden operands that do not repeat the operands before them. -/
theorem assemble_render (hsound : s.Sound) (hf : s.format? i.opcode = some f)
    (hfirst : ∀ field, f.fields[0]? = some field → ¬ field.hidden) (hreads : p.Reads refs names)
    (hy : s.toFields i = .ok y) :
    ∃ uses, p.assemble s refs (render names f i) = .ok (i.retied f, uses) := by
  have hopcode := (InstructionSet.format?_eq_some hf).2
  obtain ⟨f', hf', hlen, -⟩ := InstructionSet.toFields_eq_ok.1 hy
  cases hf.symm.trans hf'
  have hread : ∃ uses, p.readOperands refs f 0 none f.fields (operandTexts names f i) =
      .ok (tieFrom none f.fields i.operands, uses) := by
    refine readOperands_visibleFrom hlen.symm ?_ ?_
    · exact fun field hfield hhidden => absurd hhidden (hfirst field hfield)
    · intro n field x hfield hx
      rw [Nat.zero_add]
      exact (readOperand_of_toFields hsound hf hreads hy hfield hx).2
  obtain ⟨uses, hread⟩ := hread
  have htokens : tokens (render names f i) = i.opcode.mnemonic :: operandTexts names f i :=
    tokens_render (isToken_mnemonic _) (isToken_operandTexts hsound hf hreads hy)
  have hnamed : s.formatNamed? i.opcode.mnemonic = some f := by
    rw [InstructionSet.formatNamed?, Opcode.ofMnemonic?_mnemonic, Option.bind_some, hf]
  have hcount : (operandTexts names f i).length = f.visibleArity := by
    rw [operandTexts, List.length_map]
    exact length_visibleFrom hlen.symm
  refine ⟨uses, ?_⟩
  simp only [assemble, htokens, hnamed, hcount, ne_eq, not_true_eq_false, if_false, hread, ok_bind,
    hopcode]
  rfl

theorem assemble_of_print (hsound : s.Sound) (hf : s.format? i.opcode = some f)
    (hfirst : ∀ field, f.fields[0]? = some field → ¬ field.hidden)
    (hbinds : p.Binds refs) (hnames : ∀ r ∈ refs, r.operand.isSome → isName r.name = true)
    (hy : s.toFields i = .ok y) (htied : i.Tied f) (hl : p.print s refs i = .ok line) :
    ∃ uses, p.assemble s refs line = .ok (i, uses) := by
  obtain ⟨uses, ha⟩ := assemble_render hsound hf hfirst (reads_referenceNames hbinds hnames) hy
  obtain ⟨f', hf', hlen, -⟩ := InstructionSet.toFields_eq_ok.1 hy
  cases hf.symm.trans hf'
  simp only [print, InstructionSet.format_eq_ok.2 hf, ok_bind, pure_ok_iff] at hl
  rw [Instruction.retied_of_tied hlen htied, hl] at ha
  exact ⟨uses, ha⟩

/-- **Printing and reading are inverse.** Over every admitted set, in a program that binds the
references of an entry by names that may stand in text, an instruction that has field values and
repeats operands where they are hidden has a printed line, and an entry with this line settles as
the instruction. -/
theorem settle_of_print {fs : List Format} (h : InstructionSet.ofFormats fs = .ok s)
    (hbinds : p.Binds refs) (htargets : ∀ r ∈ refs, r.target.isSome)
    (hnames : ∀ r ∈ refs, isName r.name = true) (hy : s.toFields i = .ok y)
    (htied : ∀ f, s.format? i.opcode = some f → i.Tied f) :
    ∃ line, p.print s refs i = .ok line ∧
      ∀ e : CodeEntry, e.references = refs → e.text = some line →
        ∃ e', p.settleEntry s e = .ok e' ∧ e'.instruction = some i ∧ e'.fields = some y := by
  obtain ⟨f, hf, -, -, -⟩ := InstructionSet.toFields_eq_ok.1 hy
  have hl : p.print s refs i = .ok (render (p.referenceNames refs) f i) := by
    simp only [print, InstructionSet.format_eq_ok.2 hf, ok_bind]
    rfl
  refine ⟨_, hl, ?_⟩
  rintro e rfl htext
  obtain ⟨uses, ha⟩ := assemble_of_print (InstructionSet.sound_of_ofFormats h) hf
    (InstructionSet.not_hidden_first_of_ofFormats h hf) hbinds (fun r hr _ => hnames r hr) hy
    (htied f hf) hl
  have hbound : e.references.find? (·.target.isNone) = none := by
    rw [List.find?_eq_none]
    intro r hr
    rw [Bool.not_eq_true, Option.isNone_eq_false_iff]
    exact htargets r hr
  exact ⟨_, by rw [settleEntry_of_text htext hbound, ha, ok_bind, hy]; rfl, rfl, rfl⟩

/-- A format with a number that is written once and stands in two fields. -/
def doubling : List Format :=
  [⟨.addImm, [.unsigned 5 14, .signed 19 3, (Field.signed 22 4).tied, .source 26]⟩]

/-- A program with one global, and a reference to it for each part of its address. -/
def buffered : Program where
  fileName := "unit.o"
  globals := [{ name := "buf", size := 16, address := some 0x2010 }]

def bufferedReferences : List Reference := [
  { name := "buf", part := .high, target := some (.global 0), operand := some 0 },
  { name := "buf", part := .low, target := some (.global 0), operand := some 0 },
  { name := "buf", part := .whole, target := some (.global 0), operand := some 0 }]

def bufferedInstruction : Instruction :=
  ⟨.addImm, [.immediate 0x2010, .immediate (-4), .immediate (-4), .register .sp]⟩

theorem settle_of_print_buffered :
    buffered.print ⟨doubling⟩ bufferedReferences bufferedInstruction =
        .ok "ADDIMM buf@lo, #-4, sp" ∧
      ∃ e', buffered.settleEntry ⟨doubling⟩
          { text := some "ADDIMM buf@lo, #-4, sp", references := bufferedReferences } = .ok e' ∧
        e'.instruction = some bufferedInstruction := by
  have htied : ∀ f, InstructionSet.format? ⟨doubling⟩ bufferedInstruction.opcode = some f →
      bufferedInstruction.Tied f := by
    rintro _ ⟨⟩ n field hfield hhidden
    match n with
    | 0 => cases hfield; cases hhidden
    | 1 => rfl
    | 2 => cases hfield; cases hhidden
    | n + 3 => cases hfield
  have hline : buffered.print ⟨doubling⟩ bufferedReferences bufferedInstruction =
      .ok "ADDIMM buf@lo, #-4, sp" := by decide +kernel
  have hset : InstructionSet.ofFormats doubling = .ok ⟨doubling⟩ := rfl
  have hbinds : buffered.Binds bufferedReferences := by
    unfold Binds
    decide
  obtain ⟨line, hl, hsettle⟩ := settle_of_print hset hbinds (by decide) (by decide) rfl htied
  cases hline.symm.trans hl
  obtain ⟨e', he', hi, -⟩ := hsettle
    { text := some "ADDIMM buf@lo, #-4, sp", references := bufferedReferences } rfl rfl
  exact ⟨hline, e', he', hi⟩

end Program
end WordMachine
