import WordMachine.Proofs.LinkedAgain

/-!
# WordMachine.Proofs.InterchangeableLines

What it is about a line that decides how it is read. How tokens are separated says nothing: the
normal form of a line has the same tokens (`Assembly.tokens_normalize`), and these are all that is
read. In the mnemonic and in registers, the case of letters says nothing either
(`Text.sameLetters_congr`), whereas names of references and numbers stand as they are written.

Which tokens are registers follows from the format of the mnemonic, where hidden fields have no
token (`InstructionSet.writtenFields`). Lines with as many tokens that otherwise differ in case at
most (`InstructionSet.Interchangeable`) settle an entry alike (`Program.tokens_decide`).
-/

namespace WordMachine

open Outcome

/-! ## Letters -/

namespace Text

variable {c d : Char} {s t u : String}

/-- The first character is a capital of ASCII, and the second one the same letter as a small one. -/
def IsCapitalOf (c d : Char) : Prop := 'A' ≤ c ∧ c ≤ 'Z' ∧ d.toNat = c.toNat + 32

/-- Whether two texts differ at most in the case of ASCII letters. -/
def SameButCase (s t : String) : Prop :=
  List.Forall₂ (fun c d => c = d ∨ IsCapitalOf c d ∨ IsCapitalOf d c) s.toList t.toList

theorem toNat_toLower (c : Char) :
    c.toLower.toNat = if 'A' ≤ c ∧ c ≤ 'Z' then c.toNat + 32 else c.toNat := by
  rw [Char.toLower]
  split
  · rename_i h
    have hle : c.val.toNat ≤ 90 := UInt32.le_iff_toNat_le.1 h.2
    rw [if_pos ⟨h.1, h.2⟩]
    have hsum : c.val.toNat + 32 < 2 ^ 32 := by omega
    exact (UInt32.toNat_add _ _).trans (Nat.mod_eq_of_lt hsum)
  · rename_i h
    rw [if_neg fun hc => h ⟨hc.1, hc.2⟩]

theorem toLower_eq_iff : c.toLower = d.toLower ↔ c = d ∨ IsCapitalOf c d ∨ IsCapitalOf d c := by
  have hcode : ∀ c d : Char, c ≤ d ↔ c.toNat ≤ d.toNat := fun c d => UInt32.le_iff_toNat_le
  simp only [← Char.toNat_inj, toNat_toLower, IsCapitalOf, hcode, Char.reduceToNat]
  split <;> split <;> omega

theorem map_toLower_eq_iff :
    s.toList.map Char.toLower = t.toList.map Char.toLower ↔ SameButCase s t := by
  rw [SameButCase, ← List.forall₂_eq_eq_eq, List.forall₂_map_left_iff, List.forall₂_map_right_iff]
  simp only [toLower_eq_iff]

/-- Names are looked up alike under texts that differ in case. -/
theorem sameLetters_congr (h : SameButCase t u) : sameLetters s t = sameLetters s u := by
  rw [sameLetters, sameLetters, map_toLower_eq_iff.2 h]

end Text

theorem Register.ofName?_congr {t u : String} (h : Text.SameButCase t u) :
    ofName? t = ofName? u := by
  simp only [ofName?, Text.sameLetters_congr h]

theorem InstructionSet.formatNamed?_congr {s : InstructionSet} {t u : String}
    (h : Text.SameButCase t u) : s.formatNamed? t = s.formatNamed? u := by
  simp only [formatNamed?, Opcode.ofMnemonic?, Text.sameLetters_congr h]

/-! ## Tokens -/

namespace Assembly

variable {line token t u : String} {cs : List Char} {ts us : List String} {field : Field}
  {fields : List Field}

theorem cons_filter (w : List Char) (ws : List (List Char)) :
    cons w (ws.filter (!·.isEmpty)) = (w :: ws).filter (!·.isEmpty) := by
  rw [cons, List.filter_cons]
  cases w.isEmpty <;> rfl

theorem splitOnP_eq_split :
    ∀ cs : List Char, ∃ rest, cs.splitOnP isSeparator = (split cs).1 :: rest ∧
      (split cs).2 = rest.filter (!·.isEmpty) := by
  intro cs
  induction cs with
  | nil => exact ⟨[], rfl, rfl⟩
  | cons c cs ih =>
    obtain ⟨rest, hfirst, hrest⟩ := ih
    rw [List.splitOnP_cons_eq_if_modifyHead, hfirst, split]
    by_cases hc : isSeparator c
    · refine ⟨(split cs).1 :: rest, ?_, ?_⟩
      · simp [hc]
      · simp only [hc, if_true, hrest, cons_filter]
    · exact ⟨rest, by simp [hc], by simp [hc, hrest]⟩

/-- Tokens are the parts that separators leave, but for the empty ones. -/
theorem scan_eq_filter_splitOnP :
    scan cs = (cs.splitOnP isSeparator).filter (!·.isEmpty) := by
  obtain ⟨rest, hfirst, hrest⟩ := splitOnP_eq_split cs
  rw [scan, hfirst, hrest, cons_filter]

theorem unbroken_cons {w : List Char} {ws : List (List Char)} (hw : Unbroken w)
    (hws : ∀ v ∈ ws, v ≠ [] ∧ Unbroken v) : ∀ v ∈ cons w ws, v ≠ [] ∧ Unbroken v := by
  rw [cons]
  split
  · exact hws
  · rename_i hne
    exact List.forall_mem_cons.2 ⟨⟨by simpa using hne, hw⟩, hws⟩

theorem unbroken_split (cs : List Char) :
    Unbroken (split cs).1 ∧ ∀ w ∈ (split cs).2, w ≠ [] ∧ Unbroken w := by
  induction cs with
  | nil => simp [split, Unbroken]
  | cons c cs ih =>
    obtain ⟨hfirst, hrest⟩ := ih
    by_cases hc : isSeparator c
    · simp only [split, hc, if_true]
      exact ⟨by simp [Unbroken], unbroken_cons hfirst hrest⟩
    · simp only [split, hc]
      exact ⟨List.forall_mem_cons.2 ⟨by simpa using hc, hfirst⟩, hrest⟩

theorem isToken_of_mem_tokens (h : token ∈ tokens line) : IsToken token := by
  obtain ⟨w, hw, rfl⟩ := List.mem_map.1 h
  obtain ⟨hfirst, hrest⟩ := unbroken_split line.toList
  obtain ⟨hnonempty, hunbroken⟩ := unbroken_cons hfirst hrest w hw
  exact ⟨by simpa using hnonempty, by simpa using hunbroken⟩

theorem tokens_normalize : tokens (normalize line) = tokens line := by
  have hall : ∀ s ∈ tokens line, IsToken s := fun s => isToken_of_mem_tokens
  rw [normalize, tokens, scan_intercalate (by simp) (by simp; decide) hall, List.map_map]
  simp [Function.comp_def]

theorem normalize_normalize : normalize (normalize line) = normalize line := by
  rw [normalize, tokens_normalize, normalize]

/-! ## Lines -/

/-- Whether tokens are as many as others and the same ones, but for the case of letters where a
field holds a register. -/
def OperandsAlike (fields : List Field) (ts us : List String) : Prop :=
  ts.length = us.length ∧ ∀ (k : Nat) t u, ts[k]? = some t → us[k]? = some u →
    t = u ∨ fields[k]?.map Field.kind = some .register ∧ Text.SameButCase t u

theorem OperandsAlike.of_cons (h : OperandsAlike (field :: fields) (t :: ts) (u :: us)) :
    (t = u ∨ field.kind = .register ∧ Text.SameButCase t u) ∧ OperandsAlike fields ts us := by
  obtain ⟨hlen, hsame⟩ := h
  refine ⟨?_, Nat.succ.inj hlen, fun k => hsame (k + 1)⟩
  simpa using hsame 0 t u rfl rfl

end Assembly

namespace InstructionSet

/-- The fields that have an operand behind a mnemonic. -/
def writtenFields (s : InstructionSet) (mnemonic : String) : List Field :=
  match s.formatNamed? mnemonic with
  | some f => f.fields.filter (!·.hidden)
  | none => []

/-- Whether the tokens of a line are as many as those of another one and the same, but for the case
of letters in the mnemonic and in registers. -/
def Interchangeable (s : InstructionSet) : List String → List String → Prop
  | [], [] => True
  | mnemonic :: ts, mnemonic' :: us =>
    Text.SameButCase mnemonic mnemonic' ∧ Assembly.OperandsAlike (s.writtenFields mnemonic) ts us
  | _, _ => False

end InstructionSet

namespace Program

variable {s : InstructionSet} {p p' : Program} {refs : List Reference} {f : Format}
  {kind : OperandKind} {line other t u : String} {e : CodeEntry}

theorem toOption_readOperand (h : t = u ∨ kind = .register ∧ Text.SameButCase t u) :
    (p.readOperand refs kind t).toOption = (p.readOperand refs kind u).toOption := by
  rcases h with rfl | ⟨rfl, h⟩
  · rfl
  · simp only [readOperand, Register.ofName?_congr h]
    split <;> rfl

theorem toOption_readOperands :
    ∀ {fields : List Field} {index : Nat} {previous : Option Operand} {ts us : List String},
      Assembly.OperandsAlike (fields.filter (!·.hidden)) ts us →
        (p.readOperands refs f index previous fields ts).toOption =
          (p.readOperands refs f index previous fields us).toOption := by
  intro fields
  induction fields with
  | nil => intro index previous ts us _; rfl
  | cons field fields ih =>
    intro index previous ts us h
    by_cases hhidden : field.hidden
    · rw [List.filter_cons_of_neg (by simpa using hhidden)] at h
      cases previous with
      | none => simp only [readOperands, hhidden, if_true]
      | some x => simp only [readOperands, hhidden, if_true, toOption_bind, ih h]
    · rw [List.filter_cons_of_pos (by simpa using hhidden)] at h
      cases ts with
      | nil => rw [List.length_eq_zero_iff.1 h.1.symm]
      | cons t ts =>
        cases us with
        | nil => cases h.1
        | cons u us =>
          obtain ⟨hfirst, hrest⟩ := h.of_cons
          simp only [readOperands, hhidden, Bool.false_eq_true, if_false, toOption_bind,
            toOption_readOperand hfirst, ih hrest]

/-- Interchangeable lines write the same instruction, with the same references at its operands. -/
theorem toOption_assemble
    (h : s.Interchangeable (Assembly.tokens line) (Assembly.tokens other)) :
    (p.assemble s refs line).toOption = (p.assemble s refs other).toOption := by
  unfold assemble
  match Assembly.tokens line, Assembly.tokens other, h with
  | [], [], _ => rfl
  | mnemonic :: ts, mnemonic' :: us, ⟨hmnemonic, hoperands⟩ =>
    simp only [InstructionSet.writtenFields] at hoperands
    simp only [← InstructionSet.formatNamed?_congr hmnemonic, ← hoperands.1]
    cases hf : s.formatNamed? mnemonic with
    | none => rfl
    | some f =>
      simp only [hf] at hoperands
      by_cases hcount : ts.length = f.visibleArity
      · simp only [hcount, ne_eq, not_true_eq_false, if_false, toOption_bind,
          toOption_readOperands hoperands]
      · simp only [hcount, ne_eq, not_false_eq_true, if_true]
        rfl

/-- Whether two attempts to settle an entry both fail, or come to the same instruction, the same
field values and the same references, noted at the same operands. -/
inductive SettlesAlike {ε δ : Type} : Except ε CodeEntry → Except δ CodeEntry → Prop where
  | refused {x : ε} {y : δ} : SettlesAlike (.error x) (.error y)
  | settled {e e' : CodeEntry} (hinstruction : e.instruction = e'.instruction)
      (hfields : e.fields = e'.fields) (hreferences : e.references = e'.references) :
      SettlesAlike (.ok e) (.ok e')

theorem SettlesAlike.mapError {ε δ ε' δ' : Type} {x : Except ε CodeEntry} {y : Except δ CodeEntry}
    {rename : ε → ε'} {rename' : δ → δ'} (h : SettlesAlike x y) :
    SettlesAlike (x.mapError rename) (y.mapError rename') := by
  cases h with
  | refused => exact .refused
  | settled hinstruction hfields hreferences => exact .settled hinstruction hfields hreferences

theorem settlesAlike_bind {ε δ α : Type} {x : Except ε α} {y : Except δ α}
    {next : α → Except ε CodeEntry} {next' : α → Except δ CodeEntry}
    (h : x.toOption = y.toOption) (hnext : ∀ a, SettlesAlike (next a) (next' a)) :
    SettlesAlike (x >>= next) (y >>= next') := by
  cases x with
  | error e =>
    cases y with
    | error e' => exact .refused
    | ok b => cases h
  | ok a =>
    cases y with
    | error e' => cases h
    | ok b =>
      cases h
      exact hnext a

theorem settlesAlike_settleEntry (haddress : ∀ t, p.targetAddress? t = p'.targetAddress? t)
    (h : s.Interchangeable (Assembly.tokens line) (Assembly.tokens other)) :
    SettlesAlike (p.settleEntry s { e with text := some line })
      (p'.settleEntry s { e with text := some other }) := by
  cases hbound : e.references.find? (·.target.isNone) with
  | some r =>
    simp only [settleEntry, hbound]
    exact .refused
  | none =>
    have hread : (p.assemble s e.references line).toOption =
        (p'.assemble s e.references other).toOption := by
      rw [toOption_assemble h, assemble_congr fun _ => namedValue_congr haddress]
    rw [settleEntry_of_text (e := { e with text := some line }) rfl hbound,
      settleEntry_of_text (e := { e with text := some other }) rfl hbound]
    refine settlesAlike_bind hread fun written => settlesAlike_bind rfl fun fields => ?_
    exact .settled rfl rfl rfl

/-- The program with other text at an entry. -/
def withText (p : Program) (k : Nat) (line : String) : Program :=
  { p with code := p.code.modify k fun e => { e with text := some line } }

theorem getElem?_code_withText {k : Nat} :
    (p.withText k line).code[k]? = p.code[k]?.map fun e => { e with text := some line } := by
  simp [withText]

/-- Text moves nothing. -/
theorem targetAddress?_withText {k : Nat} (target : Target) :
    (p.withText k line).targetAddress? target = p.targetAddress? target := by
  have hentry : ∀ j, (p.withText k line).entryAddress? j = p.entryAddress? j := by
    intro j
    simp only [withText, entryAddress?, List.getElem?_modify]
    cases p.code[j]? with
    | none => rfl
    | some e => by_cases hk : k = j <;> simp [hk]
  refine targetAddress?_congr ?_ ?_ ?_ hentry target <;> rfl

theorem settlesAlike_settleAt {k : Nat}
    (h : s.Interchangeable (Assembly.tokens line) (Assembly.tokens other)) :
    SettlesAlike ((p.withText k line).settleAt s k) ((p.withText k other).settleAt s k) := by
  simp only [settleAt, getElem?_code_withText]
  cases p.code[k]? with
  | none => exact .refused
  | some e =>
    have hsettle : SettlesAlike
        ((p.withText k line).settleEntry s { e with text := some line })
        ((p.withText k other).settleEntry s { e with text := some other }) :=
      settlesAlike_settleEntry (fun target => by simp only [targetAddress?_withText]) h
    exact hsettle.mapError

/-- **Only the tokens matter.** Bringing a line into its normal form keeps the tokens, which are the
parts between separators, none of them empty or with white space or a comma in it. A line settles an
entry as any other line with as many tokens does, if these are the same but for the case of letters
in the mnemonic and in registers: either both are refused, or both come to the same instruction, the
same field values and the same operands noted at references. -/
theorem tokens_decide (s : InstructionSet) (line : String) :
    Assembly.tokens line =
        ((line.toList.splitOnP Assembly.isSeparator).filter (!·.isEmpty)).map String.ofList ∧
      Assembly.tokens (Assembly.normalize line) = Assembly.tokens line ∧
      Assembly.normalize (Assembly.normalize line) = Assembly.normalize line ∧
      (∀ token ∈ Assembly.tokens line, token ≠ "" ∧
        ∀ c ∈ token.toList, Text.isBlank c = false ∧ c ≠ ',') ∧
      ∀ other, s.Interchangeable (Assembly.tokens line) (Assembly.tokens other) →
        (∀ (p : Program) (e : CodeEntry), SettlesAlike
          (p.settleEntry s { e with text := some line })
          (p.settleEntry s { e with text := some other })) ∧
        ∀ (p : Program) (k : Nat), SettlesAlike
          ((p.withText k line).settleAt s k) ((p.withText k other).settleAt s k) := by
  refine ⟨?_, Assembly.tokens_normalize, Assembly.normalize_normalize, ?_, ?_⟩
  · rw [Assembly.tokens, Assembly.scan_eq_filter_splitOnP]
  · intro token htoken
    obtain ⟨hnonempty, hunbroken⟩ := Assembly.isToken_of_mem_tokens htoken
    refine ⟨fun h => hnonempty (by rw [h]; rfl), fun c hc => ?_⟩
    simpa [Assembly.isSeparator] using hunbroken c hc
  · intro other h
    exact ⟨fun p e => settlesAlike_settleEntry (fun _ => rfl) h,
      fun p k => settlesAlike_settleAt h⟩

theorem tokens_decide_buffered :
    InstructionSet.Interchangeable ⟨doubling⟩ (Assembly.tokens "ADDIMM buf@lo, #-4, sp")
        (Assembly.tokens ",\taddIMM,buf@lo #-4,,Sp\u3000\n") ∧
      ∃ e, buffered.settleEntry ⟨doubling⟩
          { text := some ",\taddIMM,buf@lo #-4,,Sp\u3000\n"
            references := bufferedReferences.map Reference.unnoted } = .ok e ∧
        e.instruction = some bufferedInstruction ∧
        e.references.map Reference.operand = [none, some 0, none] := by
  have hplain : Assembly.tokens "ADDIMM buf@lo, #-4, sp" = ["ADDIMM", "buf@lo", "#-4", "sp"] := by
    decide +kernel
  have hmixed : Assembly.tokens ",\taddIMM,buf@lo #-4,,Sp\u3000\n" =
      ["addIMM", "buf@lo", "#-4", "Sp"] := by decide +kernel
  have hlines : InstructionSet.Interchangeable ⟨doubling⟩ (Assembly.tokens "ADDIMM buf@lo, #-4, sp")
      (Assembly.tokens ",\taddIMM,buf@lo #-4,,Sp\u3000\n") := by
    rw [hplain, hmixed]
    refine ⟨Text.map_toLower_eq_iff.1 (by decide +kernel), rfl, ?_⟩
    intro k t u ht hu
    match k with
    | 0 => cases ht; cases hu; exact .inl rfl
    | 1 => cases ht; cases hu; exact .inl rfl
    | 2 =>
      cases ht
      cases hu
      exact .inr ⟨by decide +kernel, Text.map_toLower_eq_iff.1 (by decide +kernel)⟩
    | k + 3 => cases ht
  obtain ⟨e, he, hi, hoperands⟩ : ∃ e, buffered.settleEntry ⟨doubling⟩
      { text := some "ADDIMM buf@lo, #-4, sp"
        references := bufferedReferences.map Reference.unnoted } = .ok e ∧
          e.instruction = some bufferedInstruction ∧
            e.references.map Reference.operand = [none, some 0, none] := ⟨_, rfl, rfl, rfl⟩
  obtain ⟨-, -, -, -, hsettles⟩ := tokens_decide ⟨doubling⟩ "ADDIMM buf@lo, #-4, sp"
  obtain ⟨halike, -⟩ := hsettles _ hlines
  refine ⟨hlines, ?_⟩
  have hpair := halike buffered { references := bufferedReferences.map Reference.unnoted }
  rw [he] at hpair
  generalize buffered.settleEntry _ _ = outcome at hpair ⊢
  cases hpair with
  | settled hinstruction _ hreferences =>
    exact ⟨_, rfl, hinstruction ▸ hi, hreferences ▸ hoperands⟩

end Program
end WordMachine
