import Mathlib
import WordMachine.Program.Forms

/-!
# WordMachine.Proofs.PrintedTokens

A printed line falls into the tokens that it was printed from (`Assembly.tokens_render`), and each
token reads as what it was printed for: a mnemonic, a register, or a number in digits
(`Assembly.immediate?_immediateText`). A name is a token if it has the characters that a name may
have (`Assembly.isToken_token`); no number is taken for one.
-/

namespace WordMachine

theorem Register.ofName?_name (r : Register) : ofName? r.name = some r := by
  cases r <;> rfl

theorem Opcode.ofMnemonic?_mnemonic (op : Opcode) : ofMnemonic? op.mnemonic = some op := by
  cases op <;> rfl

namespace Assembly

variable {names : Names} {f : Format} {i : Instruction} {s name : String} {cs rest : List Char}
  {c : Char} {n : Nat} {v : Int}

/-! ## Tokens of a line -/

/-- Characters that no tokens are separated by. -/
def Unbroken (cs : List Char) : Prop := ∀ c ∈ cs, isSeparator c = false

/-- A text that stands in a line as one token. -/
structure IsToken (s : String) : Prop where
  nonempty : s.toList ≠ []
  unbroken : Unbroken s.toList

theorem split_append (h : Unbroken cs) (rest : List Char) :
    split (cs ++ rest) = (cs ++ (split rest).1, (split rest).2) := by
  induction cs with
  | nil => rfl
  | cons c cs ih =>
    obtain ⟨hc, hcs⟩ := List.forall_mem_cons.1 h
    rw [List.cons_append, split, ih hcs]
    simp [hc]

theorem scan_separator (hc : isSeparator c = true) : scan (c :: rest) = scan rest := by
  simp [scan, split, hc, cons]

theorem scan_token (hs : IsToken s) : scan s.toList = [s.toList] := by
  have hsplit : split s.toList = (s.toList, []) := by
    simpa [split] using split_append hs.unbroken []
  rw [scan, hsplit, cons, if_neg (by simpa using hs.nonempty)]

theorem scan_token_separator (hs : IsToken s) (hc : isSeparator c = true) :
    scan (s.toList ++ c :: rest) = s.toList :: scan rest := by
  have hsplit : split (s.toList ++ c :: rest) = (s.toList, scan rest) := by
    rw [split_append hs.unbroken, split]
    simp [hc, scan]
  rw [scan, hsplit, cons, if_neg (by simpa using hs.nonempty)]

theorem scan_append_of_separators :
    ∀ {gap : List Char}, (∀ c ∈ gap, isSeparator c = true) → scan (gap ++ rest) = scan rest := by
  intro gap
  induction gap with
  | nil => intro _; rfl
  | cons c gap ih =>
    intro h
    obtain ⟨hc, hgap⟩ := List.forall_mem_cons.1 h
    rw [List.cons_append, scan_separator hc, ih hgap]

/-- Tokens that are put together with separators between them are found again. -/
theorem scan_intercalate {gap : String} (hnonempty : gap.toList ≠ [])
    (hgap : ∀ c ∈ gap.toList, isSeparator c = true) :
    ∀ {ss : List String}, (∀ s ∈ ss, IsToken s) →
      scan (gap.intercalate ss).toList = ss.map String.toList := by
  obtain ⟨c, cs, hchars⟩ := List.exists_cons_of_ne_nil hnonempty
  rw [hchars] at hgap
  obtain ⟨hc, hcs⟩ := List.forall_mem_cons.1 hgap
  intro ss
  induction ss with
  | nil =>
    intro _
    simp [scan, split, cons]
  | cons s ss ih =>
    intro hall
    obtain ⟨hs, hss⟩ := List.forall_mem_cons.1 hall
    cases ss with
    | nil => simp [scan_token hs]
    | cons t ss =>
      have hline : (gap.intercalate (s :: t :: ss)).toList =
          s.toList ++ c :: (cs ++ (gap.intercalate (t :: ss)).toList) := by
        simp [String.intercalate_cons_cons, hchars]
      rw [hline, scan_token_separator hs hc, scan_append_of_separators hcs, ih hss]
      rfl

theorem scan_separated {ss : List String} (hall : ∀ s ∈ ss, IsToken s) :
    scan (separated ss).toList = ss.map String.toList :=
  scan_intercalate (by simp) (by simp; decide) hall

/-- The tokens of a printed line are the mnemonic and the texts of the operands. -/
theorem tokens_render (hmnemonic : IsToken i.opcode.mnemonic)
    (hall : ∀ s ∈ operandTexts names f i, IsToken s) :
    tokens (render names f i) = i.opcode.mnemonic :: operandTexts names f i := by
  rw [render]
  split
  · rename_i hnone
    rw [tokens, scan_token hmnemonic, hnone]
    simp
  · have hchars : (i.opcode.mnemonic ++ " " ++ separated (operandTexts names f i)).toList =
        i.opcode.mnemonic.toList ++ ' ' :: (separated (operandTexts names f i)).toList := by simp
    rw [tokens, hchars, scan_token_separator hmnemonic (by decide), scan_separated hall]
    simp [Function.comp_def]

/-! ## Tokens that are printed -/

/-- A visible character of ASCII that is no comma. -/
def Visible (c : Char) : Prop := 0x20 < c.toNat ∧ c.toNat < 0x7F ∧ c ≠ ','

instance (c : Char) : Decidable (Visible c) := inferInstanceAs (Decidable (_ ∧ _))

theorem isSeparator_of_visible (hc : Visible c) : isSeparator c = false := by
  obtain ⟨hlow, hhigh, hcomma⟩ := hc
  have hblank : Text.isBlank c = false := by
    simp only [Text.isBlank, Text.blankRanges, List.any_cons, List.any_nil, Bool.or_false,
      Bool.or_eq_false_iff, Bool.and_eq_false_imp, decide_eq_true_eq, decide_eq_false_iff_not]
    omega
  simp [isSeparator, hblank, hcomma]

theorem isToken_of_visible (hnonempty : s.toList ≠ []) (hall : ∀ c ∈ s.toList, Visible c) :
    IsToken s :=
  ⟨hnonempty, fun c hc => isSeparator_of_visible (hall c hc)⟩

theorem isToken_mnemonic (op : Opcode) : IsToken op.mnemonic := by
  refine isToken_of_visible ?_ ?_
  · cases op <;> simp [Opcode.mnemonic]
  · cases op <;> simp [Opcode.mnemonic, Visible]

theorem isToken_registerName (r : Register) : IsToken r.name := by
  refine isToken_of_visible ?_ ?_
  · cases r <;> simp [Register.name]
  · cases r <;> simp [Register.name, Visible]

/-! ## Numbers in digits -/

theorem visible_of_isDigit (h : c.isDigit = true) : Visible c ∧ c ≠ '-' ∧ c ≠ 'x' ∧ c ≠ 'X' := by
  have hcode : ∀ d : Char, c = d ↔ c.toNat = d.toNat := fun d => Char.toNat_inj.symm
  have hrange : 48 ≤ c.toNat ∧ c.toNat ≤ 57 := by
    simpa [Char.isDigit, UInt32.le_iff_toNat_le] using h
  simp only [Visible, ne_eq, hcode, Char.reduceToNat]
  omega

theorem digitBelow?_of_isDigit (h : c.isDigit = true) :
    Numeral.digitBelow? 10 c = some (c.toNat - '0'.toNat) := by
  have hdigit : '0' ≤ c ∧ c ≤ '9' := by
    simpa [Char.isDigit, Char.le_def] using h
  have hle : c.toNat ≤ 57 := UInt32.le_iff_toNat_le.1 hdigit.2
  rw [Numeral.digitBelow?, Numeral.digit?, if_pos hdigit, Option.filter_some, if_pos]
  simp only [Char.reduceToNat, decide_eq_true_eq]
  omega

theorem ofDigits?_of_isDigit (hnonempty : cs ≠ []) (hdigits : ∀ c ∈ cs, c.isDigit = true) :
    Numeral.ofDigits? 10 cs = some (Nat.ofDigitChars 10 cs 0) := by
  have hfold : ∀ (cs : List Char) (n : Nat), (∀ c ∈ cs, c.isDigit = true) →
      cs.foldlM (fun n c => (Numeral.digitBelow? 10 c).map (n * 10 + ·)) n =
        some (Nat.ofDigitChars 10 cs n) := by
    intro cs
    induction cs with
    | nil => intro n _; rfl
    | cons c cs ih =>
      intro n h
      obtain ⟨hc, hcs⟩ := List.forall_mem_cons.1 h
      rw [List.foldlM_cons, digitBelow?_of_isDigit hc, Option.map_some, Nat.mul_comm n]
      exact ih _ hcs
  cases cs with
  | nil => exact absurd rfl hnonempty
  | cons c cs => exact hfold (c :: cs) 0 hdigits

theorem isDigit_of_mem_toDigits (h : c ∈ Nat.toDigits 10 n) : c.isDigit = true :=
  Nat.isDigit_of_mem_toDigits (by decide) (by decide) h

/-- Digits in base ten are not taken for those of another base. -/
theorem magnitude?_toDigits (h : (n : Int) ≤ Numeral.maxSigned) :
    magnitude? (Nat.toDigits 10 n) = some (n : Int) := by
  have hrange : Numeral.minSigned ≤ (n : Int) := by
    rw [Numeral.minSigned]
    omega
  have hvalue : Numeral.decimal? (Nat.toDigits 10 n) = some (n : Int) := by
    rw [Numeral.decimal?, ofDigits?_of_isDigit Nat.toDigits_ne_nil fun c => isDigit_of_mem_toDigits,
      Nat.ofDigitChars_ten_toDigits, Option.bind_some, Numeral.inSignedRange, if_pos ⟨hrange, h⟩]
  have hsecond : ∀ c cs, Nat.toDigits 10 n = '0' :: c :: cs → c ≠ 'x' ∧ c ≠ 'X' := by
    intro c cs hdigits
    have hc : c.isDigit = true := isDigit_of_mem_toDigits (n := n) (by simp [hdigits])
    exact (visible_of_isDigit hc).2.2
  rw [← hvalue]
  unfold magnitude?
  split
  · rename_i hdigits
    exact absurd rfl (hsecond _ _ hdigits).1
  · rename_i hdigits
    exact absurd rfl (hsecond _ _ hdigits).2
  · rfl

theorem toList_immediateText_ofNat (n : Nat) :
    (immediateText (.ofNat n)).toList = '#' :: Nat.toDigits 10 n := by
  have htext : immediateText (.ofNat n) = "#" ++ toString n := rfl
  rw [htext, Nat.toString_eq_ofList_toDigits]
  simp

theorem toList_immediateText_negSucc (n : Nat) :
    (immediateText (.negSucc n)).toList = '#' :: '-' :: Nat.toDigits 10 (n + 1) := by
  have htext : immediateText (.negSucc n) = "#" ++ ("-" ++ toString (n + 1)) := rfl
  rw [htext, Nat.toString_eq_ofList_toDigits]
  simp

theorem head?_immediateText (v : Int) : (immediateText v).toList.head? = some '#' := by
  cases v with
  | ofNat n => exact congrArg List.head? (toList_immediateText_ofNat n)
  | negSucc n => exact congrArg List.head? (toList_immediateText_negSucc n)

theorem isToken_immediateText (v : Int) : IsToken (immediateText v) := by
  have hdigits : ∀ (n : Nat), ∀ c ∈ Nat.toDigits 10 n, Visible c := fun n c hc =>
    (visible_of_isDigit (isDigit_of_mem_toDigits hc)).1
  cases v with
  | ofNat n =>
    have htext := toList_immediateText_ofNat n
    refine isToken_of_visible ?_ ?_
    · rw [htext]
      exact List.cons_ne_nil _ _
    · rw [htext]
      exact List.forall_mem_cons.2 ⟨by decide, hdigits n⟩
  | negSucc n =>
    have htext := toList_immediateText_negSucc n
    refine isToken_of_visible ?_ ?_
    · rw [htext]
      exact List.cons_ne_nil _ _
    · rw [htext]
      exact List.forall_mem_cons.2
        ⟨by decide, List.forall_mem_cons.2 ⟨by decide, hdigits (n + 1)⟩⟩

/-- A number that was printed in digits is read back. -/
theorem immediate?_immediateText (h : (v.natAbs : Int) ≤ Numeral.maxSigned) :
    immediate? (immediateText v) = some v := by
  cases v with
  | ofNat n =>
    rw [immediate?, toList_immediateText_ofNat]
    split
    · rename_i cs hchars
      have hminus : '-' ∈ Nat.toDigits 10 n := by
        rw [(List.cons.inj hchars).2]
        exact List.mem_cons_self
      exact absurd rfl (visible_of_isDigit (isDigit_of_mem_toDigits hminus)).2.1
    · rename_i cs _ hchars
      rw [← (List.cons.inj hchars).2]
      exact magnitude?_toDigits h
    · rename_i hnone
      exact absurd rfl (hnone _)
  | negSucc n =>
    have hnumber : magnitude? (Nat.toDigits 10 (n + 1)) = some ((n + 1 : Nat) : Int) :=
      magnitude?_toDigits h
    rw [immediate?, toList_immediateText_negSucc]
    simp only [hnumber, Option.map_some]
    rfl

/-! ## Names -/

theorem visible_of_continuesName (h : continuesName c = true) :
    Visible c ∧ c ≠ '@' ∧ c ≠ '#' := by
  have hcode : ∀ d : Char, c = d ↔ c.toNat = d.toNat := fun d => Char.toNat_inj.symm
  simp only [continuesName, opensName, Char.isAlpha, Char.isUpper, Char.isLower, Char.isDigit,
    Bool.or_eq_true, Bool.and_eq_true, decide_eq_true_eq, beq_iff_eq, hcode, ne_eq,
    UInt32.le_iff_toNat_le, ge_iff_le, Visible, Char.reduceToNat, Char.toNat_val] at h ⊢
  omega

theorem of_isName (h : isName name = true) :
    name.toList ≠ [] ∧ ∀ c ∈ name.toList, Visible c ∧ c ≠ '@' ∧ c ≠ '#' := by
  simp only [isName] at h
  split at h
  · cases h
  · rename_i c cs hchars
    rw [Bool.and_eq_true, List.all_eq_true] at h
    rw [hchars]
    refine ⟨List.cons_ne_nil _ _, List.forall_mem_cons.2 ⟨?_, fun d hd => ?_⟩⟩
    · exact visible_of_continuesName (by rw [continuesName, h.1, Bool.true_or])
    · exact visible_of_continuesName (h.2 d hd)

theorem isToken_token {r : Reference} (h : isName r.name = true) : IsToken r.token := by
  obtain ⟨hnonempty, hall⟩ := of_isName h
  have hsuffix : ∀ c ∈ r.part.suffix.toList, Visible c := by
    cases r.part with
    | whole => simp [AddressPart.suffix]
    | low => simp [AddressPart.suffix, Visible]
    | high => simp [AddressPart.suffix, Visible]
  refine isToken_of_visible ?_ ?_
  · simp [Reference.token, hnonempty]
  · intro c hc
    rw [Reference.token, String.toList_append, List.mem_append] at hc
    rcases hc with hc | hc
    · exact (hall c hc).1
    · exact hsuffix c hc

theorem head?_token {r : Reference} (h : isName r.name = true) :
    r.token.toList.head? ≠ some '#' := by
  obtain ⟨hnonempty, hall⟩ := of_isName h
  obtain ⟨c, cs, hchars⟩ := List.exists_cons_of_ne_nil hnonempty
  have hc : c ≠ '#' := (hall c (by rw [hchars]; exact List.mem_cons_self)).2.2
  rw [Reference.token, String.toList_append, hchars]
  exact fun hhead => hc (Option.some.inj hhead)

end Assembly
end WordMachine
