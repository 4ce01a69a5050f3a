import WordMachine.Proofs.LoadedImage
import WordMachine.Proofs.Relinking
import WordMachine.Proofs.Execution

/-!
# WordMachine.Proofs.NamedOperands

What becomes of the names that are written for numbers. `Program.Names` says where the text of a
linked program has a name, whether the text was read or printed. The number there is the whole
address of what the name stands for in the linked program, or its lower or upper half, with nothing
cut off (`Program.Names.exact`): a number that is too great for its field does not link.

Reading is taken apart field by field (`Program.of_readOperands_cons`); whatever an entry came as,
its hidden operands repeat the operands before them (`Program.tied_of_link`).
-/

namespace WordMachine

open Outcome

namespace AddressPart

/-- The part of an address as a number. -/
def ofNumber : AddressPart → Nat → Nat
  | whole, n => n
  | low, n => n % 0x10000
  | high, n => n / 0x10000

theorem toNat_take (part : AddressPart) (a : Word) :
    (part.take a).toNat = part.ofNumber a.toNat := by
  cases part with
  | whole => rfl
  | low =>
    have hmask : (0xFFFF : Nat) = 2 ^ 16 - 1 := rfl
    show a.toNat &&& 0xFFFF = a.toNat % 0x10000
    rw [hmask, Nat.and_two_pow_sub_one_eq_mod]
  | high =>
    show (a >>> 16).toNat = a.toNat / 0x10000
    rw [BitVec.toNat_ushiftRight, Nat.shiftRight_eq_div_pow]

/-- A token that was put together from a name and a part is taken apart into them. -/
theorem split?_append_suffix {name : String} (hname : '@' ∉ name.toList) (part : AddressPart) :
    split? (name ++ part.suffix) = some (name, part) := by
  have hall : ∀ c ∈ name.toList, decide (c ≠ '@') = true := by
    intro c hc
    simpa using ne_of_mem_of_not_mem hc hname
  simp only [split?, String.toList_append, List.takeWhile_append_of_pos hall,
    List.dropWhile_append_of_pos hall]
  cases part with
  | whole => simp [suffix]
  | low => simp [suffix]
  | high => simp [suffix]

end AddressPart

namespace Format

/-- The fields that text has an operand for, each with the number of its operand. -/
def written (f : Format) : List (Field × Nat) := f.fields.zipIdx.filter (!·.1.hidden)

end Format

namespace Instruction

/-- Every hidden operand repeats the one before it. -/
def Tied (f : Format) (i : Instruction) : Prop :=
  ∀ n field, f.fields[n + 1]? = some field → field.hidden → i.operands[n + 1]? = i.operands[n]?

end Instruction

namespace Program

variable {s : InstructionSet} {p p' q : Program} {refs : List Reference} {f : Format}
  {rules : PlacementRules} {i : Instruction} {e e' : CodeEntry} {name token : String}
  {part : AddressPart} {n k : Nat} {v : Word}

/-! ## Reading operands -/

/-- How the operand of one field is read: a hidden one repeats the operand before it, any other one
takes a token. -/
theorem of_readOperands_cons {field : Field} {fields : List Field} {index : Nat}
    {previous : Option Operand} {tokens : List String} {xs : List Operand} {uses : List (Nat × Nat)}
    (h : p.readOperands refs f index previous (field :: fields) tokens = .ok (xs, uses)) :
    ∃ x ys us rest, xs = x :: ys ∧
      p.readOperands refs f (index + 1) (some x) fields rest = .ok (ys, us) ∧
        (field.hidden ∧ previous = some x ∧ rest = tokens ∨
          ¬ field.hidden ∧ ∃ token use, tokens = token :: rest ∧
            p.readOperand refs field.kind token = .ok (x, use)) := by
  simp only [readOperands] at h
  split at h
  · rename_i hhidden
    cases previous with
    | none => cases h
    | some x =>
      simp only [bind_ok_iff, pure_ok_iff, Prod.exists, Prod.mk.injEq] at h
      obtain ⟨ys, us, hys, rfl, -⟩ := h
      exact ⟨x, ys, us, tokens, rfl, hys, .inl ⟨hhidden, rfl, rfl⟩⟩
  · rename_i hvisible
    cases tokens with
    | nil => cases h
    | cons token rest =>
      simp only [bind_ok_iff, pure_ok_iff, Prod.exists, Prod.mk.injEq] at h
      obtain ⟨x, use, hx, ys, us, hys, rfl, -⟩ := h
      exact ⟨x, ys, us, rest, rfl, hys, .inr ⟨hvisible, token, use, rfl, hx⟩⟩

/-- Each visible operand is what its token reads as. -/
theorem operand_of_readOperands {field : Field} :
    ∀ {fields : List Field} {index : Nat} {previous : Option Operand} {tokens : List String}
      {xs : List Operand} {uses : List (Nat × Nat)},
      p.readOperands refs f index previous fields tokens = .ok (xs, uses) →
        ((field, n), token) ∈ ((fields.zipIdx index).filter (!·.1.hidden)).zip tokens →
          ∃ x use, p.readOperand refs field.kind token = .ok (x, use) ∧
            (x, n) ∈ xs.zipIdx index := by
  intro fields
  induction fields with
  | nil =>
    intro index previous tokens xs uses _ hmem
    cases hmem
  | cons first fields ih =>
    intro index previous tokens xs uses h hmem
    obtain ⟨x, ys, us, rest, rfl, hys, hfirst⟩ := of_readOperands_cons h
    rw [List.zipIdx_cons] at hmem ⊢
    rcases hfirst with ⟨hhidden, -, rfl⟩ | ⟨hvisible, first', use, rfl, hx⟩
    · rw [List.filter_cons_of_neg (by simpa using hhidden)] at hmem
      obtain ⟨y, use, hy, hn⟩ := ih hys hmem
      exact ⟨y, use, hy, List.mem_cons_of_mem _ hn⟩
    · rw [List.filter_cons_of_pos (by simpa using hvisible), List.zip_cons_cons,
        List.mem_cons] at hmem
      rcases hmem with heq | hmem
      · cases heq
        exact ⟨x, use, hx, List.mem_cons_self⟩
      · obtain ⟨y, use, hy, hn⟩ := ih hys hmem
        exact ⟨y, use, hy, List.mem_cons_of_mem _ hn⟩

theorem tied_of_readOperands {field : Field} :
    ∀ {fields : List Field} {n index : Nat} {previous : Option Operand} {tokens : List String}
      {xs : List Operand} {uses : List (Nat × Nat)},
      p.readOperands refs f index previous fields tokens = .ok (xs, uses) →
        fields[n + 1]? = some field → field.hidden → xs[n + 1]? = xs[n]? := by
  intro fields
  induction fields with
  | nil =>
    intro n index previous tokens xs uses _ hfield
    cases hfield
  | cons first fields ih =>
    intro n index previous tokens xs uses h hfield hhidden
    obtain ⟨x, ys, us, rest, rfl, hys, -⟩ := of_readOperands_cons h
    cases n with
    | succ n =>
      rw [List.getElem?_cons_succ] at hfield ⊢
      exact ih hys hfield hhidden
    | zero =>
      -- The operand before the second field is the one that was read first.
      cases fields with
      | nil => cases hfield
      | cons second fields =>
        cases hfield
        obtain ⟨y, zs, _, _, rfl, -, ⟨-, hprevious, -⟩ | ⟨hvisible, -⟩⟩ :=
          of_readOperands_cons hys
        · cases hprevious
          rfl
        · exact absurd hhidden hvisible

theorem tied_of_checkTied (h : checkTied .standard i = .ok ()) :
    i.Tied (Format.standard i.opcode) := by
  simp only [checkTied, InstructionSet.format, InstructionSet.format?_standard, bind_ok_iff,
    mapError_ok_iff, Except.ok.injEq] at h
  obtain ⟨f, rfl, h⟩ := h
  intro n field hfield hhidden
  by_contra hdiffers
  split at h
  · cases h
  · rename_i hnone
    rw [untied?, Option.map_eq_none_iff, List.find?_eq_none] at hnone
    have hmem : (field, n + 1) ∈ (Format.standard i.opcode).fields.zipIdx :=
      List.mk_mem_zipIdx_iff_getElem?.2 hfield
    have htied := hnone _ hmem
    simp [hhidden, hdiffers] at htied

/-- The format that a mnemonic asks for is that of the instruction it makes. -/
theorem readOperands_of_assemble_standard {line : String} {uses : List (Nat × Nat)}
    (h : p.assemble .standard refs line = .ok (i, uses)) :
    ∃ mnemonic tokens, Assembly.tokens line = mnemonic :: tokens ∧
      InstructionSet.standard.formatNamed? mnemonic = some (Format.standard i.opcode) ∧
        p.readOperands refs (Format.standard i.opcode) 0 none (Format.standardFields i.opcode)
          tokens = .ok (i.operands, uses) := by
  obtain ⟨mnemonic, tokens, f, xs, htokens, hf, rfl, hxs⟩ := readOperands_of_assemble h
  have hformat : f = Format.standard f.opcode := by
    rw [InstructionSet.formatNamed?, Option.bind_eq_some_iff] at hf
    obtain ⟨op, -, hop⟩ := hf
    rw [InstructionSet.format?_standard] at hop
    cases hop
    rfl
  rw [hformat] at hf hxs
  exact ⟨mnemonic, tokens, htokens, hf, hxs⟩

theorem tied_of_settles (h : Settles .standard p e e') (hi : e'.instruction = some i) :
    i.Tied (Format.standard i.opcode) := by
  cases h with
  | ofText _ ha _ =>
    cases hi
    obtain ⟨_, _, -, -, hread⟩ := readOperands_of_assemble_standard ha
    exact fun n field => tied_of_readOperands hread
  | ofInstruction _ hi' _ htied _ =>
    cases hi'.symm.trans hi
    exact tied_of_checkTied htied
  | ofFields _ _ _ _ htied _ =>
    cases hi
    exact tied_of_checkTied htied

/-! ## Addresses -/

/-- The address of what a name stands for. -/
def addressOf? (p : Program) (name : String) : Option Word :=
  (p.lookup? name).bind p.targetAddress?

/-- Whether references stand for what their names stand for in a program. -/
def Binds (p : Program) (refs : List Reference) : Prop := ∀ r ∈ refs, r.target = p.lookup? r.name

theorem binds_placedEntry {map : MemoryMap} :
    (p.bindReferences.placeAt map).Binds (p.placedEntry map k e).references := by
  intro r hr
  obtain ⟨r', -, rfl⟩ := List.mem_map.1 hr
  exact (lookup?_placeAt r'.name).symm

theorem name_of_findReference? (h : findReference? refs name part = some k) :
    ∃ r, refs[k]? = some r ∧ r.name = name := by
  rw [findReference?, Option.or_eq_some_iff] at h
  rcases h with h | ⟨-, h⟩
  · obtain ⟨hk, hname, -⟩ := List.findIdx?_eq_some_iff_getElem.1 h
    exact ⟨refs[k], List.getElem?_eq_getElem hk, (of_decide_eq_true hname).1⟩
  · obtain ⟨hk, hname, -⟩ := List.findIdx?_eq_some_iff_getElem.1 h
    exact ⟨refs[k], List.getElem?_eq_getElem hk, of_decide_eq_true hname⟩

/-- A named token stands for the part that it asks for, whatever part its reference has. -/
theorem value_of_namedValue (hbinds : p.Binds refs) (h : p.namedValue refs token = .ok (v, k))
    (hsplit : AddressPart.split? token = some (name, part)) :
    ∃ a, p.addressOf? name = some a ∧ v = part.take a := by
  obtain ⟨name', part', t, a, hsplit', hfind, htarget, ha, rfl⟩ := of_namedValue h
  cases hsplit.symm.trans hsplit'
  obtain ⟨r, hr, rfl⟩ := name_of_findReference? hfind
  have hlookup : p.lookup? r.name = some t := by
    rw [← hbinds r (List.mem_of_getElem? hr), ← htarget, hr]
    rfl
  exact ⟨a, by rw [addressOf?, hlookup, Option.bind_some, ha], rfl⟩

theorem value_of_readOperand {x : Operand} {use : Option Nat} (hbinds : p.Binds refs)
    (h : p.readOperand refs .immediate token = .ok (x, use))
    (hplain : token.toList.head? ≠ some '#')
    (hsplit : AddressPart.split? token = some (name, part)) :
    ∃ a, p.addressOf? name = some a ∧ x = .immediate (part.ofNumber a.toNat) := by
  simp only [readOperand, if_neg hplain, bind_ok_iff, pure_ok_iff, Prod.exists,
    Prod.mk.injEq] at h
  obtain ⟨v, k, hvalue, rfl, -⟩ := h
  obtain ⟨a, ha, rfl⟩ := value_of_namedValue hbinds hvalue hsplit
  exact ⟨a, ha, by rw [AddressPart.toNat_take]⟩

theorem value_of_referenceValue? {r : Reference} (hr : r.target = p.lookup? r.name)
    (h : p.referenceValue? r = some v) :
    ∃ a, p.addressOf? r.name = some a ∧ v.toNat = r.part.ofNumber a.toNat := by
  simp only [referenceValue?, hr, Option.bind_eq_bind, Option.bind_eq_some_iff, Option.pure_def,
    Option.some.injEq] at h
  obtain ⟨t, ht, a, ha, rfl⟩ := h
  refine ⟨a, ?_, AddressPart.toNat_take r.part a⟩
  rw [addressOf?, ht, Option.bind_some, ha]

/-! ## What linking leaves -/

/-- Every entry of a linked program was settled, with its references bound, in a program with the
names and addresses of the linked one. -/
theorem exists_settled_of_link (h : p.link s rules = .ok q) :
    ∃ placed, placed.lookup? = q.lookup? ∧ placed.targetAddress? = q.targetAddress? ∧
      ∀ (k : Nat) e, p.code[k]? = some e → ∃ e₀ e', q.code[k]? = some e' ∧ e₀.text = e.text ∧
        placed.Binds e₀.references ∧ Settles s placed e₀ e' := by
  obtain ⟨map, code, -, -, -, hcode, rfl⟩ := link_ok_iff.1 h
  obtain ⟨hlen, hall⟩ := of_settleFrom hcode
  have hsettles : ∀ (k : Nat) e₀, (p.bindReferences.placeAt map).code[k]? = some e₀ →
      ∃ e', code[k]? = some e' ∧ Settles s (p.bindReferences.placeAt map) e₀ e' := by
    intro k e₀ he₀
    obtain ⟨hk, -⟩ := List.getElem?_eq_some_iff.1 he₀
    have he' := List.getElem?_eq_getElem (hlen.symm ▸ hk)
    exact ⟨_, he', settles_of_settleEntry (hall k e₀ _ he₀ he')⟩
  refine ⟨p.bindReferences.placeAt map, rfl, ?_, ?_⟩
  · refine funext (targetAddress?_congr rfl rfl rfl fun k => ?_)
    rcases he₀ : (p.bindReferences.placeAt map).code[k]? with _ | e₀
    · have hnone : code[k]? = none := by
        rw [List.getElem?_eq_none_iff] at he₀ ⊢
        omega
      simp only [entryAddress?, he₀, hnone]
    · obtain ⟨e', he', hentry⟩ := hsettles k e₀ he₀
      simp only [entryAddress?, he₀, he', Option.bind_some, address_of_settles hentry]
  · intro k e he
    have he₀ : (p.bindReferences.placeAt map).code[k]? = some (p.placedEntry map k e) := by
      rw [getElem?_code_placeAt, he, Option.map_some]
    obtain ⟨e', he', hentry⟩ := hsettles k _ he₀
    exact ⟨p.placedEntry map k e, e', he', rfl, binds_placedEntry, hentry⟩

theorem Binds.noteUses {refs : List Reference} {uses : List (Nat × Nat)} (h : p.Binds refs) :
    p.Binds (noteUses refs uses) := by
  have hforget : (Program.noteUses refs uses).map (fun r => (r.name, r.target)) =
      refs.map fun r => (r.name, r.target) := map_noteUses_of_forgets fun _ _ => rfl
  intro r hr
  have hmem := List.mem_map_of_mem (f := fun r : Reference => (r.name, r.target)) hr
  rw [hforget, List.mem_map] at hmem
  obtain ⟨r', hr', heq⟩ := hmem
  obtain ⟨hname, htarget⟩ := Prod.mk.inj heq
  rw [← htarget, ← hname]
  exact h r' hr'

theorem binds_of_link (h : p.link s rules = .ok q) (he : e ∈ q.code) : q.Binds e.references := by
  obtain ⟨placed, hlookup, -, hall⟩ := exists_settled_of_link h
  obtain ⟨hlen, -⟩ := exists_of_link h
  obtain ⟨k, hk⟩ := List.getElem?_of_mem he
  obtain ⟨hlt, -⟩ := List.getElem?_eq_some_iff.1 hk
  obtain ⟨e₀, e', hk', -, hbinds, hsettles⟩ := hall k _ (List.getElem?_eq_getElem (hlen ▸ hlt))
  cases hk.symm.trans hk'
  have hbound : q.Binds e₀.references := fun r hr => by rw [hbinds r hr, hlookup]
  cases hsettles with
  | ofText _ _ _ => exact hbound.noteUses
  | ofInstruction _ _ _ _ _ => exact hbound
  | ofFields _ _ _ _ _ _ => exact hbound

theorem addressOf?_congr (hlookup : p.lookup? = p'.lookup?)
    (haddress : p.targetAddress? = p'.targetAddress?) : p.addressOf? = p'.addressOf? := by
  funext name
  rw [addressOf?, addressOf?, hlookup, haddress]

theorem referenceValue?_congr (haddress : p.targetAddress? = p'.targetAddress?) :
    p.referenceValue? = p'.referenceValue? := by
  funext r
  rw [referenceValue?, referenceValue?, haddress]

/-! ## Names in text -/

/-- The reference under which a number is printed at an operand. -/
def naming? (p : Program) (refs : List Reference) (operand : Nat) (v : Int) : Option Reference :=
  refs.find? fun r =>
    r.operand = some operand && (p.referenceValue? r).any fun w => (w.toNat : Int) = v

theorem naming?_congr (haddress : p.targetAddress? = p'.targetAddress?) :
    p.naming? = p'.naming? := by
  funext refs operand v
  rw [naming?, naming?, referenceValue?_congr haddress]

theorem referenceNames_eq_map_naming? {operand : Nat} {v : Int} :
    p.referenceNames refs operand v = (p.naming? refs operand v).map Reference.token := rfl

/-- The text of a code entry has a name, whole or with a part of its address, for the number at an
operand. An entry comes with text, or the text is printed when the program is linked. What is
printed is then the token of a reference, and it means the name and part of this reference. -/
inductive Names (p q : Program) (k operand : Nat) (name : String) (part : AddressPart) : Prop where
  | read {e : CodeEntry} {line mnemonic : String} {tokens : List String} {f : Format}
      {field : Field} (he : p.code[k]? = some e) (hline : e.text = some line)
      (htokens : Assembly.tokens line = mnemonic :: tokens)
      (hformat : InstructionSet.standard.formatNamed? mnemonic = some f)
      (htoken : ((field, operand), name ++ part.suffix) ∈ f.written.zip tokens)
      (hkind : field.kind = .immediate) (hname : '@' ∉ name.toList)
      (hplain : (name ++ part.suffix).toList.head? ≠ some '#')
  | printed {e e' : CodeEntry} {i : Instruction} {v : Int} {r : Reference}
      (he : p.code[k]? = some e) (hnone : e.text = none) (he' : q.code[k]? = some e')
      (hi : e'.instruction = some i) (hv : i.immediate? operand = some v)
      (hr : q.naming? e'.references operand v = some r) (hname : r.name = name)
      (hpart : r.part = part)

/-- The line that is printed consists of the mnemonic and these texts of the operands. -/
theorem text_of_printed (h : p.link .standard rules = .ok q) (he : p.code[k]? = some e)
    (hnone : e.text = none) : ∃ e' i, q.code[k]? = some e' ∧ e'.instruction = some i ∧
      e'.text = some (Assembly.render (q.referenceNames e'.references)
        (Format.standard i.opcode) i) := by
  obtain ⟨placed, -, haddress, hall⟩ := exists_settled_of_link h
  obtain ⟨e₀, e', he', htext, -, hsettles⟩ := hall k e he
  rw [hnone] at htext
  have hnames : placed.referenceNames = q.referenceNames := by
    funext refs operand v
    rw [referenceNames_eq_map_naming?, referenceNames_eq_map_naming?, naming?_congr haddress]
  cases hsettles with
  | ofText ht _ _ =>
    rw [htext] at ht
    cases ht
  | ofInstruction _ hi _ _ hl =>
    rw [print, InstructionSet.format, InstructionSet.format?_standard, hnames] at hl
    cases hl
    exact ⟨_, _, he', hi, rfl⟩
  | ofFields _ _ _ _ _ hl =>
    rw [print, InstructionSet.format, InstructionSet.format?_standard, hnames] at hl
    cases hl
    exact ⟨_, _, he', rfl, rfl⟩

theorem decode_of_settles {w : Word} (h : Settles .standard p e e') (hi : e'.instruction = some i)
    (hw : e'.HasWord .standard w) : InstructionSet.standard.decode w = .ok i := by
  obtain ⟨x, hx, hpack⟩ := hw
  rw [InstructionSet.decode_of_pack InstructionSet.sound_standard hpack]
  cases h with
  | ofText _ _ hx' =>
    cases hi
    cases hx
    exact InstructionSet.ofFields_of_toFields InstructionSet.sound_standard hx'
  | ofInstruction _ hi' hx' _ _ =>
    cases hi'.symm.trans hi
    cases hx
    exact InstructionSet.ofFields_of_toFields InstructionSet.sound_standard hx'
  | ofFields _ _ hf hx' _ _ =>
    cases hi
    cases hf.symm.trans hx
    exact hx'

/-! ## The numbers -/

/-- The instruction of the code entry at an index. -/
def entryInstruction? (p : Program) (k : Nat) : Option Instruction :=
  p.code[k]?.bind CodeEntry.instruction

theorem settles_of_entryInstruction (h : p.link s rules = .ok q)
    (hi : q.entryInstruction? k = some i) :
    ∃ placed e₀ e, q.code[k]? = some e ∧ e.instruction = some i ∧ Settles s placed e₀ e := by
  rw [entryInstruction?, Option.bind_eq_some_iff] at hi
  obtain ⟨e, he, hi⟩ := hi
  obtain ⟨hlen, map, hall⟩ := settles_of_link h
  obtain ⟨hk, -⟩ := List.getElem?_eq_some_iff.1 he
  rw [hlen] at hk
  exact ⟨_, _, e, he, hi, hall k _ e (List.getElem?_eq_getElem hk) he⟩

theorem tied_of_link (h : p.link .standard rules = .ok q) (hi : q.entryInstruction? k = some i) :
    i.Tied (Format.standard i.opcode) := by
  obtain ⟨_, _, e, -, hi, hsettles⟩ := settles_of_entryInstruction h hi
  exact tied_of_settles hsettles hi

/-- The word of an entry holds its instruction. -/
theorem decode_of_link {w : Word} (h : p.link .standard rules = .ok q)
    (hi : q.entryInstruction? k = some i) (he : q.code[k]? = some e) (hw : e.HasWord .standard w) :
    InstructionSet.standard.decode w = .ok i := by
  obtain ⟨_, _, e', he', hi, hsettles⟩ := settles_of_entryInstruction h hi
  cases he.symm.trans he'
  exact decode_of_settles hsettles hi hw

/-- A name that is read for a number stands for the part of the address that is written. -/
theorem number_of_assemble {line mnemonic : String} {tokens : List String}
    {uses : List (Nat × Nat)} {field : Field} (hbinds : p.Binds refs)
    (ha : p.assemble .standard refs line = .ok (i, uses))
    (htokens : Assembly.tokens line = mnemonic :: tokens)
    (hformat : InstructionSet.standard.formatNamed? mnemonic = some f)
    (htoken : ((field, n), name ++ part.suffix) ∈ f.written.zip tokens)
    (hkind : field.kind = .immediate) (hname : '@' ∉ name.toList)
    (hplain : (name ++ part.suffix).toList.head? ≠ some '#') :
    ∃ a, p.addressOf? name = some a ∧
      i.operands[n]? = some (.immediate (part.ofNumber a.toNat)) := by
  obtain ⟨mnemonic', tokens', htokens', hformat', hread⟩ := readOperands_of_assemble_standard ha
  cases htokens.symm.trans htokens'
  cases hformat.symm.trans hformat'
  obtain ⟨x, use, hx, hmem⟩ := operand_of_readOperands hread htoken
  rw [hkind] at hx
  have hsplit := AddressPart.split?_append_suffix hname part
  obtain ⟨a, haddress, rfl⟩ := value_of_readOperand hbinds hx hplain hsplit
  exact ⟨a, haddress, List.mk_mem_zipIdx_iff_getElem?.1 hmem⟩

/-- A number is printed under the name of an address only if it is that part of the address. -/
theorem number_of_naming? {r : Reference} {v : Int} (hbinds : p.Binds refs)
    (hv : i.immediate? n = some v) (hr : p.naming? refs n v = some r) :
    ∃ a, p.addressOf? r.name = some a ∧
      i.operands[n]? = some (.immediate (r.part.ofNumber a.toNat)) := by
  have hfound := List.find?_some hr
  simp only [Bool.and_eq_true, Option.any_eq_true, decide_eq_true_eq] at hfound
  obtain ⟨-, w, hvalue, rfl⟩ := hfound
  obtain ⟨a, ha, hnumber⟩ :=
    value_of_referenceValue? (hbinds r (List.mem_of_find?_eq_some hr)) hvalue
  refine ⟨a, ha, ?_⟩
  rw [Instruction.immediate?, Option.bind_eq_some_iff] at hv
  obtain ⟨x, hx, hxv⟩ := hv
  cases x with
  | register x => cases hxv
  | immediate x =>
    cases hxv
    rw [hx, hnumber]

/-- The number under a name is the part of the name's address that the text asks for. -/
theorem Names.exact (hn : Names p q k n name part)
    (h : p.link .standard rules = .ok q) :
    ∃ i a, q.entryInstruction? k = some i ∧ q.addressOf? name = some a ∧
      i.operands[n]? = some (.immediate (part.ofNumber a.toNat)) := by
  obtain ⟨placed, hlookup, haddress, hall⟩ := exists_settled_of_link h
  rw [← addressOf?_congr hlookup haddress]
  cases hn with
  | read he hline htokens hformat htoken hkind hname hplain =>
    obtain ⟨e₀, e', he', htext, hbinds, hsettles⟩ := hall k _ he
    rw [hline] at htext
    cases hsettles with
    | ofText ht ha _ =>
      cases htext.symm.trans ht
      obtain ⟨a, ha', hnumber⟩ :=
        number_of_assemble hbinds ha htokens hformat htoken hkind hname hplain
      refine ⟨_, a, ?_, ha', hnumber⟩
      rw [entryInstruction?, he']
      rfl
    | ofInstruction ht _ _ _ _ => cases htext.symm.trans ht
    | ofFields ht _ _ _ _ _ => cases htext.symm.trans ht
  | @printed e e' i v r he hnone he' hi hv hr hname hpart =>
    obtain ⟨e₀, e'', he'', htext₀, hbinds, hsettles⟩ := hall k e he
    cases he'.symm.trans he''
    have hrefs : placed.Binds e'.references := by
      cases hsettles with
      | ofText ht _ _ => cases (htext₀.trans hnone).symm.trans ht
      | ofInstruction _ _ _ _ _ => exact hbinds
      | ofFields _ _ _ _ _ _ => exact hbinds
    rw [← naming?_congr haddress] at hr
    obtain ⟨a, ha, hnumber⟩ := number_of_naming? hrefs hv hr
    subst hname hpart
    refine ⟨i, a, ?_, ha, hnumber⟩
    rw [entryInstruction?, he', Option.bind_some, hi]

end Program
end WordMachine
