import WordMachine.Proofs.PlacedProgram
import WordMachine.Proofs.Relocation

/-!
# WordMachine.Proofs.Relinking

Linking a program that has been linked before. Everything that linking leaves behind is forgotten
when it is linked again: targets are bound anew, addresses given anew, the debugging information
moves on, and text is read anew. What text reads does not depend on the operands noted at
references (`Program.namedValue_noteUses`), the operands depend on the text alone
(`Program.uses_of_assemble`), and noting them twice is noting them once
(`Program.noteUses_noteUses`).

So a program of which every entry has text links to the same, whether or not it has been linked
before (`Program.relink`).
-/

namespace WordMachine

open Outcome

namespace Reference

/-- The reference without the operand that it was used at. -/
def unnoted (r : Reference) : Reference := { r with operand := none }

end Reference

namespace Program

variable {s : InstructionSet} {p p' q : Program} {refs refs' : List Reference} {line token : String}
  {name : String} {part : AddressPart} {i i' : Nat} {v v' : Word} {f : Reference → Reference}
  {uses uses' : List (Nat × Nat)}

/-! ## Reading text anew -/

theorem findReference?_map (hname : ∀ r, (f r).name = r.name) (hpart : ∀ r, (f r).part = r.part) :
    findReference? (refs.map f) name part = findReference? refs name part := by
  simp only [findReference?, List.findIdx?_map, Function.comp_def, hname, hpart]

/-- What a name stands for depends on the name, part and target of references alone. -/
theorem namedValue_map (hname : ∀ r, (f r).name = r.name) (hpart : ∀ r, (f r).part = r.part)
    (htarget : ∀ r, (f r).target = r.target)
    (haddress : ∀ t, p.targetAddress? t = p'.targetAddress? t) :
    p.namedValue (refs.map f) token = p'.namedValue refs token := by
  have hget (i : Nat) :
      (refs.map f)[i]?.bind Reference.target = refs[i]?.bind Reference.target := by
    rw [List.getElem?_map]
    cases refs[i]? with
    | none => rfl
    | some r => exact htarget r
  simp only [namedValue, findReference?_map hname hpart, hget, haddress]

theorem readOperands_congr (h : ∀ token, p.namedValue refs token = p'.namedValue refs' token)
    {format : Format} :
    ∀ {fields : List Field} {index : Nat} {previous : Option Operand} {tokens : List String},
      p.readOperands refs format index previous fields tokens =
        p'.readOperands refs' format index previous fields tokens := by
  intro fields
  induction fields with
  | nil => intro index previous tokens; rfl
  | cons field fields ih =>
    intro index previous tokens
    simp only [readOperands, readOperand, h, ih]

theorem assemble_congr (h : ∀ token, p.namedValue refs token = p'.namedValue refs' token) :
    p.assemble s refs line = p'.assemble s refs' line := by
  simp only [assemble, readOperands_congr h]

/-- How a named token comes to stand for a number. -/
theorem of_namedValue (h : p.namedValue refs token = .ok (v, i)) :
    ∃ name part t a, AddressPart.split? token = some (name, part) ∧
      findReference? refs name part = some i ∧ refs[i]?.bind Reference.target = some t ∧
        p.targetAddress? t = some a ∧ v = part.take a := by
  simp only [namedValue] at h
  split at h
  · rename_i name part hsplit
    rw [throw_bind, guard_ok_iff] at h
    obtain ⟨-, h⟩ := h
    split at h
    · rename_i i' hfind
      split at h
      · rename_i t htarget
        split at h
        · rename_i a ha
          cases h
          exact ⟨name, part, t, a, hsplit, hfind, htarget, ha, rfl⟩
        · cases h
      · cases h
    · cases h
  · cases h

theorem use_of_readOperand {kind : OperandKind} {x x' : Operand} {use use' : Option Nat}
    (h : p.readOperand refs kind token = .ok (x, use))
    (h' : p'.readOperand refs kind token = .ok (x', use')) : use = use' := by
  cases kind with
  | register =>
    simp only [readOperand] at h h'
    split at h
    · cases h
      split at h'
      · cases h'
        rfl
      · cases h'
    · cases h
  | immediate =>
    simp only [readOperand] at h h'
    split at h
    · rename_i hhash
      rw [if_pos hhash] at h'
      split at h
      · cases h
        split at h'
        · cases h'
          rfl
        · cases h'
      · cases h
    · rename_i hhash
      rw [if_neg hhash] at h'
      simp only [bind_ok_iff, pure_ok_iff, Prod.exists] at h h'
      obtain ⟨v, i, hvalue, hi⟩ := h
      obtain ⟨v', i', hvalue', hi'⟩ := h'
      cases hi
      cases hi'
      obtain ⟨name, part, _, _, hsplit, hfind, -⟩ := of_namedValue hvalue
      obtain ⟨name', part', _, _, hsplit', hfind', -⟩ := of_namedValue hvalue'
      cases hsplit.symm.trans hsplit'
      exact hfind.symm.trans hfind'

theorem uses_of_readOperands {format : Format} :
    ∀ {fields : List Field} {index : Nat} {previous previous' : Option Operand}
      {tokens : List String} {xs xs' : List Operand} {uses uses' : List (Nat × Nat)},
      p.readOperands refs format index previous fields tokens = .ok (xs, uses) →
        p'.readOperands refs format index previous' fields tokens = .ok (xs', uses') →
          uses = uses' := by
  intro fields
  induction fields with
  | nil =>
    intro index previous previous' tokens xs xs' uses uses' h h'
    cases h
    cases h'
    rfl
  | cons field fields ih =>
    intro index previous previous' tokens xs xs' uses uses' h h'
    simp only [readOperands] at h h'
    split at h
    · rename_i hhidden
      rw [if_pos hhidden] at h'
      cases previous with
      | none => cases h
      | some x =>
        cases previous' with
        | none => cases h'
        | some x' =>
          simp only [bind_ok_iff, pure_ok_iff, Prod.exists, Prod.mk.injEq] at h h'
          obtain ⟨ys, us, hys, -, rfl⟩ := h
          obtain ⟨ys', us', hys', -, rfl⟩ := h'
          exact ih hys hys'
    · rename_i hhidden
      rw [if_neg hhidden] at h'
      cases tokens with
      | nil => cases h
      | cons token rest =>
        simp only [bind_ok_iff, pure_ok_iff, Prod.exists, Prod.mk.injEq] at h h'
        obtain ⟨x, use, hx, ys, us, hys, -, rfl⟩ := h
        obtain ⟨x', use', hx', ys', us', hys', -, rfl⟩ := h'
        rw [use_of_readOperand hx hx', ih hys hys']

theorem readOperands_of_assemble {x : Instruction} (h : p.assemble s refs line = .ok (x, uses)) :
    ∃ mnemonic tokens format xs, Assembly.tokens line = mnemonic :: tokens ∧
      s.formatNamed? mnemonic = some format ∧ x = ⟨format.opcode, xs⟩ ∧
        p.readOperands refs format 0 none format.fields tokens = .ok (xs, uses) := by
  simp only [assemble] at h
  split at h
  · cases h
  · rename_i mnemonic tokens htokens
    split at h
    · rename_i format hformat
      simp only [throw_bind, guard_ok_iff, bind_ok_iff, pure_ok_iff, Prod.exists,
        Prod.mk.injEq] at h
      obtain ⟨-, xs, us, hxs, rfl, rfl⟩ := h
      exact ⟨mnemonic, tokens, format, xs, htokens, hformat, rfl, hxs⟩
    · cases h

/-- Where references are used is written in the text, whatever they stand for. -/
theorem uses_of_assemble {x x' : Instruction} (h : p.assemble s refs line = .ok (x, uses))
    (h' : p'.assemble s refs line = .ok (x', uses')) : uses = uses' := by
  obtain ⟨mnemonic, tokens, format, xs, htokens, hformat, -, hxs⟩ := readOperands_of_assemble h
  obtain ⟨_, _, _, xs', htokens', hformat', -, hxs'⟩ := readOperands_of_assemble h'
  cases htokens.symm.trans htokens'
  cases hformat.symm.trans hformat'
  exact uses_of_readOperands hxs hxs'

/-! ## Noting uses -/

/-- The last operand at which a reference is used. -/
def lastUse? (k : Nat) : List (Nat × Nat) → Option Nat
  | [] => none
  | (i, operand) :: rest => (lastUse? k rest).or (if i = k then some operand else none)

theorem getElem?_noteUses :
    ∀ {uses : List (Nat × Nat)} {refs : List Reference} {k : Nat},
      (noteUses refs uses)[k]? =
        refs[k]?.map fun r => { r with operand := (lastUse? k uses).or r.operand } := by
  intro uses
  induction uses with
  | nil =>
    intro refs k
    simp [noteUses, lastUse?]
  | cons u uses ih =>
    intro refs k
    obtain ⟨i, operand⟩ := u
    have hcons : noteUses refs ((i, operand) :: uses) =
        noteUses (refs.modify i fun r => { r with operand := some operand }) uses := rfl
    rw [hcons, ih, List.getElem?_modify]
    cases refs[k]? with
    | none => rfl
    | some r =>
      simp only [Option.map_some, lastUse?, Option.map_eq_map]
      by_cases hi : i = k
      · simp [hi]
      · simp [hi]

theorem noteUses_noteUses : noteUses (noteUses refs uses) uses = noteUses refs uses := by
  refine List.ext_getElem? fun k => ?_
  rw [getElem?_noteUses, getElem?_noteUses, Option.map_map]
  simp only [Function.comp_def, ← Option.or_assoc, Option.or_self]

theorem map_noteUses
    (hf : ∀ (r : Reference) o, f { r with operand := o } = { f r with operand := o }) :
    (noteUses refs uses).map f = noteUses (refs.map f) uses := by
  have hoperand : ∀ r, (f r).operand = r.operand := by
    intro r
    have hsame : f r = { f r with operand := r.operand } := hf r r.operand
    rw [hsame]
  refine List.ext_getElem? fun k => ?_
  rw [List.getElem?_map, getElem?_noteUses, getElem?_noteUses, List.getElem?_map, Option.map_map,
    Option.map_map]
  congr 1
  funext r
  rw [Function.comp_apply, Function.comp_apply, hoperand]
  exact hf r _

theorem map_noteUses_of_forgets {β : Type} {f : Reference → β}
    (hf : ∀ (r : Reference) o, f { r with operand := o } = f r) :
    (noteUses refs uses).map f = refs.map f := by
  refine List.ext_getElem? fun k => ?_
  rw [List.getElem?_map, getElem?_noteUses, List.getElem?_map, Option.map_map]
  congr 1
  funext r
  exact hf r _

/-! ## Placing anew -/

variable {rules : PlacementRules} {map map' : MemoryMap} {e e' : CodeEntry}

theorem addressGlobals_addressGlobals :
    ∀ {gs : List Global} {a b : Word},
      addressGlobals a (addressGlobals b gs) = addressGlobals a gs := by
  intro gs
  induction gs with
  | nil => intro a b; rfl
  | cons g gs ih => intro a b; simp only [addressGlobals, ih]

theorem names_addressGlobals :
    ∀ {gs : List Global} {a : Word},
      (addressGlobals a gs).map Global.name = gs.map Global.name := by
  intro gs
  induction gs with
  | nil => intro a; rfl
  | cons g gs ih => intro a; simp only [addressGlobals, List.map_cons, ih]

theorem entryAddress?_placeAt {k : Nat} : (p.bindReferences.placeAt map).entryAddress? k =
    if k < p.code.length then some (map.codeStart + BitVec.ofNat 32 k * map.stride) else none := by
  rw [entryAddress?, getElem?_code_placeAt]
  by_cases hk : k < p.code.length
  · rw [List.getElem?_eq_getElem hk, if_pos hk]
    rfl
  · rw [List.getElem?_eq_none (Nat.le_of_not_lt hk), if_neg hk]
    rfl

/-- Placing moves what names stand for, and no name stands for anything else. -/
theorem lookup?_placeAt (name : String) :
    (p.bindReferences.placeAt map).lookup? name = p.lookup? name := by
  have hmap : ∀ gs : List Global, gs.findIdx? (·.name = name) =
      (gs.map Global.name).findIdx? (· = name) := fun gs => by
    rw [List.findIdx?_map]
    rfl
  have hglobals : (addressGlobals map.dataStart p.globals).findIdx? (·.name = name) =
      p.globals.findIdx? (·.name = name) := by
    rw [hmap, names_addressGlobals, ← hmap]
  simp only [lookup?, placeAt, bindReferences, hglobals]

/-- Names stand for what they stood for before the link. -/
theorem lookup?_of_link (h : p.link s rules = .ok q) (name : String) :
    q.lookup? name = p.lookup? name := by
  obtain ⟨map, code, -, -, -, -, rfl⟩ := link_ok_iff.1 h
  exact lookup?_placeAt name

/-- Placing a linked program leaves nothing of the link but the code. -/
theorem placeAt_of_link (h : p.link s rules = .ok q) (map' : MemoryMap) :
    q.bindReferences.placeAt map' =
      { p.bindReferences.placeAt map' with code := (q.bindReferences.placeAt map').code } := by
  obtain ⟨map, code, -, -, -, -, rfl⟩ := link_ok_iff.1 h
  simp only [placeAt, bindReferences, addressGlobals_addressGlobals, Option.map_map,
    Function.comp_def, DebugInfo.relocatedTo_relocatedTo]

theorem targetAddress?_congr (hfunctions : p.functions = p'.functions)
    (hglobals : p.globals = p'.globals) (hlabels : p.labels = p'.labels)
    (hentry : ∀ k, p.entryAddress? k = p'.entryAddress? k) (t : Target) :
    p.targetAddress? t = p'.targetAddress? t := by
  cases t with
  | function i => simp only [targetAddress?, hentry, hfunctions]
  | global i => simp only [targetAddress?, hglobals]
  | label i => simp only [targetAddress?, hentry, hlabels]

theorem targetAddress?_of_link (h : p.link s rules = .ok q) (map' : MemoryMap) (t : Target) :
    (q.bindReferences.placeAt map').targetAddress? t =
      (p.bindReferences.placeAt map').targetAddress? t := by
  obtain ⟨hlen, -⟩ := exists_of_link h
  have hentry : ∀ k, (q.bindReferences.placeAt map').entryAddress? k =
      (p.bindReferences.placeAt map').entryAddress? k := fun k => by
    rw [entryAddress?_placeAt, entryAddress?_placeAt, hlen]
  have hplaced := placeAt_of_link h map'
  refine targetAddress?_congr ?_ ?_ ?_ hentry t
  · rw [hplaced]
  · rw [hplaced]
  · rw [hplaced]

/-! ## Settling anew -/

variable {p₁ p₂ : Program} {k : Nat}

theorem settleEntry_of_text (ht : e.text = some line)
    (hbound : e.references.find? (·.target.isNone) = none) :
    p.settleEntry s e = p.assemble s e.references line >>= fun x =>
      (s.toFields x.1).mapError .coding >>= fun fields =>
        .ok { e with
          fields := some fields
          instruction := some x.1
          references := noteUses e.references x.2 } := by
  simp only [settleEntry, ht, hbound]
  rfl

theorem bound_of_settleEntry (h : p.settleEntry s e = .ok e') :
    e.references.find? (·.target.isNone) = none := by
  simp only [settleEntry] at h
  split at h
  · cases h
  · assumption

theorem rebind_noteUses (hlookup : ∀ name, q.lookup? name = p.lookup? name) :
    (noteUses (p.bindEntry e).references uses).map
      (fun r => { r with target := q.lookup? r.name }) =
        noteUses (p.bindEntry e).references uses := by
  have hrebound : (p.bindEntry e).references.map (fun r => { r with target := p.lookup? r.name }) =
      (p.bindEntry e).references := congrArg CodeEntry.references (bindEntry_bindEntry p e)
  simp only [hlookup]
  rw [map_noteUses fun _ _ => rfl]
  exact congrArg (noteUses · uses) hrebound

theorem placedEntry_settled (hlookup : ∀ name, q.lookup? name = p.lookup? name)
    {fields : Option FieldValues} {instruction : Option Instruction} :
    q.placedEntry map' k { p.placedEntry map k e with
      fields, instruction, references := noteUses (p.placedEntry map k e).references uses } =
        { p.placedEntry map' k e with
          fields, instruction
          references := noteUses (p.placedEntry map' k e).references uses } :=
  congrArg (fun references => ({ p.placedEntry map' k e with
    fields, instruction, references } : CodeEntry)) (rebind_noteUses hlookup)

theorem namedValue_noteUses (haddress : ∀ t, p.targetAddress? t = p'.targetAddress? t) :
    p.namedValue (noteUses refs uses) token = p'.namedValue refs token := by
  have hforget : ∀ {p p' : Program} {refs : List Reference},
      (∀ t, p.targetAddress? t = p'.targetAddress? t) →
        p.namedValue (refs.map Reference.unnoted) token = p'.namedValue refs token :=
    namedValue_map (fun _ => rfl) (fun _ => rfl) (fun _ => rfl)
  rw [← hforget haddress, ← hforget fun _ => rfl, map_noteUses_of_forgets fun _ _ => rfl]

theorem bound_noteUses (h : refs.find? (·.target.isNone) = none) :
    (noteUses refs uses).find? (·.target.isNone) = none := by
  have htargets : (noteUses refs uses).map Reference.target = refs.map Reference.target :=
    map_noteUses_of_forgets fun _ _ => rfl
  have hfind : ∀ rs : List Reference, rs.find? (·.target.isNone) = none ↔
      (rs.map Reference.target).find? Option.isNone = none := fun rs => by
    simp [List.find?_eq_none]
  rw [hfind, htargets, ← hfind, h]

/-- An entry that was settled by its text is settled again as it would have been the first time. -/
theorem settleEntry_relinked (ht : e.text = some line)
    (hlookup : ∀ name, q.lookup? name = p.lookup? name)
    (haddress : ∀ t, p₂.targetAddress? t = p'.targetAddress? t)
    (h : p₁.settleEntry s (p.placedEntry map k e) = .ok e') :
    p₂.settleEntry s (q.placedEntry map' k e') = p'.settleEntry s (p.placedEntry map' k e) := by
  have hbound := bound_of_settleEntry h
  have hbound' : (p.placedEntry map' k e).references.find? (·.target.isNone) = none := hbound
  have ht' : (p.placedEntry map' k e).text = some line := ht
  rw [settleEntry_of_text (show (p.placedEntry map k e).text = some line from ht) hbound] at h
  simp only [bind_ok_iff, mapError_ok_iff, Except.ok.injEq] at h
  obtain ⟨⟨i, uses⟩, hassemble, x, -, rfl⟩ := h
  have hagain : p₂.assemble s (noteUses (p.placedEntry map' k e).references uses) line =
      p'.assemble s (p.placedEntry map' k e).references line :=
    assemble_congr fun _ => namedValue_noteUses haddress
  have hsettled := settleEntry_of_text (p := p₂) (s := s)
    (e := { p.placedEntry map' k e with
      fields := some x
      instruction := some i
      references := noteUses (p.placedEntry map' k e).references uses })
    ht' (bound_noteUses hbound')
  rw [placedEntry_settled hlookup, hsettled, settleEntry_of_text ht' hbound', hagain]
  -- The text may fail to be read at the new place; where it is read, it uses what it used before.
  rcases hfresh : p'.assemble s (p.placedEntry map' k e).references line with _ | ⟨j, uses'⟩
  · rfl
  · cases uses_of_assemble hassemble hfresh
    simp only [ok_bind, noteUses_noteUses]

theorem settleFrom_congr :
    ∀ {es es' : List CodeEntry} {n : Nat}, es.length = es'.length →
      (∀ (k : Nat) e e', es[k]? = some e → es'[k]? = some e' →
        p.settleEntry s e = p'.settleEntry s e') →
          p.settleFrom s n es = p'.settleFrom s n es' := by
  intro es
  induction es with
  | nil =>
    intro es' n hlen _
    rw [List.length_eq_zero_iff.1 hlen.symm]
    rfl
  | cons e es ih =>
    intro es' n hlen hall
    cases es' with
    | nil => cases hlen
    | cons e' es' =>
      have hrest := ih (n := n + 1) (by simpa using hlen) fun k => hall (k + 1)
      simp only [settleFrom, hall 0 e e' rfl rfl, hrest]

/-! ## Linking anew -/

/-- Where all names are known and the initial bytes fit, only planning and settling can fail. -/
theorem link_of_known (hnames : p.unknownNames = [])
    (hinitial : ∀ g ∈ p.globals, g.initialSize ≤ g.size.toNat) :
    p.link s rules =
      (planMemory rules p.code.length (p.globals.map Global.size)).mapError .placement >>=
        fun map => ((p.bindReferences.placeAt map).settle s).mapError .code := by
  have hbind : p.bind.mapError LinkError.binding = .ok p.bindReferences := by
    rw [bound_iff.2 ⟨hnames, rfl⟩]
    rfl
  have hfind : p.bindReferences.globals.find?
      (fun g => decide (g.size.toNat < g.initialSize)) = none := by
    simpa [bindReferences] using hinitial
  have hlen : p.bindReferences.code.length = p.code.length := List.length_map ..
  have hplace : p.bindReferences.place rules =
      planMemory rules p.code.length (p.globals.map Global.size) >>= fun map =>
        .ok (p.bindReferences.placeAt map) := by
    simp only [place, hfind, hlen, unknownNames_bindReferences, hnames, ne_eq, not_true_eq_false,
      if_false, bindReferences_bindReferences]
    rfl
  simp only [link, hbind, ok_bind, hplace]
  cases planMemory rules p.code.length (p.globals.map Global.size) <;> rfl

theorem names_of_settles (h : Settles s p' (p.placedEntry map k e) e') :
    e'.references.map Reference.name = e.references.map Reference.name := by
  have hbound : (p.bindEntry e).references.map Reference.name = e.references.map Reference.name :=
    List.map_map ..
  cases h with
  | ofText _ _ _ => exact (map_noteUses_of_forgets fun _ _ => rfl).trans hbound
  | ofInstruction _ _ _ _ _ => exact hbound
  | ofFields _ _ _ _ _ _ => exact hbound

theorem unknownNames_of_link (h : p.link s rules = .ok q) : q.unknownNames = [] := by
  obtain ⟨hlen, map, hall⟩ := settles_of_link h
  obtain ⟨_, _, hnames, -⟩ := link_ok_iff.1 h
  have hsame : q.code.map (fun e => e.references.map Reference.name) =
      p.code.map fun e => e.references.map Reference.name := by
    refine List.ext_getElem (by simpa using hlen) fun k hq hp => ?_
    rw [List.length_map] at hq hp
    simp only [List.getElem_map]
    exact names_of_settles (hall k _ _ (List.getElem?_eq_getElem hp) (List.getElem?_eq_getElem hq))
  rw [← hnames]
  simp only [unknownNames, referencedNames, List.flatMap_def, hsame, lookup?_of_link h]

/-- Placed again, a linked program settles as the program does that it was linked from. -/
theorem settle_of_link (h : p.link s rules = .ok q) (htext : ∀ e ∈ p.code, e.text.isSome)
    (map' : MemoryMap) :
    (q.bindReferences.placeAt map').settle s = (p.bindReferences.placeAt map').settle s := by
  obtain ⟨hlen, map, -, hentries⟩ := exists_of_link h
  have hcode : (q.bindReferences.placeAt map').settleFrom s 0 (q.bindReferences.placeAt map').code =
      (p.bindReferences.placeAt map').settleFrom s 0 (p.bindReferences.placeAt map').code := by
    refine settleFrom_congr (by simpa [placeAt, bindReferences] using hlen) fun k _ _ he' he => ?_
    rw [getElem?_code_placeAt, Option.map_eq_some_iff] at he he'
    obtain ⟨e, hk, rfl⟩ := he
    obtain ⟨e', hk', rfl⟩ := he'
    obtain ⟨line, ht⟩ := Option.isSome_iff_exists.1 (htext e (List.mem_of_getElem? hk))
    exact settleEntry_relinked ht (lookup?_of_link h) (targetAddress?_of_link h map')
      (hentries k e e' hk hk')
  rw [settle, settle, hcode, placeAt_of_link h]

/-- **Relinking is linking afresh.** Where a program of which every entry has text links to another
one, that one links by any rules to what the program links to by them, or fails as the program
does. -/
theorem relink (hlink : p.link s rules = .ok q) (htext : ∀ e ∈ p.code, e.text.isSome)
    (rules' : PlacementRules) : q.link s rules' = p.link s rules' := by
  obtain ⟨hlen, -⟩ := exists_of_link hlink
  obtain ⟨map, hplaced⟩ := placedBy_of_link hlink
  obtain ⟨_, _, hnames, hinitial, -, -, hq⟩ := link_ok_iff.1 hlink
  have hinitial' : ∀ g ∈ q.globals, g.initialSize ≤ g.size.toNat := by
    intro g hg
    obtain ⟨k, hk⟩ := List.getElem?_of_mem hg
    exact (hplaced.globals k g hk).2
  have hsizes : q.globals.map Global.size = p.globals.map Global.size := by
    rw [← hq]
    exact sizes_addressGlobals
  rw [link_of_known (unknownNames_of_link hlink) hinitial', link_of_known hnames hinitial, hlen,
    hsizes]
  simp only [settle_of_link hlink htext]

/-- Text that refers to a global, with what an earlier link may have left, and a line of source. -/
def relocatable : Program where
  fileName := "unit.o"
  code := [
    { text := some "movimm16l counter@lo, r3"
      references := [{ name := "counter", part := .low, target := some (.label 7) }] },
    { text := some "halt", address := some 0x5000, instruction := some ⟨.nop, []⟩ }]
  globals := [{ name := "counter", size := 4 }]
  debugInfo := some { lines := ⟨[(0xFFFFFFFC, ⟨"unit.c", 1⟩)], by decide⟩, origin := 0xFFFFFFF8 }

theorem relink_relocatable : ∃ q q' d, relocatable.link .standard {} = .ok q ∧
    q.link .standard { base := 0x8000 } = .ok q' ∧
      relocatable.link .standard { base := 0x8000 } = .ok q' ∧
        q'.code.map CodeEntry.address = [some 0x8000, some 0x8004] ∧
          q'.code.map CodeEntry.instruction =
            [some ⟨.movImm16L, [.immediate 0x8008, .register .r3]⟩, some ⟨.halt, []⟩] ∧
            q'.debugInfo = some d ∧ d.exactLocation? 0x8004 = some ⟨"unit.c", 1⟩ := by
  obtain ⟨q, q', d, hlink, hother, hrest⟩ : ∃ q q' d, relocatable.link .standard {} = .ok q ∧
      relocatable.link .standard { base := 0x8000 } = .ok q' ∧
        q'.code.map CodeEntry.address = [some 0x8000, some 0x8004] ∧
          q'.code.map CodeEntry.instruction =
            [some ⟨.movImm16L, [.immediate 0x8008, .register .r3]⟩, some ⟨.halt, []⟩] ∧
            q'.debugInfo = some d ∧ d.exactLocation? 0x8004 = some ⟨"unit.c", 1⟩ :=
    ⟨_, _, _, rfl, rfl, by decide +kernel, by decide +kernel, rfl, by decide +kernel⟩
  exact ⟨q, q', d, hlink, (relink hlink (by decide) _).trans hother, hother, hrest⟩

end Program
end WordMachine
