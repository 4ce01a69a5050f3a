import WordMachine.Proofs.PrintedText

/-!
# WordMachine.Proofs.LinkedAgain

Linking what was linked, by the same rules. The first link leaves text at every entry, so the second
one reads each of them, also those that came as instructions. What it reads there was printed by the
first link: it comes to the instruction again (`Program.assemble_of_print`) and so to the same field
values. Only the operands noted at references can differ: where several references have a name, the
one that was printed need not be the one that reading finds first.

`Program.link_again` asks for names that can be read, as far as they can be printed at all: those of
references that were noted at an operand of an entry without text. Any other name is printed all the
same, and then the second link fails where the first one did not.
-/

namespace WordMachine

open Outcome InstructionSet

namespace CodeEntry

/-- The entry without the operands that its references were used at. -/
def unnoted (e : CodeEntry) : CodeEntry :=
  { e with references := e.references.map Reference.unnoted }

/-- An entry that has text, or of which no reference is noted at an operand under a name that text
cannot have. -/
def Writable (e : CodeEntry) : Prop :=
  e.text = none → ∀ r ∈ e.references, r.operand.isSome → Assembly.isName r.name = true

instance (e : CodeEntry) : Decidable e.Writable :=
  inferInstanceAs (Decidable (_ → ∀ r ∈ e.references, _ → _))

end CodeEntry

namespace Program

variable {s : InstructionSet} {p p' q : Program} {rules : PlacementRules} {map : MemoryMap}
  {e e' : CodeEntry} {k : Nat}

/-- A linked entry is bound and placed already. -/
theorem placedEntry_placedEntry (hlookup : ∀ name, q.lookup? name = p.lookup? name) :
    q.placedEntry map k (p.placedEntry map k e) = p.placedEntry map k e := by
  simp [placedEntry, bindEntry, hlookup]

theorem namedValue_congr {refs : List Reference} {token : String}
    (haddress : ∀ t, p.targetAddress? t = p'.targetAddress? t) :
    p.namedValue refs token = p'.namedValue refs token := by
  have hsame : p.namedValue (refs.map id) token = p'.namedValue refs token :=
    namedValue_map (fun _ => rfl) (fun _ => rfl) (fun _ => rfl) haddress
  rwa [List.map_id] at hsame

/-- An entry with text that reads as its instruction is settled as it is. -/
theorem settleEntry_of_agreeing {line : String} {x : FieldValues} {i : Instruction}
    {uses : List (Nat × Nat)} (ht : e.text = some line) (hf : e.fields = some x)
    (hi : e.instruction = some i) (hbound : e.references.find? (·.target.isNone) = none)
    (ha : p.assemble s e.references line = .ok (i, uses)) (hx : s.toFields i = .ok x) :
    ∃ e', p.settleEntry s e = .ok e' ∧ e'.unnoted = e.unnoted := by
  have hforget : (noteUses e.references uses).map Reference.unnoted =
      e.references.map Reference.unnoted := map_noteUses_of_forgets fun _ _ => rfl
  refine ⟨{ e with references := noteUses e.references uses }, ?_, ?_⟩
  · rw [settleEntry_of_text ht hbound, ha, ok_bind, hx, hi, hf]
    rfl
  · rw [CodeEntry.unnoted, CodeEntry.unnoted, hforget]

/-- Settled once, an entry settles in the same way again, the operands of its references apart. -/
theorem settleEntry_again (hforms : e.text.isSome ∨ e.instruction.isSome) (hnames : e.Writable)
    (hlookup : ∀ name, q.lookup? name = p.lookup? name)
    (haddress : ∀ t, p'.targetAddress? t = (p.bindReferences.placeAt map).targetAddress? t)
    (h : (p.bindReferences.placeAt map).settleEntry .standard (p.placedEntry map k e) = .ok e') :
    ∃ e'', p'.settleEntry .standard (q.placedEntry map k e') = .ok e'' ∧
      e''.unnoted = e'.unnoted := by
  cases htext : e.text with
  | some line =>
    exact ⟨e', (settleEntry_relinked htext hlookup haddress h).trans h, rfl⟩
  | none =>
    rw [htext, Option.isSome_none] at hforms
    have hbound := bound_of_settleEntry h
    cases settles_of_settleEntry h with
    | ofText ht _ _ => cases htext.symm.trans ht
    | ofFields _ hi _ _ _ _ =>
      have hnone : e.instruction = none := hi
      rw [hnone] at hforms
      simp at hforms
    | @ofInstruction line i x _ hi hx htied hl =>
      have hwritable : ∀ r ∈ (p.placedEntry map k e).references, r.operand.isSome →
          Assembly.isName r.name = true := by
        intro r hr
        obtain ⟨r', hr', rfl⟩ := List.mem_map.1 hr
        exact hnames htext r' hr'
      obtain ⟨uses, ha⟩ := assemble_of_print sound_standard (format?_standard i.opcode)
        (not_hidden_first_of_ofFormats ofFormats_standard (format?_standard i.opcode))
        binds_placedEntry hwritable hx (tied_of_checkTied htied) hl
      have hagain : p'.assemble .standard (p.placedEntry map k e).references line =
          .ok (i, uses) := by
        rw [← ha]
        exact assemble_congr fun token => namedValue_congr haddress
      -- The entry has its place and its text from the first link, and this time the text decides.
      have hplaced : q.placedEntry map k
          { p.placedEntry map k e with text := some line, fields := some x } =
            { p.placedEntry map k e with text := some line, fields := some x } :=
        congrArg (fun e => ({ e with text := some line, fields := some x } : CodeEntry))
          (placedEntry_placedEntry hlookup)
      rw [hplaced]
      exact settleEntry_of_agreeing rfl rfl hi hbound hagain hx

theorem exists_settleFrom {es₀ : List CodeEntry} :
    ∀ {es : List CodeEntry} {n : Nat}, es.length = es₀.length →
      (∀ (k : Nat) e e₀, es[k]? = some e → es₀[k]? = some e₀ →
        ∃ e', p.settleEntry s e = .ok e' ∧ e'.unnoted = e₀.unnoted) →
          ∃ es', p.settleFrom s n es = .ok es' ∧
            es'.map CodeEntry.unnoted = es₀.map CodeEntry.unnoted := by
  induction es₀ with
  | nil =>
    intro es n hlen _
    rw [List.length_eq_zero_iff.1 hlen]
    exact ⟨[], rfl, rfl⟩
  | cons e₀ es₀ ih =>
    intro es n hlen hall
    cases es with
    | nil => cases hlen
    | cons e es =>
      obtain ⟨e', he', hsame⟩ := hall 0 e e₀ rfl rfl
      have hrest : ∃ es', p.settleFrom s (n + 1) es = .ok es' ∧
          es'.map CodeEntry.unnoted = es₀.map CodeEntry.unnoted :=
        ih (Nat.succ.inj hlen) fun k => hall (k + 1)
      obtain ⟨es', hes', hsames⟩ := hrest
      refine ⟨e' :: es', ?_, by rw [List.map_cons, List.map_cons, hsame, hsames]⟩
      simp only [settleFrom, he', hes', Except.mapError, ok_bind]
      rfl

theorem settle_again (h : p.link .standard rules = .ok q)
    (hmap : planMemory rules p.code.length (p.globals.map Global.size) = .ok map)
    (hforms : ∀ e ∈ p.code, e.text.isSome ∨ e.instruction.isSome)
    (hnames : ∀ e ∈ p.code, e.Writable) :
    ∃ code, (q.bindReferences.placeAt map).settleFrom .standard 0
      (q.bindReferences.placeAt map).code = .ok code ∧
        code.map CodeEntry.unnoted = q.code.map CodeEntry.unnoted := by
  obtain ⟨hlen, map', hmap', hentries⟩ := exists_of_link h
  cases hmap.symm.trans hmap'
  refine exists_settleFrom (by simp [placeAt, bindReferences]) fun k e₁ e' he₁ he' => ?_
  rw [getElem?_code_placeAt, he', Option.map_some] at he₁
  cases he₁
  obtain ⟨hk, -⟩ := List.getElem?_eq_some_iff.1 he'
  have he := List.getElem?_eq_getElem (hlen ▸ hk)
  have hmem := List.mem_of_getElem? he
  exact settleEntry_again (hforms _ hmem) (hnames _ hmem) (lookup?_of_link h)
    (targetAddress?_of_link h map) (hentries k _ e' he he')

/-- A linked program is planned as it was before, so that only its code can fail to settle. -/
theorem link_of_link (h : p.link s rules = .ok q)
    (hmap : planMemory rules p.code.length (p.globals.map Global.size) = .ok map) :
    q.link s rules = ((q.bindReferences.placeAt map).settle s).mapError .code := by
  obtain ⟨hlen, -⟩ := exists_of_link h
  obtain ⟨_, hplaced⟩ := placedBy_of_link h
  obtain ⟨_, _, -, -, -, -, hq⟩ := link_ok_iff.1 h
  have hinitial : ∀ g ∈ q.globals, g.initialSize ≤ g.size.toNat := by
    intro g hg
    obtain ⟨k, hk⟩ := List.getElem?_of_mem hg
    exact (hplaced.globals k g hk).2
  have hsizes : q.globals.map Global.size = p.globals.map Global.size := by
    rw [← hq]
    exact sizes_addressGlobals
  rw [link_of_known (unknownNames_of_link h) hinitial, hlen, hsizes, hmap]
  rfl

/-- **A linked program links again.** Where every entry of a program has text or an instruction and
every name that may be printed can be read, linking the linked program by the same rules succeeds.
It changes no place and no form of any entry, nor anything else but the operands noted at
references. -/
theorem link_again (h : p.link .standard rules = .ok q)
    (hforms : ∀ e ∈ p.code, e.text.isSome ∨ e.instruction.isSome)
    (hnames : ∀ e ∈ p.code, e.Writable) :
    ∃ code, q.link .standard rules = .ok { q with code } ∧
      code.map CodeEntry.unnoted = q.code.map CodeEntry.unnoted := by
  obtain ⟨map, _, -, -, hmap, -, hq⟩ := link_ok_iff.1 h
  obtain ⟨code, hcode, hsame⟩ := settle_again h hmap hforms hnames
  have hrest : { q.bindReferences.placeAt map with code } = { q with code } := by
    rw [placeAt_of_link h, ← hq]
  refine ⟨code, ?_, hsame⟩
  rw [link_of_link h hmap, settle, hcode, ok_bind, hrest]
  rfl

/-- Instructions that are printed with both halves of an address, under a name that can be read. The
other name cannot be read, but nothing says that it is written anywhere. -/
def halved : Program where
  fileName := "unit.o"
  code := [
    { instruction := some ⟨.movImm16L, [.immediate 0xC, .register .r3]⟩
      references := [
        { name := "counter" }, { name := "counter", part := .low, operand := some 0 }] },
    { instruction := some ⟨.movImm16H, [.immediate 2, .register .r3, .register .r3]⟩
      references := [
        { name := "my-var" }, { name := "counter", part := .high, operand := some 0 }] },
    { text := some "halt" }]
  globals := [{ name := "counter", size := 4 }, { name := "my-var", size := 4 }]

theorem link_again_halved : ∃ q code, halved.link .standard { base := 0x20000 } = .ok q ∧
    q.code.map CodeEntry.text =
      [some "MOVIMM16L counter@lo, r3", some "MOVIMM16H counter@hi, r3", some "halt"] ∧
    q.link .standard { base := 0x20000 } = .ok { q with code } ∧
    code.map CodeEntry.unnoted = q.code.map CodeEntry.unnoted := by
  obtain ⟨q, hlink, htext⟩ : ∃ q, halved.link .standard { base := 0x20000 } = .ok q ∧
      q.code.map CodeEntry.text =
        [some "MOVIMM16L counter@lo, r3", some "MOVIMM16H counter@hi, r3", some "halt"] :=
    ⟨_, rfl, by decide +kernel⟩
  obtain ⟨code, hagain, hsame⟩ := link_again hlink (by decide) (by decide)
  exact ⟨q, code, hlink, htext, hagain, hsame⟩

/-- An instruction that is printed under a name that cannot be read. -/
def misnamed : Program where
  fileName := "unit.o"
  code := [
    { instruction := some ⟨.movImm16L, [.immediate 0x1004, .register .r0]⟩
      references := [{ name := "my-var", operand := some 0 }] }]
  globals := [{ name := "my-var", size := 4 }]

/-- Not every linked program links again: printing asks nothing of names. -/
theorem exists_not_link_again :
    ¬ ∀ (p q : Program) (rules : PlacementRules), p.link .standard rules = .ok q →
      (∀ e ∈ p.code, e.text.isSome ∨ e.instruction.isSome) →
        ∃ code, q.link .standard rules = .ok { q with code } ∧
          code.map CodeEntry.unnoted = q.code.map CodeEntry.unnoted := by
  intro hclaim
  have hlink : ∃ q e, misnamed.link .standard {} = .ok q ∧ q.link .standard {} = .error e :=
    ⟨_, _, rfl, rfl⟩
  obtain ⟨q, e, hq, hagain⟩ := hlink
  obtain ⟨code, hok, -⟩ := hclaim misnamed q {} hq (by decide)
  cases hagain.symm.trans hok

end Program
end WordMachine
