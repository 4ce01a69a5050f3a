import Mathlib
import WordMachine.Proofs.SoundFormats

/-!
# WordMachine.Proofs.AdmittedFormats

Which lists of formats are instruction sets: those of which each format is admissible
(`Format.Admissible`) and no two have one opcode. `Format.Admissible` speaks of the sets of bits
that the fields take up and not of the checks, their order or the numbers that they compare.

* `Format.sum_width_le`: fields that lie apart take up no more bits together than there are, so that
  the check of the whole word never refuses what the checks of its fields let pass;
* `Format.check_ok_iff_admissible`: the checks of a format accept exactly the admissible ones;
* `InstructionSet.checkAllInBytes_eq`: the sums that the checks form are bytes. The checks are
  stated a second time with every such sum taken in a byte (`Field.stopByte`), where one that is
  none would end them, and come to the same.

`InstructionSet.ofFormats_exact` puts them together.
-/

namespace WordMachine

open Outcome

/-! ## Fields as sets of bits -/

namespace Field

/-- The bits of the word that the field takes up. -/
def bits (f : Field) : Finset ℕ := Finset.Ico f.position (f.position + f.width)

variable {f g : Field}

theorem card_bits : f.bits.card = f.width := by
  rw [bits, Nat.card_Ico, Nat.add_sub_cancel_left]

theorem disjoint_bits_iff (hf : 0 < f.width) (hg : 0 < g.width) :
    Disjoint f.bits g.bits ↔ ¬ f.Overlaps g := by
  rw [bits, bits, ← Finset.disjoint_coe, Finset.coe_Ico, Finset.coe_Ico, Set.Ico_disjoint_Ico,
    Overlaps, stop, stop]
  omega

theorem bits_subset_iff (hf : 0 < f.width) {m n : ℕ} :
    f.bits ⊆ Finset.Ico m n ↔ m ≤ f.position ∧ f.stop ≤ n := by
  rw [bits, Finset.Ico_subset_Ico_iff (by omega), stop]

end Field

namespace Format

variable {f : Format}

/-- A format that fits the word: no field is empty, all of them lie above the opcode, no two of
them share a bit, and every hidden one follows one of its kind that is no wider. -/
structure Admissible (f : Format) : Prop where
  nonempty : ∀ g ∈ f.fields, 1 ≤ g.width
  inWord : ∀ g ∈ f.fields, g.bits ⊆ Finset.Ico 5 32
  disjoint : f.fields.Pairwise fun g h => Disjoint g.bits h.bits
  repeats : ∀ n g, f.fields[n]? = some g → g.hidden →
    ∃ k p, n = k + 1 ∧ f.fields[k]? = some p ∧ p.kind = g.kind ∧ p.width ≤ g.width

/-! ## The whole word -/

/-- Sets of bits that lie apart are no larger together than a set in which all of them lie. -/
theorem sum_width_le :
    ∀ {fs : List Field} {s : Finset ℕ}, (fs.Pairwise fun g h => Disjoint g.bits h.bits) →
      (∀ g ∈ fs, g.bits ⊆ s) → (fs.map Field.width).sum ≤ s.card := by
  intro fs
  induction fs with
  | nil => intro s _ _; exact Nat.zero_le _
  | cons f fs ih =>
    intro s hpair hin
    obtain ⟨hfirst, hpair⟩ := List.pairwise_cons.1 hpair
    obtain ⟨hf, hin⟩ := List.forall_mem_cons.1 hin
    -- The other fields lie in what the first one leaves over.
    have hrest := ih hpair fun g hg => Finset.subset_sdiff.2 ⟨hin g hg, (hfirst g hg).symm⟩
    have hcard := Finset.card_sdiff_add_card_eq_card hf
    rw [Field.card_bits] at hcard
    rw [List.map_cons, List.sum_cons]
    omega

theorem operandBits_eq_sum (f : Format) : f.operandBits = (f.fields.map Field.width).sum := by
  rw [operandBits, List.sum, List.foldr_map]

theorem Admissible.operandBits_le (h : f.Admissible) : f.operandBits ≤ 27 := by
  rw [operandBits_eq_sum]
  exact sum_width_le h.disjoint h.inWord

/-! ## Checks and sets of bits -/

theorem repeatsFrom_iff :
    ∀ {fs : List Field} {previous : Option Field}, RepeatsFrom previous fs ↔
      ∀ (n : ℕ) (g : Field), fs[n]? = some g → g.hidden →
        CanRepeat (previous :: fs.map some)[n]?.join g := by
  intro fs
  induction fs with
  | nil => intro previous; simp [RepeatsFrom]
  | cons f fs ih =>
    intro previous
    rw [RepeatsFrom, ih]
    constructor
    · rintro ⟨hf, hrest⟩ n g hg hhidden
      cases n with
      | zero => cases hg; exact hf hhidden
      | succ n => exact hrest n g hg hhidden
    · intro h
      exact ⟨h 0 f rfl, fun n => h (n + 1)⟩

theorem sound_iff : f.Sound ↔ (∀ g ∈ f.fields, 1 ≤ g.width) ∧
    (∀ g ∈ f.fields, g.bits ⊆ Finset.Ico 5 32) ∧
      f.fields.Pairwise fun g h => Disjoint g.bits h.bits := by
  constructor
  · rintro ⟨hword, hapart⟩
    refine ⟨fun g hg => (hword g hg).positive, fun g hg => ?_, ?_⟩
    · obtain ⟨hpos, habove, hinside⟩ := hword g hg
      exact (Field.bits_subset_iff hpos).2 ⟨habove, hinside⟩
    · exact hapart.imp_of_mem fun hg hh =>
        (Field.disjoint_bits_iff (hword _ hg).positive (hword _ hh).positive).2
  · rintro ⟨hpos, hin, hdisjoint⟩
    refine ⟨fun g hg => ?_, ?_⟩
    · obtain ⟨habove, hinside⟩ := (Field.bits_subset_iff (hpos g hg)).1 (hin g hg)
      exact ⟨hpos g hg, habove, hinside⟩
    · exact hdisjoint.imp_of_mem fun hg hh =>
        (Field.disjoint_bits_iff (hpos _ hg) (hpos _ hh)).1

theorem repeats_iff : RepeatsFrom none f.fields ↔
    ∀ (n : ℕ) (g : Field), f.fields[n]? = some g → g.hidden →
      ∃ k p, n = k + 1 ∧ f.fields[k]? = some p ∧ p.kind = g.kind ∧ p.width ≤ g.width := by
  rw [repeatsFrom_iff]
  refine forall_congr' fun n => forall_congr' fun g => imp_congr_right fun hg =>
    imp_congr_right fun _ => ?_
  cases n with
  | zero => simp [CanRepeat]
  | succ k =>
    have hk : k < f.fields.length := by
      have := (List.getElem?_eq_some_iff.1 hg).1
      omega
    simp [CanRepeat, hk]

theorem check_ok_iff_admissible : f.check = .ok () ↔ f.Admissible := by
  rw [check_ok_iff, sound_iff, repeats_iff]
  constructor
  · rintro ⟨-, ⟨hpos, hin, hdisjoint⟩, hrepeats⟩
    exact ⟨hpos, hin, hdisjoint, hrepeats⟩
  · intro h
    have hbits : Opcode.bits + f.operandBits ≤ 32 := Nat.add_le_add_left h.operandBits_le _
    exact ⟨hbits, ⟨h.nonempty, h.inWord, h.disjoint⟩, h.repeats⟩

end Format

/-! ## Sums in bytes -/

/-- How a check that adds in bytes ends other than well: with a sum that is no byte, or with what
the check finds. -/
inductive ByteError where
  | overflow
  | format (e : FormatError)

/-- The first bit past the field, if its number is a byte. -/
def Field.stopByte (f : Field) : Except ByteError Nat :=
  if f.stop < 2 ^ 8 then pure f.stop else throw .overflow

theorem Field.InWord.stopByte {f : Field} (h : f.InWord) : f.stopByte = .ok f.stop :=
  if_pos (Nat.lt_of_le_of_lt h.inside (by decide))

namespace Format

variable {op : Opcode} {earlier fs : List Field} {f : Field}

/-- The first of some fields that the bits from `start` up to `stop` run into, by its number, where
the numbers begin with `k`. -/
def firstOverlap (start stop k : Nat) : List Field → Except ByteError (Option Nat)
  | [] => pure none
  | g :: gs => do
    let other ← g.stopByte
    if start < other ∧ g.position < stop then pure (some k)
    else firstOverlap start stop (k + 1) gs

/-- Checks one field as `checkField` does, with the ends of fields in bytes. -/
def checkFieldInBytes (op : Opcode) (earlier : List Field) (f : Field) : Except ByteError Unit := do
  let i := earlier.length
  if f.width = 0 then throw (.format (.zeroWidth op i))
  -- This one sum is not in a byte.
  if f.position + f.width > 32 then
    throw (.format (.fieldOutOfBounds op i f.position f.width))
  if f.position < Opcode.bits then throw (.format (.fieldOverlap op i .opcode))
  let stop ← f.stopByte
  match ← firstOverlap f.position stop 0 earlier with
  | some j => throw (.format (.fieldOverlap op i (.operand j)))
  | none => pure ()
  if f.hidden ∧ ¬ CanRepeat earlier.getLast? f then
    throw (.format (.hiddenWithoutPredecessor op i))

def checkFieldsInBytes (op : Opcode) (earlier : List Field) : List Field → Except ByteError Unit
  | [] => pure ()
  | f :: rest => do
    checkFieldInBytes op earlier f
    checkFieldsInBytes op (earlier ++ [f]) rest

def checkInBytes (f : Format) : Except ByteError Unit := do
  let required := Opcode.bits + f.operandBits
  if required > 32 then throw (.format (.wordOverflow f.opcode required 32))
  checkFieldsInBytes f.opcode [] f.fields

theorem firstOverlap_eq :
    ∀ {gs : List Field} {k : Nat}, (∀ g ∈ gs, g.InWord) →
      firstOverlap f.position f.stop k gs =
        .ok ((gs.findIdx? fun g => decide (f.Overlaps g)).map (· + k)) := by
  intro gs
  induction gs with
  | nil => intro k _; rfl
  | cons g gs ih =>
    intro k hin
    obtain ⟨hg, hin⟩ := List.forall_mem_cons.1 hin
    rw [firstOverlap, hg.stopByte, ok_bind, List.findIdx?_cons]
    by_cases hover : f.Overlaps g
    · rw [if_pos (show f.position < g.stop ∧ g.position < f.stop from hover),
        if_pos (decide_eq_true hover), Option.map_some, Nat.zero_add]
      rfl
    · rw [if_neg (show ¬ (f.position < g.stop ∧ g.position < f.stop) from hover),
        if_neg (by simpa using hover), ih hin, Option.map_map]
      congr 2
      funext n
      exact (Nat.add_right_comm n 1 k).symm

theorem checkFieldInBytes_eq (hearlier : ∀ g ∈ earlier, g.InWord) :
    checkFieldInBytes op earlier f = (checkField op earlier f).mapError .format := by
  simp only [checkFieldInBytes, checkField, throw_bind, mapError_guard]
  refine if_ctx_congr Iff.rfl (fun _ => rfl) fun hwidth => ?_
  refine if_ctx_congr Iff.rfl (fun _ => rfl) fun hstop => ?_
  refine if_ctx_congr Iff.rfl (fun _ => rfl) fun habove => ?_
  -- What the first three checks let pass lies in the word, and so its end is a byte.
  have hword : f.InWord := ⟨by omega, by omega, by omega⟩
  rw [hword.stopByte, ok_bind, firstOverlap_eq hearlier, ok_bind]
  cases earlier.findIdx? fun g => decide (f.Overlaps g) with
  | some j => rfl
  | none =>
    simp only [mapError_guard]
    rfl

theorem checkFieldsInBytes_eq :
    ∀ {fs earlier : List Field}, (∀ g ∈ earlier, g.InWord) →
      checkFieldsInBytes op earlier fs = (checkFields op earlier fs).mapError .format := by
  intro fs
  induction fs with
  | nil => intro earlier _; rfl
  | cons f fs ih =>
    intro earlier hearlier
    rw [checkFieldsInBytes, checkFields, mapError_bind, checkFieldInBytes_eq hearlier]
    cases hf : checkField op earlier f with
    | error e => rfl
    | ok _ =>
      have hword := (checkField_ok_iff.1 hf).1
      refine ih fun g hg => ?_
      rcases List.mem_append.1 hg with hg | hg
      · exact hearlier g hg
      · rwa [List.mem_singleton.1 hg]

theorem checkInBytes_eq (f : Format) : f.checkInBytes = f.check.mapError .format := by
  simp only [checkInBytes, check, throw_bind, mapError_guard]
  rw [checkFieldsInBytes_eq fun _ h => (List.not_mem_nil h).elim]

end Format

/-! ## Instruction sets -/

namespace InstructionSet

variable {fs : List Format} {s : InstructionSet}

def checkAllInBytes (seen : List Opcode) : List Format → Except ByteError Unit
  | [] => pure ()
  | f :: rest => do
    f.checkInBytes
    if f.opcode ∈ seen then throw (.format (.duplicateOpcode f.opcode))
    checkAllInBytes (f.opcode :: seen) rest

/-- Admits what `ofFormats` admits, by checks that add in bytes. -/
def ofFormatsInBytes (fs : List Format) : Except ByteError InstructionSet := do
  checkAllInBytes [] fs
  pure ⟨fs⟩

theorem checkAllInBytes_eq :
    ∀ {fs : List Format} {seen : List Opcode},
      checkAllInBytes seen fs = (checkAll seen fs).mapError .format := by
  intro fs
  induction fs with
  | nil => intro seen; rfl
  | cons f rest ih =>
    intro seen
    simp only [checkAllInBytes, checkAll, mapError_bind, throw_bind, mapError_guard, ih,
      Format.checkInBytes_eq]

theorem ofFormatsInBytes_eq (fs : List Format) :
    ofFormatsInBytes fs = (ofFormats fs).mapError .format := by
  rw [ofFormatsInBytes, ofFormats, mapError_bind, checkAllInBytes_eq]
  rfl

theorem exists_ofFormats_iff :
    (∃ s, ofFormats fs = .ok s) ↔
      (fs.map (·.opcode)).Nodup ∧ ∀ f ∈ fs, f.Admissible := by
  simp only [ofFormats_ok_iff, Format.check_ok_iff_admissible, exists_and_left, exists_eq',
    and_true]
  exact and_comm

theorem format?_of_ofFormats (h : ofFormats fs = .ok s) {f : Format} (hf : f ∈ s.formats) :
    s.format? f.opcode = some f := by
  obtain ⟨-, hnodup, rfl⟩ := ofFormats_ok_iff.1 h
  cases hfind : format? ⟨fs⟩ f.opcode with
  | none => simpa using List.find?_eq_none.1 hfind f hf
  | some g =>
    have hop : g.opcode = f.opcode := by simpa using List.find?_some hfind
    rw [List.inj_on_of_nodup_map hnodup (List.mem_of_find?_eq_some hfind) hf hop]

theorem format?_eq_none {op : Opcode} (hop : op ∉ s.formats.map (·.opcode)) :
    s.format? op = none :=
  List.find?_eq_none.2 fun f hf => by simpa using fun heq => hop (List.mem_map.2 ⟨f, hf, heq⟩)

/-- **Admission is exact.** A list of formats is an instruction set exactly when no two of them have
one opcode and each of them is admissible. The set has for each opcode the format of the list with
it and no other format. No sum that the checks form is more than a byte. -/
theorem ofFormats_exact (fs : List Format) :
    ((∃ s, ofFormats fs = .ok s) ↔
      (fs.map (·.opcode)).Nodup ∧ ∀ f ∈ fs, f.Admissible) ∧
    (∀ s, ofFormats fs = .ok s →
      (∀ f ∈ fs, s.format? f.opcode = some f) ∧
        ∀ op, op ∉ fs.map (·.opcode) → s.format? op = none) ∧
    ofFormatsInBytes fs = (ofFormats fs).mapError .format := by
  refine ⟨exists_ofFormats_iff, fun s hs => ?_, ofFormatsInBytes_eq fs⟩
  obtain ⟨-, -, rfl⟩ := ofFormats_ok_iff.1 hs
  exact ⟨fun f hf => format?_of_ofFormats hs hf, fun op => format?_eq_none⟩

/-- A number that the two fields after its own repeat in turn, and a format without fields. -/
def chained : List Format :=
  [⟨.jmpImm, [.unsigned 5 8, (Field.unsigned 13 8).tied, (Field.unsigned 21 11).tied]⟩, ⟨.halt, []⟩]

theorem ofFormats_exact_chained :
    (∀ f ∈ chained, f.Admissible) ∧ format? ⟨chained⟩ .halt = some ⟨.halt, []⟩ ∧
      format? ⟨chained⟩ .add = none ∧ ofFormatsInBytes chained = .ok ⟨chained⟩ := by
  have hset : ofFormats chained = .ok ⟨chained⟩ := rfl
  obtain ⟨hadmitted, hformats, hbytes⟩ := ofFormats_exact chained
  obtain ⟨hmem, habsent⟩ := hformats _ hset
  refine ⟨(hadmitted.1 ⟨_, hset⟩).2, hmem ⟨.halt, []⟩ (by decide), habsent .add (by decide), ?_⟩
  rw [hbytes, hset]
  rfl

end InstructionSet
end WordMachine
