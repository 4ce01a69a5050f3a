import WordMachine.Proofs.Packing

/-!
# WordMachine.Proofs.Meaning

Field values and what they mean. Reading and writing undo one another field by field, so that
`toFields` and `ofFields` do so for whole instructions:

* what an instruction is written as reads as that instruction (`ofFields_of_toFields`);
* what field values read as is written as those values, if they have a word
  (`toFields_of_ofFields`);
* what an instruction is written as has a word (`exists_pack_of_toFields`).

`meaning_inverse` puts them together, with the word, for every admitted set.
-/

namespace WordMachine
namespace Register

@[simp] theorem ofSlot?_slot (r : Register) : ofSlot? r.slot = some r := by
  cases r <;> rfl

theorem slot_of_ofSlot? {n : Nat} {r : Register} (h : ofSlot? n = some r) : r.slot = n := by
  obtain ⟨hn, rfl⟩ := List.getElem?_eq_some_iff.1 h
  have key : ∀ k : Fin all.length, (all.get k).slot = k := by decide
  exact key ⟨n, hn⟩

theorem toNat_slot (r : Register) : (BitVec.ofNat 32 r.slot).toNat = r.slot := by
  cases r <;> decide

/-- Exactly the fields of this width and wider ones have room for every slot. -/
theorem slots_lt_iff {n : Nat} : (∀ r : Register, r.slot < 2 ^ n) ↔ fieldBits ≤ n := by
  constructor
  · intro h
    by_contra hn
    have hn : n ≤ 3 := Nat.le_of_lt_succ (Nat.lt_of_not_le hn)
    have hpow : 2 ^ n ≤ 2 ^ 3 := Nat.pow_le_pow_right (by decide) hn
    have hslot : 13 < 2 ^ n := h .cpsr
    omega
  · intro hn r
    have hslot : r.slot < 2 ^ fieldBits := Nat.lt_of_lt_of_le r.slot_lt (by decide)
    exact Nat.lt_of_lt_of_le hslot (Nat.pow_le_pow_right (by decide) hn)

end Register

namespace Field

/-- Whether what an operand is written as has no bit outside the field. Numbers are cut to it. -/
def HasRoom (f : Field) : Operand → Prop
  | .register r => r.slot < 2 ^ f.width
  | .immediate _ => True

instance (f : Field) : (x : Operand) → Decidable (f.HasRoom x)
  | .register _ => Nat.decLt _ _
  | .immediate _ => isTrue trivial

end Field

namespace InstructionSet
open Outcome

section Convert

variable {α β : Type} {c : Nat → Field → α → Except CodingError β}
  {d : Nat → Field → β → Except CodingError α}

theorem forFields_cons {k : Nat} {f : Field} {fs : List Field} {x : α} {xs : List α} {ys : List β} :
    forFields c k (f :: fs) (x :: xs) = .ok ys ↔
      ∃ y zs, c k f x = .ok y ∧ forFields c (k + 1) fs xs = .ok zs ∧ y :: zs = ys := by
  simp only [forFields, bind_ok_iff, pure_ok_iff]
  constructor
  · rintro ⟨y, hy, zs, hzs, h⟩
    exact ⟨y, zs, hy, hzs, h⟩
  · rintro ⟨y, zs, hy, hzs, h⟩
    exact ⟨y, hy, zs, hzs, h⟩

theorem length_of_forFields :
    ∀ {fs : List Field} {xs : List α} {ys : List β} {k : Nat}, fs.length = xs.length →
      forFields c k fs xs = .ok ys → ys.length = fs.length := by
  intro fs
  induction fs with
  | nil =>
    intro xs ys k _ h
    simp only [forFields, pure_ok_iff] at h
    simp [← h]
  | cons f fs ih =>
    intro xs ys k hlen h
    cases xs with
    | nil => simp at hlen
    | cons x xs =>
      obtain ⟨y, zs, -, hzs, rfl⟩ := forFields_cons.1 h
      simp [ih (by simpa using hlen) hzs]

/-- What came of converting is the image of something under the field it belongs to. -/
theorem exists_of_forFields :
    ∀ {fs : List Field} {xs : List α} {ys : List β} {k : Nat}, forFields c k fs xs = .ok ys →
      ∀ p ∈ fs.zip ys, ∃ j x, c j p.1 x = .ok p.2 := by
  intro fs
  induction fs with
  | nil => intro xs ys k _ p hp; simp at hp
  | cons f fs ih =>
    intro xs ys k h p hp
    cases xs with
    | nil =>
      simp only [forFields, pure_ok_iff] at h
      simp [← h] at hp
    | cons x xs =>
      obtain ⟨y, zs, hy, hzs, rfl⟩ := forFields_cons.1 h
      rcases List.mem_cons.1 hp with rfl | hp
      · exact ⟨k, x, hy⟩
      · exact ih hzs p hp

/-- Where each field undoes its own conversion, the whole conversion is undone. -/
theorem forFields_inverse :
    ∀ {fs : List Field} {xs : List α} {ys : List β} {k : Nat}, fs.length = xs.length →
      (∀ p ∈ fs.zip xs, ∀ j y, c j p.1 p.2 = .ok y → d j p.1 y = .ok p.2) →
      forFields c k fs xs = .ok ys → forFields d k fs ys = .ok xs := by
  intro fs
  induction fs with
  | nil =>
    intro xs ys k hlen _ _
    cases xs with
    | nil => simp [forFields, pure_ok_iff]
    | cons x xs => simp at hlen
  | cons f fs ih =>
    intro xs ys k hlen hinv h
    cases xs with
    | nil => simp at hlen
    | cons x xs =>
      rw [List.zip_cons_cons, List.forall_mem_cons] at hinv
      obtain ⟨y, zs, hy, hzs, rfl⟩ := forFields_cons.1 h
      exact forFields_cons.2 ⟨x, xs, hinv.1 k y hy, ih (by simpa using hlen) hinv.2 hzs, rfl⟩

end Convert

section OneField

variable {op : Opcode} {f : Field} {v : Word} {x : Operand} {j k : Nat}

theorem readField_of_writeField (hf : f.InWord) (h : writeField op k f x = .ok v) :
    readField op j f v = .ok x := by
  cases x with
  | register r =>
    cases hk : f.kind <;> simp only [writeField, hk, reduceCtorEq] at h
    cases h
    simp only [readField, hk, Register.toNat_slot, Register.ofSlot?_slot]
  | immediate n =>
    cases hk : f.kind <;> simp only [writeField, hk, reduceCtorEq] at h
    split at h <;> cases h
    rename_i hn
    have hback := Field.interpret_represent hf.positive hf.width_le (n := n) (by omega) (by omega)
    simp [readField, hk, hback]

theorem writeField_of_readField (hf : f.InWord) (hv : f.Fits v) (h : readField op k f v = .ok x) :
    writeField op j f x = .ok v := by
  cases hk : f.kind with
  | register =>
    simp only [readField, hk] at h
    split at h <;> cases h
    rename_i r hr
    have hslot := Register.slot_of_ofSlot? hr
    simp [writeField, hk, hslot]
  | immediate =>
    simp only [readField, hk] at h
    cases h
    have hmem := Field.interpret_mem hf.positive hv
    have hin : ¬ (f.interpret v < f.min ∨ f.max < f.interpret v) := by omega
    simp [writeField, hk, hin, Field.represent_interpret hf.width_le hv]

theorem fits_iff_hasRoom (hf : f.InWord) (h : writeField op k f x = .ok v) :
    f.Fits v ↔ f.HasRoom x := by
  cases x with
  | register r =>
    cases hk : f.kind <;> simp only [writeField, hk, reduceCtorEq] at h
    cases h
    rw [Field.fits_iff_lt, Register.toNat_slot, Field.HasRoom]
  | immediate n =>
    cases hk : f.kind <;> simp only [writeField, hk, reduceCtorEq] at h
    split at h <;> cases h
    exact iff_of_true (Field.fits_represent hf.width_le n) trivial

theorem fits_of_writeField (hf : f.InWord) (hr : f.kind = .register → Register.fieldBits ≤ f.width)
    (h : writeField op k f x = .ok v) : f.Fits v := by
  rw [fits_iff_hasRoom hf h]
  cases x with
  | register r =>
    cases hk : f.kind with
    | register => exact Register.slots_lt_iff.2 (hr hk) r
    | immediate => simp only [writeField, hk, reduceCtorEq] at h
  | immediate n => trivial

end OneField

variable {s : InstructionSet} {i : Instruction} {x : FieldValues} {w : Word}

theorem ofFields_eq_ok :
    s.ofFields x = .ok i ↔ ∃ f, s.format? x.opcode = some f ∧ x.values.length = f.arity ∧
      i.opcode = x.opcode ∧
        forFields (readField x.opcode) 0 f.fields x.values = .ok i.operands := by
  simp only [ofFields, bind_ok_iff, formatFor_eq_ok, pure_ok_iff]
  constructor
  · rintro ⟨f, ⟨hf, hlen⟩, xs, hxs, rfl⟩
    exact ⟨f, hf, hlen, rfl, hxs⟩
  · rintro ⟨f, hf, hlen, hop, hxs⟩
    exact ⟨f, ⟨hf, hlen⟩, _, hxs, by rw [← hop]⟩

theorem toFields_eq_ok :
    s.toFields i = .ok x ↔ ∃ f, s.format? i.opcode = some f ∧ i.operands.length = f.arity ∧
      x.opcode = i.opcode ∧
        forFields (writeField i.opcode) 0 f.fields i.operands = .ok x.values := by
  simp only [toFields, bind_ok_iff, formatFor_eq_ok, pure_ok_iff]
  constructor
  · rintro ⟨f, ⟨hf, hlen⟩, vs, hvs, rfl⟩
    exact ⟨f, hf, hlen, rfl, hvs⟩
  · rintro ⟨f, hf, hlen, hop, hvs⟩
    exact ⟨f, ⟨hf, hlen⟩, _, hvs, by rw [← hop]⟩

theorem ofFields_of_toFields (hs : s.Sound) (h : s.toFields i = .ok x) : s.ofFields x = .ok i := by
  obtain ⟨f, hf, hlen, hop, hvs⟩ := toFields_eq_ok.1 h
  have hword := (hs f (format?_eq_some hf).1).inWord
  refine ofFields_eq_ok.2 ⟨f, by rw [hop, hf], length_of_forFields hlen.symm hvs, hop.symm, ?_⟩
  rw [hop]
  refine forFields_inverse hlen.symm (fun p hp j v hv => ?_) hvs
  exact readField_of_writeField (hword _ (List.of_mem_zip hp).1) hv

theorem toFields_of_ofFields (hs : s.Sound) (hx : ∃ w, s.pack x = .ok w)
    (h : s.ofFields x = .ok i) : s.toFields i = .ok x := by
  obtain ⟨f, hf, hlen, hop, hxs⟩ := ofFields_eq_ok.1 h
  obtain ⟨g, hg, -, hfit⟩ := exists_pack_iff.1 hx
  cases hf.symm.trans hg
  have hword := (hs f (format?_eq_some hf).1).inWord
  refine toFields_eq_ok.2 ⟨f, by rw [hop, hf], length_of_forFields hlen.symm hxs, hop.symm, ?_⟩
  rw [hop]
  refine forFields_inverse hlen.symm (fun p hp j y hy => ?_) hxs
  exact writeField_of_readField (hword _ (List.of_mem_zip hp).1) (hfit p hp) hy

theorem exists_pack_of_toFields (hs : s.Sound) (hr : s.SlotsFit) (h : s.toFields i = .ok x) :
    ∃ w, s.pack x = .ok w := by
  obtain ⟨f, hf, hlen, hop, hvs⟩ := toFields_eq_ok.1 h
  have hmem := (format?_eq_some hf).1
  refine exists_pack_iff.2 ⟨f, by rw [hop, hf], length_of_forFields hlen.symm hvs, fun p hp => ?_⟩
  obtain ⟨j, y, hy⟩ := exists_of_forFields hvs p hp
  have hp := (List.of_mem_zip hp).1
  exact fits_of_writeField ((hs f hmem).inWord _ hp) (hr f hmem _ hp) hy

theorem decode_of_pack (hs : s.Sound) (h : s.pack x = .ok w) : s.decode w = s.ofFields x := by
  simp only [decode, unpack_pack hs h]
  rfl

/-- What an instruction is written as has a word, and that word holds the instruction. -/
theorem decode_of_toFields (hs : s.Sound) (hr : s.SlotsFit) (h : s.toFields i = .ok x) :
    ∃ w, s.pack x = .ok w ∧ s.decode w = .ok i := by
  obtain ⟨w, hw⟩ := exists_pack_of_toFields hs hr h
  exact ⟨w, hw, (decode_of_pack hs hw).trans (ofFields_of_toFields hs h)⟩

/-- A word that holds an instruction is the word of that instruction but for the bits that belong
neither to the opcode nor to a field. -/
theorem encode_of_decode (hs : s.Sound) (h : s.decode w = .ok i) :
    ∃ x f w', s.toFields i = .ok x ∧ s.format? i.opcode = some f ∧ s.encode i = .ok w' ∧
      ∀ j, w'.getLsbD j = (w.getLsbD j && decide (f.Defines j)) := by
  simp only [decode, bind_ok_iff] at h
  obtain ⟨x, hx, hi⟩ := h
  obtain ⟨f, w', hf, hw', hbits⟩ := exists_pack_of_unpack hs hx
  have hfields := toFields_of_ofFields hs ⟨w', hw'⟩ hi
  obtain ⟨g, hg, -, hop, -⟩ := ofFields_eq_ok.1 hi
  refine ⟨x, f, w', hfields, by rw [hop, hf], ?_, hbits⟩
  simp only [encode, hfields, ok_bind, hw']

/-- Whether every value fits the field of the set that it belongs to. -/
def ValuesFit (s : InstructionSet) (x : FieldValues) : Prop :=
  ∀ f, s.format? x.opcode = some f → ∀ p ∈ f.fields.zip x.values, p.1.Fits p.2

theorem exists_pack_of_ofFields (hx : s.ValuesFit x) (h : s.ofFields x = .ok i) :
    ∃ w, s.pack x = .ok w := by
  obtain ⟨f, hf, hlen, -, -⟩ := ofFields_eq_ok.1 h
  exact exists_pack_iff.2 ⟨f, hf, hlen, hx f hf⟩

/-- Instruction, field values and word stand for one another, whichever of them is given. -/
theorem meaning_inverse {fs : List Format} (h : ofFormats fs = .ok s) :
    (∀ i x, s.toFields i = .ok x → s.ofFields x = .ok i) ∧
      (∀ i w, s.encode i = .ok w → s.decode w = .ok i) ∧
        ∀ x i, s.ValuesFit x → s.ofFields x = .ok i → s.toFields i = .ok x := by
  have hs := sound_of_ofFormats h
  refine ⟨fun i x hi => ofFields_of_toFields hs hi, fun i w hi => ?_, fun x i hx hi => ?_⟩
  · simp only [encode, bind_ok_iff] at hi
    obtain ⟨x, hx, hw⟩ := hi
    exact (decode_of_pack hs hw).trans (ofFields_of_toFields hs hx)
  · exact toFields_of_ofFields hs (exists_pack_of_ofFields hx hi) hi

/-- Fields of one bit and of every bit above the opcode, on both sides of 0. -/
def narrow : List Format :=
  [⟨.jmpImm, [.signed 5 27]⟩, ⟨.addImm, [.signed 31 1, .source 9, .unsigned 13 18]⟩]

/-- The ends of the range of a wide field, the number below 0 of a narrow one. -/
theorem meaning_inverse_narrow :
    ofFields ⟨narrow⟩ ⟨.jmpImm, [0x3FFFFFF#32]⟩ = .ok ⟨.jmpImm, [.immediate (2 ^ 26 - 1)]⟩ ∧
      decode ⟨narrow⟩ 0x80000013#32 = .ok ⟨.jmpImm, [.immediate (-2 ^ 26)]⟩ ∧
        toFields ⟨narrow⟩ ⟨.addImm, [.immediate (-1), .register .r7, .immediate 5]⟩ =
          .ok ⟨.addImm, [1#32, 7#32, 5#32]⟩ :=
  have h := meaning_inverse (show ofFormats narrow = .ok ⟨narrow⟩ from rfl)
  have hx : ValuesFit ⟨narrow⟩ ⟨.addImm, [1#32, 7#32, 5#32]⟩ := by
    rintro _ ⟨⟩
    decide
  ⟨h.1 _ _ (by decide), h.2.1 _ _ (by decide), h.2.2 _ _ hx (by decide)⟩

end InstructionSet
end WordMachine
