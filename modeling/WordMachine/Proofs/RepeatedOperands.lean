import Mathlib
import WordMachine.Proofs.AcceptedOperands
import WordMachine.Proofs.NamedOperands

/-!
# WordMachine.Proofs.RepeatedOperands

Whether what a hidden field repeats is such as it takes. Its operand is that of the last field
before it that is written in assembly (`Format.original?`), however many hidden ones lie between.
Admission compares kinds and widths from field to field, which leaves the fields around 0 and those
from 0 up to be told apart (`Field.Covers`).

* `Field.covers_iff`: of two fields that admission lets follow one another, the second takes all
  that the first one takes exactly when it covers it;
* `InstructionSet.accepts_assembled_iff`: hidden operands always fit in the formats of which every
  field covers the one that it repeats, and in no other ones.
-/

namespace WordMachine

/-! ## Ranges of fields -/

namespace Field

variable {p g : Field}

/-- Whether a field that is no narrower than `p` has room for the numbers of `p`: for those from 0
up, a field around 0 must be wider. -/
def Covers (g p : Field) : Prop :=
  p.kind = .immediate → p.signedness = g.signedness ∨ g.signedness = .signed ∧ p.width < g.width

instance (g p : Field) : Decidable (g.Covers p) := inferInstanceAs (Decidable (_ → _))

theorem takes_immediate_of_covers (hkind : p.kind = g.kind) (hwidth : p.width ≤ g.width)
    (hcovers : g.Covers p) {n : Int} (hn : p.Takes (.immediate n)) : g.Takes (.immediate n) := by
  obtain ⟨himm, hmin, hmax⟩ := hn
  refine ⟨hkind ▸ himm, ?_⟩
  have hall : (2 : Int) ^ p.width ≤ 2 ^ g.width := pow_le_pow_right₀ (by decide) hwidth
  have hhalf : (2 : Int) ^ (p.width - 1) ≤ 2 ^ (g.width - 1) :=
    pow_le_pow_right₀ (by decide) (Nat.sub_le_sub_right hwidth 1)
  rcases hcovers himm with hsame | ⟨hsigned, hwider⟩
  · cases hg : g.signedness <;> rw [hg] at hsame <;>
      simp only [min, max, hsame, hg, cast_shiftLeft] at hmin hmax ⊢ <;> omega
  · have hwide : (2 : Int) ^ p.width ≤ 2 ^ (g.width - 1) :=
      pow_le_pow_right₀ (by decide) (Nat.le_sub_one_of_lt hwider)
    have hpos : (0 : Int) < 2 ^ (p.width - 1) := by positivity
    cases hp : p.signedness <;>
      simp only [min, max, hp, hsigned, cast_shiftLeft] at hmin hmax ⊢ <;> omega

/-- The least and the greatest number of a field tell whether all of them are taken. -/
theorem covers_of_takes (hpos : 0 < p.width)
    (hmin : g.Takes (.immediate p.min)) (hmax : g.Takes (.immediate p.max)) : g.Covers p := by
  intro _
  obtain ⟨-, hleast, -⟩ := hmin
  obtain ⟨-, -, hgreatest⟩ := hmax
  cases hp : p.signedness with
  | unsigned =>
    cases hg : g.signedness with
    | unsigned => exact .inl rfl
    | signed =>
      simp only [max, hp, hg, cast_shiftLeft] at hgreatest
      have hpow : (2 : Int) ^ p.width ≤ 2 ^ (g.width - 1) := by omega
      have hwidth := (pow_le_pow_iff_right₀ (by decide)).1 hpow
      exact .inr ⟨rfl, by omega⟩
  | signed =>
    cases hg : g.signedness with
    | unsigned =>
      have hneg : (0 : Int) < 2 ^ (p.width - 1) := by positivity
      simp only [min, hp, hg, cast_shiftLeft] at hleast
      omega
    | signed => exact .inl rfl

theorem covers_iff (hpos : 0 < p.width) (hkind : p.kind = g.kind) (hwidth : p.width ≤ g.width) :
    g.Covers p ↔ ∀ x, p.Takes x → g.Takes x := by
  constructor
  · intro hcovers x hx
    cases x with
    | register r => exact hkind.symm.trans hx
    | immediate n => exact takes_immediate_of_covers hkind hwidth hcovers hx
  · intro hall himm
    have hrange : p.min ≤ p.max := by
      obtain ⟨-, hmin, hmax⟩ : p.Takes (.immediate 0) := by
        simpa only [zero, himm] using p.takes_zero
      exact hmin.trans hmax
    exact covers_of_takes hpos (hall _ ⟨himm, le_rfl, hrange⟩) (hall _ ⟨himm, hrange, le_rfl⟩) himm

end Field

/-! ## Whose operand a field has -/

namespace Format

variable {f : Format} {g p : Field} {n : Nat}

/-- The field whose operand the field with a number has: itself if assembly writes an operand for
it, else that of the field before it. -/
def original? (f : Format) : Nat → Option Field
  | 0 => f.fields[0]?.filter (!·.hidden)
  | n + 1 => f.fields[n + 1]?.bind fun g => if g.hidden then f.original? n else some g

/-- Whether every field covers the one whose operand it has. -/
def TiesCover (f : Format) : Prop :=
  ∀ q ∈ f.fields.zipIdx, ∀ p ∈ f.original? q.2, q.1.Covers p

instance (f : Format) : Decidable f.TiesCover := inferInstanceAs (Decidable (∀ q ∈ _, _))

theorem tiesCover_iff : f.TiesCover ↔
    ∀ n g p, f.fields[n]? = some g → f.original? n = some p → g.Covers p := by
  simp only [TiesCover, Prod.forall, List.mk_mem_zipIdx_iff_getElem?, Option.mem_def]
  exact ⟨fun h n g p hg => h g n hg p, fun h g n hg p => h n g p hg⟩

theorem original?_visible (hg : f.fields[n]? = some g) (hvisible : ¬ g.hidden) :
    f.original? n = some g := by
  cases n <;> simp [original?, hg, hvisible]

theorem original?_hidden (hg : f.fields[n + 1]? = some g) (hhidden : g.hidden) :
    f.original? (n + 1) = f.original? n := by
  simp [original?, hg, hhidden]

theorem Admissible.exists_original (h : f.Admissible) :
    ∀ {n : Nat} {g : Field}, f.fields[n]? = some g →
      ∃ p ∈ f.fields, f.original? n = some p ∧ p.kind = g.kind ∧ p.width ≤ g.width := by
  intro n
  induction n with
  | zero =>
    intro g hg
    have hvisible : ¬ g.hidden := by
      intro hhidden
      obtain ⟨k, -, hk, -⟩ := h.repeats 0 g hg hhidden
      cases hk
    exact ⟨g, List.mem_of_getElem? hg, original?_visible hg hvisible, rfl, le_rfl⟩
  | succ n ih =>
    intro g hg
    by_cases hhidden : g.hidden
    · obtain ⟨k, q, hk, hq, hkind, hwidth⟩ := h.repeats (n + 1) g hg hhidden
      cases hk
      obtain ⟨p, hp, horiginal, hkind', hwidth'⟩ := ih hq
      exact ⟨p, hp, (original?_hidden hg hhidden).trans horiginal, hkind'.trans hkind,
        hwidth'.trans hwidth⟩
    · exact ⟨g, List.mem_of_getElem? hg, original?_visible hg hhidden, rfl, le_rfl⟩

theorem Admissible.covers_iff (h : f.Admissible) (hg : f.fields[n]? = some g)
    (hp : f.original? n = some p) : g.Covers p ↔ ∀ x, p.Takes x → g.Takes x := by
  obtain ⟨q, hq, horiginal, hkind, hwidth⟩ := h.exists_original hg
  cases hp.symm.trans horiginal
  exact Field.covers_iff (h.nonempty p hq) hkind hwidth

end Format

/-! ## Assembled instructions -/

namespace Instruction

variable {f : Format} {i : Instruction} {g p : Field} {x : Operand} {n : Nat}

/-- An instruction as it comes from assembly: every operand that is written is such as its field
takes, and every other one repeats the one before it. -/
structure Assembled (f : Format) (i : Instruction) : Prop where
  opcode : i.opcode = f.opcode
  length : i.operands.length = f.arity
  accepted : ∀ (n : Nat) (g : Field) (x : Operand), f.fields[n]? = some g → ¬ g.hidden →
    i.operands[n]? = some x → ∃ v, InstructionSet.writeField i.opcode n g x = .ok v
  tied : i.Tied f

theorem Assembled.takes (h : i.Assembled f) (hg : f.fields[n]? = some g) (hvisible : ¬ g.hidden)
    (hx : i.operands[n]? = some x) : g.Takes x :=
  Field.exists_writeField_iff.1 (h.accepted n g x hg hvisible hx)

theorem Assembled.takes_original (h : i.Assembled f) :
    ∀ {n : Nat}, f.original? n = some p → i.operands[n]? = some x → p.Takes x := by
  intro n
  induction n with
  | zero =>
    intro hp hx
    obtain ⟨hp, hvisible⟩ := Option.filter_eq_some_iff.1 hp
    exact h.takes hp (by simpa using hvisible) hx
  | succ n ih =>
    intro hp hx
    obtain ⟨g, hg, hp⟩ := Option.bind_eq_some_iff.1 hp
    by_cases hhidden : g.hidden
    · rw [if_pos hhidden] at hp
      rw [h.tied n g hg hhidden] at hx
      exact ih hp hx
    · rw [if_neg hhidden] at hp
      cases hp
      exact h.takes hg hhidden hx

/-- The instruction of a format in which the field `p` and all that repeat it have the operand
`x`. -/
def having (f : Format) (p : Field) (x : Operand) : Instruction :=
  ⟨f.opcode, (List.range f.arity).map fun n => (f.original? n).elim x (p.pick x)⟩

theorem operand_having (hn : n < f.arity) :
    (having f p x).operands[n]? = some ((f.original? n).elim x (p.pick x)) := by
  rw [having, List.getElem?_map, List.getElem?_range hn, Option.map_some]

theorem assembled_having (hx : p.Takes x) : (having f p x).Assembled f where
  opcode := rfl
  length := by rw [having, List.length_map, List.length_range]
  accepted := by
    intro n g y hg hvisible hy
    have hn : n < f.arity := (List.getElem?_eq_some_iff.1 hg).1
    rw [operand_having hn, Format.original?_visible hg hvisible] at hy
    cases hy
    exact Field.exists_writeField_iff.2 (Field.takes_pick hx g)
  tied := by
    intro n g hg hhidden
    have hn : n + 1 < f.arity := (List.getElem?_eq_some_iff.1 hg).1
    rw [operand_having hn, operand_having (Nat.lt_of_succ_lt hn),
      Format.original?_hidden hg hhidden]

end Instruction

namespace InstructionSet

variable {s : InstructionSet} {fs : List Format} {f : Format} {i : Instruction}

theorem exists_toFields_iff_of_assembled (h : ofFormats fs = .ok s) (hf : f ∈ fs)
    (hi : i.Assembled f) : (∃ y, s.toFields i = .ok y) ↔
      ∀ (n : Nat) (g : Field) (x : Operand), f.fields[n]? = some g → i.operands[n]? = some x →
        g.Takes x := by
  obtain ⟨-, -, rfl⟩ := ofFormats_ok_iff.1 h
  have hformat : format? ⟨fs⟩ i.opcode = some f := hi.opcode ▸ format?_of_ofFormats h hf
  simp only [exists_toFields_iff, hformat, Option.some.injEq, exists_eq_left', hi.length, true_and]
  constructor
  · intro hall n g x hg hx
    exact hall (g, x) (List.mem_iff_getElem?.2 ⟨n, List.getElem?_zip_eq_some.2 ⟨hg, hx⟩⟩)
  · rintro hall ⟨g, x⟩ hmem
    obtain ⟨n, hn⟩ := List.mem_iff_getElem?.1 hmem
    obtain ⟨hg, hx⟩ := List.getElem?_zip_eq_some.1 hn
    exact hall n g x hg hx

/-- **When hidden operands fit.** Every instruction of a format of an admitted set that comes from
assembly has field values exactly when every field covers the one whose operand it has. -/
theorem accepts_assembled_iff (h : ofFormats fs = .ok s) (hf : f ∈ fs) :
    (∀ i, Instruction.Assembled f i → ∃ y, s.toFields i = .ok y) ↔ f.TiesCover := by
  have hadmissible : f.Admissible := (exists_ofFormats_iff.1 ⟨s, h⟩).2 f hf
  rw [Format.tiesCover_iff]
  constructor
  · intro hall n g p hg hp
    refine (hadmissible.covers_iff hg hp).2 fun x hx => ?_
    -- Whatever operand `p` takes, assembly can write it there, and then `g` has it as well.
    have hassembled := Instruction.assembled_having (f := f) hx
    have htakes := (exists_toFields_iff_of_assembled h hf hassembled).1 (hall _ hassembled)
    have hn : n < f.arity := (List.getElem?_eq_some_iff.1 hg).1
    refine htakes n g x hg ?_
    rw [Instruction.operand_having hn, hp, Option.elim_some, Field.pick_self]
  · intro hcover i hi
    refine (exists_toFields_iff_of_assembled h hf hi).2 fun n g x hg hx => ?_
    obtain ⟨p, -, hp, -, -⟩ := hadmissible.exists_original hg
    exact (hadmissible.covers_iff hg hp).1 (hcover n g p hg hp) x (hi.takes_original hp hx)

/-- A number from 0 up that two fields around 0 repeat, both wider than the first one. -/
def widening : List Format :=
  [⟨.jmpImm, [.unsigned 5 8, (Field.signed 13 9).tied, (Field.signed 22 10).tied]⟩]

theorem accepts_assembled_iff_widening :
    ofFormats widening = .ok ⟨widening⟩ ∧
      toFields ⟨widening⟩ ⟨.jmpImm, [.immediate 255, .immediate 255, .immediate 255]⟩ =
        .ok ⟨.jmpImm, [255, 255, 255]⟩ := by
  have hset : ofFormats widening = .ok ⟨widening⟩ := rfl
  have hall := (accepts_assembled_iff hset (List.mem_singleton.2 rfl)).2 (by decide)
  have htakes : (Field.unsigned 5 8).Takes (.immediate 255) := by decide
  obtain ⟨y, hy⟩ := hall _ (Instruction.assembled_having htakes)
  cases hy
  exact ⟨hset, rfl⟩

/-- A number from 0 up that a field around 0 repeats, no wider than the first one. -/
def levelling : List Format := [⟨.jmpImm, [.unsigned 5 8, (Field.signed 13 8).tied]⟩]

/-- The largest numbers of a field are none that one of its width around 0 takes. -/
theorem exists_assembled_refused : ∃ (fs : List Format) (s : InstructionSet) (f : Format)
    (i : Instruction), ofFormats fs = .ok s ∧ f ∈ fs ∧ i.Assembled f ∧
      ¬ ∃ y, s.toFields i = .ok y := by
  refine ⟨levelling, ⟨levelling⟩, _, ⟨.jmpImm, [.immediate 200, .immediate 200]⟩, rfl,
    List.mem_singleton.2 rfl, ?_, ?_⟩
  · have htakes : (Field.unsigned 5 8).Takes (.immediate 200) := by decide
    exact Instruction.assembled_having htakes
  · rintro ⟨y, hy⟩
    cases hy

end InstructionSet
end WordMachine
