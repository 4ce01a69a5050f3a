import WordMachine.Assembly.Immediate
import Mathlib.Data.List.Forall2
import Mathlib.Data.Nat.Digits.Defs
import Mathlib.Tactic.IntervalCases

/-!
# WordMachine.Proofs.ImmediateGrammar

Which tokens are numbers, and which numbers they are. The grammar has a number sign, at most one
minus, and digits in base ten or, behind `0x`, in base sixteen, which are worth less than 2 ^ 63
(`Assembly.Writes`). All these tokens are read as what they write. As the reader for base sixteen
takes a sign of its own, tokens with a sign behind `0x` are read as well (`Assembly.WritesInside`);
there are no others (`Assembly.immediate_exact`).
-/

namespace WordMachine

namespace Numeral

variable {base d n : Nat} {c : Char} {cs : List Char} {v w : Int}

/-- Whether a character is the digit for a number in a base. Letters count in either case. -/
def IsDigit (base : Nat) (c : Char) (d : Nat) : Prop :=
  d < base ∧ ("0123456789abcdef".toList[d]? = some c ∨ "0123456789ABCDEF".toList[d]? = some c)

/-- Whether characters are the digits of a number in a base, at least one, and the most significant
one first. -/
def Spells (base : Nat) (cs : List Char) (n : Nat) : Prop :=
  cs ≠ [] ∧ ∃ ds, List.Forall₂ (IsDigit base) cs ds ∧ n = Nat.ofDigits base ds.reverse

/-- A range of characters that are the digits from `first` on. -/
theorem isDigit_of_range {low high : Nat} (first : Nat) (hlow : low ≤ c.toNat)
    (hhigh : c.toNat ≤ high)
    (hrange : ∀ k, low ≤ k → k ≤ high → IsDigit 16 (Char.ofNat k) (k - low + first)) :
    IsDigit 16 c (c.toNat - low + first) := by
  have hdigit := hrange c.toNat hlow hhigh
  rwa [Char.ofNat_toNat] at hdigit

theorem digit?_eq_some_iff : digit? c = some d ↔ IsDigit 16 c d := by
  constructor
  · intro h
    simp only [digit?, Char.le_def, UInt32.le_iff_toNat_le, Char.toNat_val, Char.reduceToNat] at h
    split_ifs at h with hnumber hlower hupper
    · cases h
      exact isDigit_of_range 0 hnumber.1 hnumber.2 fun k hlow hhigh => by
        interval_cases k <;> exact ⟨by decide, .inl rfl⟩
    · cases h
      exact isDigit_of_range 10 hlower.1 hlower.2 fun k hlow hhigh => by
        interval_cases k <;> exact ⟨by decide, .inl rfl⟩
    · cases h
      exact isDigit_of_range 10 hupper.1 hupper.2 fun k hlow hhigh => by
        interval_cases k <;> exact ⟨by decide, .inr rfl⟩
  · rintro ⟨hd, h⟩
    interval_cases d <;> rcases h with h | h <;> cases h <;> rfl

theorem digitBelow?_eq_some_iff (hbase : base ≤ 16) :
    digitBelow? base c = some d ↔ IsDigit base c d := by
  rw [digitBelow?, Option.filter_eq_some_iff, digit?_eq_some_iff, decide_eq_true_eq]
  constructor
  · rintro ⟨⟨-, hd⟩, hbelow⟩
    exact ⟨hbelow, hd⟩
  · rintro ⟨hbelow, hd⟩
    exact ⟨⟨by omega, hd⟩, hbelow⟩

theorem foldlM_digitBelow?_eq_some_iff (hbase : base ≤ 16) : ∀ {cs : List Char} {m n : Nat},
    cs.foldlM (fun n c => (digitBelow? base c).map (n * base + ·)) m = some n ↔
      ∃ ds, List.Forall₂ (IsDigit base) cs ds ∧ n = ds.foldl (fun n d => n * base + d) m := by
  intro cs
  induction cs with
  | nil => simp [eq_comm]
  | cons c cs ih =>
    intro m n
    simp only [List.foldlM_cons, Option.bind_eq_bind, Option.bind_eq_some_iff,
      Option.map_eq_some_iff, digitBelow?_eq_some_iff hbase, ih, List.forall₂_cons_left_iff]
    constructor
    · rintro ⟨_, ⟨d, hd, rfl⟩, ds, hds, hn⟩
      exact ⟨d :: ds, ⟨d, ds, hd, hds, rfl⟩, hn⟩
    · rintro ⟨_, ⟨d, ds, hd, hds, rfl⟩, hn⟩
      exact ⟨_, ⟨d, hd, rfl⟩, ds, hds, hn⟩

theorem foldl_digits (base : Nat) (ds : List Nat) :
    ds.foldl (fun n d => n * base + d) 0 = Nat.ofDigits base ds.reverse := by
  rw [Nat.ofDigits_eq_foldr, List.foldr_reverse]
  congr 1
  funext n d
  rw [Nat.cast_id, Nat.mul_comm, Nat.add_comm]

theorem ofDigits?_eq_some_iff (hbase : base ≤ 16) :
    ofDigits? base cs = some n ↔ Spells base cs n := by
  cases cs with
  | nil => simp [ofDigits?, Spells]
  | cons c cs =>
    rw [ofDigits?, foldlM_digitBelow?_eq_some_iff hbase, Spells]
    · simp only [foldl_digits, ne_eq, reduceCtorEq, not_false_eq_true, true_and]
    · exact List.cons_ne_nil c cs

theorem inSignedRange_eq_some_iff :
    inSignedRange v = some w ↔ w = v ∧ -2 ^ 63 ≤ v ∧ v < 2 ^ 63 := by
  rw [inSignedRange, minSigned, maxSigned]
  split
  · rw [Option.some.injEq]
    omega
  · simp only [reduceCtorEq, false_iff]
    omega

/-- Whether characters are a sign and digits in base sixteen, worth a signed number of 64 bits. -/
def SpellsSigned (cs : List Char) (v : Int) : Prop :=
  ∃ (s : Char) (ds : List Char) (n : Nat), cs = s :: ds ∧ Spells 16 ds n ∧
    (s = '+' ∧ v = n ∨ s = '-' ∧ v = -n) ∧ -2 ^ 63 ≤ v ∧ v < 2 ^ 63

theorem spellsSigned_cons : SpellsSigned (c :: cs) v ↔ ∃ n : Nat, Spells 16 cs n ∧
    (c = '+' ∧ v = n ∨ c = '-' ∧ v = -n) ∧ -2 ^ 63 ≤ v ∧ v < 2 ^ 63 := by
  constructor
  · rintro ⟨s, ds, n, heq, h⟩
    cases heq
    exact ⟨n, h⟩
  · rintro ⟨n, h⟩
    exact ⟨c, cs, n, rfl, h⟩

/-- Digits in no base open with a sign. -/
theorem not_spells_of_sign (hbase : base ≤ 16) (hc : c = '+' ∨ c = '-') :
    ¬ Spells base (c :: cs) n := by
  rintro ⟨-, ds, hds, -⟩
  obtain ⟨d, -, hd, -⟩ := List.forall₂_cons_left_iff.1 hds
  rw [← digitBelow?_eq_some_iff hbase] at hd
  rcases hc with rfl | rfl <;> cases hd

theorem bind_inSignedRange_eq_some_iff (hbase : base ≤ 16) {f : Nat → Int} :
    ((ofDigits? base cs).bind fun n => inSignedRange (f n)) = some v ↔
      ∃ n, Spells base cs n ∧ v = f n ∧ -2 ^ 63 ≤ v ∧ v < 2 ^ 63 := by
  simp only [Option.bind_eq_some_iff, ofDigits?_eq_some_iff hbase, inSignedRange_eq_some_iff]
  refine exists_congr fun n => and_congr_right fun _ => and_congr_right fun hv => ?_
  rw [hv]

theorem decimal?_eq_some_iff : decimal? cs = some v ↔
    ∃ n : Nat, Spells 10 cs n ∧ v = n ∧ v < 2 ^ 63 := by
  rw [decimal?, bind_inSignedRange_eq_some_iff (by decide)]
  refine exists_congr fun n => and_congr_right fun _ => ?_
  omega

/-- Behind a sign the digits are read alone, as a number with that sign. -/
theorem bind_inSignedRange_sign_iff {f : Nat → Int} (hc : c = '+' ∨ c = '-')
    (hf : ∀ n : Nat, (c = '+' ∧ v = n ∨ c = '-' ∧ v = -n) ↔ v = f n) :
    ((ofDigits? 16 cs).bind fun n => inSignedRange (f n)) = some v ↔
      (∃ n : Nat, Spells 16 (c :: cs) n ∧ v = n ∧ v < 2 ^ 63) ∨ SpellsSigned (c :: cs) v := by
  have hunsigned : ¬ ∃ n : Nat, Spells 16 (c :: cs) n ∧ v = n ∧ v < 2 ^ 63 :=
    fun ⟨_, hn, _⟩ => not_spells_of_sign le_rfl hc hn
  rw [or_iff_right hunsigned, bind_inSignedRange_eq_some_iff le_rfl, spellsSigned_cons]
  simp only [hf]

theorem hexadecimal?_eq_some_iff : hexadecimal? cs = some v ↔
    (∃ n : Nat, Spells 16 cs n ∧ v = n ∧ v < 2 ^ 63) ∨ SpellsSigned cs v := by
  unfold hexadecimal?
  split
  · exact bind_inSignedRange_sign_iff (.inl rfl) (by simp)
  · exact bind_inSignedRange_sign_iff (.inr rfl) (by simp)
  · rename_i hplus hminus
    have hsigned : ¬ SpellsSigned cs v := by
      rintro ⟨s, ds, n, rfl, -, ⟨rfl, -⟩ | ⟨rfl, -⟩, -⟩
      · exact hplus ds rfl
      · exact hminus ds rfl
    rw [or_iff_left hsigned, bind_inSignedRange_eq_some_iff le_rfl]
    refine exists_congr fun n => and_congr_right fun _ => ?_
    omega

end Numeral

namespace Assembly

open Numeral

variable {t : String} {cs ds : List Char} {x : Char} {n : Nat} {i v w : Int}

/-- Whether a letter marks digits in base sixteen, behind a zero. -/
def IsHexMark (x : Char) : Prop := x = 'x' ∨ x = 'X'

/-- Whether characters are digits in base ten, or `0x` and digits in base sixteen, and what they are
worth. -/
def Magnitude (cs : List Char) (n : Nat) : Prop :=
  Spells 10 cs n ∨ ∃ x ds, IsHexMark x ∧ cs = '0' :: x :: ds ∧ Spells 16 ds n

/-- Whether characters are `0x` and digits in base sixteen with a sign between them, and what they
are worth. -/
def InnerSigned (cs : List Char) (i : Int) : Prop :=
  ∃ x ds, IsHexMark x ∧ cs = '0' :: x :: ds ∧ SpellsSigned ds i

/-- Whether a token is a number sign, at most one minus and these characters. With the minus it is
for the opposite of what they are worth. -/
def Opens (t : String) (cs : List Char) (i v : Int) : Prop :=
  t.toList = '#' :: cs ∧ v = i ∨ t.toList = '#' :: '-' :: cs ∧ v = -i

/-- Whether a token writes a number by the grammar. -/
def Writes (t : String) (v : Int) : Prop :=
  ∃ (cs : List Char) (n : Nat), Opens t cs n v ∧ Magnitude cs n ∧ n ≤ 2 ^ 63 - 1

/-- Whether a token is one of the grammar but for a sign behind its `0x`, and the number that it is
read as. -/
def WritesInside (t : String) (v : Int) : Prop :=
  ∃ (cs : List Char) (i : Int), Opens t cs i v ∧ InnerSigned cs i

/-! ## Numbers without the first sign -/

theorem magnitude_hexMark (hx : IsHexMark x) : Magnitude ('0' :: x :: ds) n ↔ Spells 16 ds n := by
  constructor
  · rintro (⟨-, _, hall, -⟩ | ⟨x, ds, -, heq, h⟩)
    · -- The mark is no digit in base ten.
      obtain ⟨_, _, -, hrest, -⟩ := List.forall₂_cons_left_iff.1 hall
      obtain ⟨d, _, hd, -⟩ := List.forall₂_cons_left_iff.1 hrest
      rw [← digitBelow?_eq_some_iff (by decide)] at hd
      rcases hx with rfl | rfl <;> cases hd
    · cases heq
      exact h
  · exact fun h => .inr ⟨x, ds, hx, rfl, h⟩

theorem innerSigned_hexMark (hx : IsHexMark x) :
    InnerSigned ('0' :: x :: ds) i ↔ SpellsSigned ds i := by
  constructor
  · rintro ⟨x, ds, -, heq, h⟩
    cases heq
    exact h
  · exact fun h => ⟨x, ds, hx, rfl, h⟩

theorem magnitude?_hexMark (hx : IsHexMark x) : magnitude? ('0' :: x :: ds) = hexadecimal? ds := by
  rcases hx with rfl | rfl <;> rfl

theorem magnitude?_of_ne (h : ∀ x ds, IsHexMark x → cs ≠ '0' :: x :: ds) :
    magnitude? cs = decimal? cs := by
  unfold magnitude?
  split
  · exact absurd rfl (h 'x' _ (.inl rfl))
  · exact absurd rfl (h 'X' _ (.inr rfl))
  · rfl

theorem magnitude?_eq_some_iff : magnitude? cs = some i ↔
    (∃ n : Nat, Magnitude cs n ∧ i = n ∧ i < 2 ^ 63) ∨ InnerSigned cs i := by
  by_cases hmark : ∃ x ds, IsHexMark x ∧ cs = '0' :: x :: ds
  · obtain ⟨x, ds, hx, rfl⟩ := hmark
    simp only [magnitude?_hexMark hx, hexadecimal?_eq_some_iff, magnitude_hexMark hx,
      innerSigned_hexMark hx]
  · have hne : ∀ x ds, IsHexMark x → cs ≠ '0' :: x :: ds := fun x ds hx heq =>
      hmark ⟨x, ds, hx, heq⟩
    have hinner : ¬ InnerSigned cs i := fun ⟨x, ds, hx, heq, _⟩ => hne x ds hx heq
    have hmagnitude : ∀ n, Magnitude cs n ↔ Spells 10 cs n := fun n =>
      or_iff_left fun ⟨x, ds, hx, heq, _⟩ => hne x ds hx heq
    simp only [magnitude?_of_ne hne, decimal?_eq_some_iff, hmagnitude, hinner, or_false]

theorem not_magnitude_minus : ¬ Magnitude ('-' :: cs) n := by
  rintro (h | ⟨x, ds, -, heq, -⟩)
  · exact not_spells_of_sign (by decide) (.inr rfl) h
  · cases heq

theorem not_innerSigned_minus : ¬ InnerSigned ('-' :: cs) i := by
  rintro ⟨x, ds, -, heq, -⟩
  cases heq

theorem not_innerSigned_of_magnitude (h : Magnitude cs n) : ¬ InnerSigned cs i := by
  rintro ⟨x, _, hx, rfl, s, ds, m, rfl, -, hs, -⟩
  rw [magnitude_hexMark hx] at h
  exact not_spells_of_sign le_rfl (hs.imp And.left And.left) h

/-! ## Tokens -/

theorem immediate?_eq_some_iff_opens :
    immediate? t = some v ↔ ∃ cs i, Opens t cs i v ∧ magnitude? cs = some i := by
  have hminus : ∀ cs i, magnitude? ('-' :: cs) ≠ some i := by
    intro cs i h
    rcases magnitude?_eq_some_iff.1 h with ⟨n, hn, -⟩ | hinner
    · exact not_magnitude_minus hn
    · exact not_innerSigned_minus hinner
  unfold immediate? Opens
  split
  · rename_i cs htoken
    rw [Option.map_eq_some_iff, htoken]
    constructor
    · rintro ⟨i, hi, rfl⟩
      exact ⟨cs, i, .inr ⟨rfl, rfl⟩, hi⟩
    · rintro ⟨cs, i, ⟨heq, -⟩ | ⟨heq, rfl⟩, hi⟩
      · cases heq
        exact absurd hi (hminus _ i)
      · cases heq
        exact ⟨i, hi, rfl⟩
  · rename_i cs hother htoken
    rw [htoken]
    constructor
    · exact fun hv => ⟨cs, v, .inl ⟨rfl, rfl⟩, hv⟩
    · rintro ⟨cs', i, ⟨heq, rfl⟩ | ⟨heq, -⟩, hi⟩
      · cases heq
        exact hi
      · cases heq
        exact absurd rfl (hother cs')
  · rename_i hnone
    simp only [reduceCtorEq, false_iff]
    rintro ⟨cs, i, ⟨heq, -⟩ | ⟨heq, -⟩, -⟩
    · exact hnone _ heq
    · exact hnone _ heq

theorem immediate?_eq_some_iff : immediate? t = some v ↔ Writes t v ∨ WritesInside t v := by
  simp only [immediate?_eq_some_iff_opens, magnitude?_eq_some_iff, and_or_left, exists_or]
  refine or_congr ?_ Iff.rfl
  constructor
  · rintro ⟨cs, _, hopens, n, hn, rfl, hlt⟩
    exact ⟨cs, n, hopens, hn, by omega⟩
  · rintro ⟨cs, n, hopens, hn, hle⟩
    exact ⟨cs, n, hopens, n, hn, rfl, by omega⟩

theorem not_writesInside_of_writes (h : Writes t v) : ¬ WritesInside t w := by
  obtain ⟨cs, n, hopens, hn, -⟩ := h
  rintro ⟨cs', i, hopens', hi⟩
  rcases hopens with ⟨htoken, -⟩ | ⟨htoken, -⟩ <;> rcases hopens' with ⟨heq, -⟩ | ⟨heq, -⟩ <;>
    rw [htoken] at heq <;> cases heq
  · exact not_innerSigned_of_magnitude hn hi
  · exact not_magnitude_minus hn
  · exact not_innerSigned_minus hi
  · exact not_innerSigned_of_magnitude hn hi

/-- The least signed number of 64 bits is read behind `0x`, and a minus before it makes a number
that is none of them. -/
theorem exists_overflow_iff : (∃ v, immediate? t = some v ∧ 2 ^ 63 ≤ v) ↔
    ∃ x ds, IsHexMark x ∧ t.toList = '#' :: '-' :: '0' :: x :: '-' :: ds ∧
      Spells 16 ds (2 ^ 63) := by
  simp only [immediate?_eq_some_iff]
  constructor
  · rintro ⟨v, ⟨cs, n, hopens, -, hn⟩ | ⟨cs, i, hopens, hi⟩, hv⟩
    · rcases hopens with ⟨-, rfl⟩ | ⟨-, rfl⟩ <;> omega
    · obtain ⟨x, _, hx, rfl, s, ds, n, rfl, hds, hs, hlow, hhigh⟩ := hi
      rcases hopens with ⟨-, rfl⟩ | ⟨htoken, rfl⟩
      · omega
      · rcases hs with ⟨-, rfl⟩ | ⟨rfl, rfl⟩
        · omega
        · obtain rfl : n = 2 ^ 63 := by omega
          exact ⟨x, ds, hx, htoken, hds⟩
  · rintro ⟨x, ds, hx, htoken, hds⟩
    refine ⟨2 ^ 63, .inr ⟨_, -2 ^ 63, .inr ⟨htoken, rfl⟩, x, _, hx, rfl, ?_⟩, le_rfl⟩
    exact ⟨'-', ds, 2 ^ 63, rfl, hds, .inr ⟨rfl, rfl⟩, le_rfl, by decide⟩

/-- **Which tokens are numbers.** A token is read as a number exactly when it writes the number by
the grammar, or but for a sign behind its `0x`. So the grammar decides alone on the tokens that have
no such sign. What is read is always below 2 ^ 63 unless it is that number itself, by a minus in
both places before digits that are worth it. -/
theorem immediate_exact (t : String) :
    (∀ v, immediate? t = some v ↔ Writes t v ∨ WritesInside t v) ∧
    ((∀ v, immediate? t = some v ↔ Writes t v) ↔ ∀ v, ¬ WritesInside t v) ∧
    ((∃ v, immediate? t = some v ∧ 2 ^ 63 ≤ v) ↔
      ∃ x ds, IsHexMark x ∧ t.toList = '#' :: '-' :: '0' :: x :: '-' :: ds ∧
        Spells 16 ds (2 ^ 63)) := by
  refine ⟨fun v => immediate?_eq_some_iff, ?_, exists_overflow_iff⟩
  simp only [immediate?_eq_some_iff]
  constructor
  · intro hall v hinside
    exact not_writesInside_of_writes ((hall v).1 (.inr hinside)) hinside
  · exact fun hnone v => or_iff_left (hnone v)

/-- Two numbers that the grammar has, one at the end of the range, and three that it has not. -/
example : immediate? "#-0X00ff" = some (-255) ∧
    immediate? "#9223372036854775807" = some (2 ^ 63 - 1) ∧
    immediate? "#--1" = none ∧ immediate? "#0x" = none ∧
    immediate? "#0x8000000000000000" = none := by
  decide +kernel

/-- A sign behind `0x` is read, though the grammar has no such token. -/
theorem exists_read_not_written :
    ∃ t v, immediate? t = some v ∧ ∀ w, ¬ Writes t w := by
  have hdigits : Spells 16 ['5'] 5 := (ofDigits?_eq_some_iff le_rfl).1 rfl
  have hinside : WritesInside "#0x-5" (-5) := by
    refine ⟨_, -5, .inl ⟨rfl, rfl⟩, 'x', _, .inl rfl, rfl, '-', ['5'], 5, rfl, hdigits, ?_⟩
    exact ⟨.inr ⟨rfl, rfl⟩, by decide, by decide⟩
  exact ⟨"#0x-5", -5, immediate?_eq_some_iff.2 (.inr hinside), fun w hwrites =>
    not_writesInside_of_writes hwrites hinside⟩

end Assembly
end WordMachine
