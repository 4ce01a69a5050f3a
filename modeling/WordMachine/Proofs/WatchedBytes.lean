import WordMachine.Proofs.DataAccess

/-!
# WordMachine.Proofs.WatchedBytes

When an access triggers a watchpoint, in terms of bytes. Whether two ranges meet is decided by
their ends alone. Of ranges that are not empty this says that they have a byte in common
(`Access.overlaps_iff`); a range of no bytes is met where it lies inside an access and not at its
start (`Access.overlaps_zero_iff`). So a watchpoint on no bytes can be triggered
(`Point.triggeredBy_exact`), though there is nothing to watch.
-/

namespace WordMachine

namespace Access

variable {x : Access} {a : Word} {n : Nat}

/-- Whether an access goes on across an address that it does not start at. -/
def Straddles (x : Access) (a : Word) : Prop :=
  x.address.toNat < a.toNat ∧ a.toNat < x.address.toNat + x.size

instance (x : Access) (a : Word) : Decidable (x.Straddles a) :=
  inferInstanceAs (Decidable (_ ∧ _))

theorem overlaps_iff (hx : 0 < x.size) (hn : 0 < n) :
    x.Overlaps a n ↔ ∃ c, x.Covers c ∧ a.toNat ≤ c ∧ c < a.toNat + n := by
  constructor
  · rintro ⟨hlow, hhigh⟩
    -- The greater of the two first addresses lies in both ranges.
    exact ⟨max x.address.toNat a.toNat, ⟨by omega, by omega⟩, by omega, by omega⟩
  · rintro ⟨c, ⟨hlow, hhigh⟩, hlow', hhigh'⟩
    exact ⟨by omega, by omega⟩

theorem overlaps_zero_iff : x.Overlaps a 0 ↔ x.Straddles a := Iff.rfl

end Access

namespace Watch

variable {w : Watch} {x : Access}

theorem applies_iff (hx : 0 < x.size) : w.Applies x ↔
    (∃ c, w.Guards x.direction c ∧ x.Covers c) ∨
      w.kind.Covers x.direction ∧ w.size = 0 ∧ x.Straddles w.address := by
  by_cases hw : w.size = 0
  · have hempty : ∀ c, ¬ w.Guards x.direction c := by
      rintro c ⟨-, hlow, hhigh⟩
      rw [hw] at hhigh
      exact absurd hhigh (Nat.not_lt.2 hlow)
    simp [Applies, hw, hempty, Access.overlaps_zero_iff]
  · have hpos : 0 < w.size.toNat := Nat.pos_of_ne_zero fun h => hw (BitVec.eq_of_toNat_eq h)
    rw [Applies, Access.overlaps_iff hx hpos]
    constructor
    · rintro ⟨hkind, c, hcovers, hin⟩
      exact .inl ⟨c, ⟨hkind, hin⟩, hcovers⟩
    · rintro (⟨c, ⟨hkind, hin⟩, hcovers⟩ | ⟨-, hzero, -⟩)
      · exact ⟨hkind, c, hcovers, hin⟩
      · exact absurd hzero hw

end Watch

namespace Point

variable {x : Access}

/-- Whether an access triggers a watchpoint. -/
def TriggeredBy (p : Point Watch) (x : Access) : Prop := p.enabled = true ∧ p.site.Applies x

instance (p : Point Watch) (x : Access) : Decidable (p.TriggeredBy x) :=
  inferInstanceAs (Decidable (_ ∧ _))

/-- Whether a watchpoint is on no bytes, at a place that an access straddles. -/
def IsHollowIn (p : Point Watch) (x : Access) : Prop :=
  p.enabled = true ∧ p.site.kind.Covers x.direction ∧ p.site.size = 0 ∧
    x.Straddles p.site.address

/-- **What triggers a watchpoint.** An access triggers a watchpoint that is enabled and counts
accesses in its direction when the two have a byte in common. It also triggers one on no bytes that
it straddles, and for these alone it is not a common byte that decides. A table finds a watchpoint
for an access exactly when it has one that the access triggers. -/
theorem triggeredBy_exact (hx : 0 < x.size) :
    (∀ p : Point Watch, p.TriggeredBy x ↔
      p.enabled = true ∧ (∃ c, p.site.Guards x.direction c ∧ x.Covers c) ∨ p.IsHollowIn x) ∧
    (∀ p : Point Watch, (p.TriggeredBy x ↔
      p.enabled = true ∧ ∃ c, p.site.Guards x.direction c ∧ x.Covers c) ↔ ¬ p.IsHollowIn x) ∧
    ∀ t : PointTable Watch, (∃ hit, t.hit? (fun w => decide (w.Applies x)) = some hit) ↔
      ∃ p ∈ t.points, p.TriggeredBy x := by
  have hall (p : Point Watch) : p.TriggeredBy x ↔
      p.enabled = true ∧ (∃ c, p.site.Guards x.direction c ∧ x.Covers c) ∨ p.IsHollowIn x := by
    rw [TriggeredBy, Watch.applies_iff hx, and_or_left, IsHollowIn]
  refine ⟨hall, fun p => ?_, fun t => ?_⟩
  · rw [hall]
    constructor
    · intro hiff hhollow
      obtain ⟨-, c, ⟨-, hlow, hhigh⟩, -⟩ := hiff.1 (.inr hhollow)
      rw [hhollow.2.2.1] at hhigh
      exact absurd hhigh (Nat.not_lt.2 hlow)
    · intro hnot
      exact or_iff_left hnot
  · rw [← Option.ne_none_iff_exists', ne_eq, PointTable.hit?_eq_none, not_not]
    simp only [PointTable.Catches, decide_eq_true_eq, TriggeredBy]

/-- The last byte of the address space triggers a watchpoint that goes on past it, and none that
begins at the other end. -/
theorem triggeredBy_exact_topmost : 0 < (⟨0xFFFFFFFF, 1, .write⟩ : Access).size ∧
    TriggeredBy ⟨0, ⟨0xFFFFFFFD, 8, .readWrite⟩, true, 0⟩ ⟨0xFFFFFFFF, 1, .write⟩ ∧
    ¬ TriggeredBy ⟨1, ⟨0, 4, .readWrite⟩, true, 0⟩ ⟨0xFFFFFFFF, 1, .write⟩ := by
  have hx : 0 < (⟨0xFFFFFFFF, 1, .write⟩ : Access).size := Nat.one_pos
  obtain ⟨hall, -, -⟩ := triggeredBy_exact hx
  refine ⟨hx, (hall _).2 (.inl ⟨rfl, 0xFFFFFFFF, ?_, ?_⟩), fun h => ?_⟩
  · exact ⟨trivial, by decide, by decide⟩
  · exact ⟨by decide, by decide⟩
  · rcases (hall _).1 h with ⟨-, c, ⟨-, -, hhigh⟩, hlow, -⟩ | ⟨-, -, hzero, -⟩
    · exact absurd (hlow.trans_lt hhigh) (by decide)
    · exact absurd hzero (by decide)

/-- A watchpoint on no bytes, which a word that is written around its place triggers all the
same. -/
theorem exists_triggeredBy_without_byte : ∃ (p : Point Watch) (x : Access), 0 < x.size ∧
    p.TriggeredBy x ∧ ¬ ∃ c, p.site.Guards x.direction c ∧ x.Covers c := by
  refine ⟨⟨0, ⟨0x1002, 0, .write⟩, true, 0⟩, ⟨0x1000, 4, .write⟩, by decide, by decide, ?_⟩
  rintro ⟨c, ⟨-, hlow, hhigh⟩, -⟩
  exact absurd hhigh (Nat.not_lt.2 hlow)

end Point
end WordMachine
