import WordMachine.Debug.PointTable

/-!
# WordMachine.Proofs.PointHits

Which point of a table stops something. `PointTable.hit?` finds the lowest number among the enabled
points that apply, and counts the stop without touching what the points are set on.
-/

namespace WordMachine
namespace PointTable

variable {κ : Type} {t t' : PointTable κ} {applies : κ → Bool} {b p : Point κ}

/-- Whether some enabled point applies. -/
def Catches (t : PointTable κ) (applies : κ → Bool) : Prop :=
  ∃ p ∈ t.points, p.enabled = true ∧ applies p.site = true

/-- Whether a number is the lowest among the enabled points that apply. -/
def IsLowest (t : PointTable κ) (applies : κ → Bool) (id : Nat) : Prop :=
  (∃ p ∈ t.points, p.id = id ∧ p.enabled = true ∧ applies p.site = true) ∧
    ∀ p ∈ t.points, p.enabled = true → applies p.site = true → id ≤ p.id

/-- The points without their counts. -/
def settings (t : PointTable κ) : List (Nat × κ × Bool) :=
  t.points.map fun p => (p.id, p.site, p.enabled)

theorem exists_point (h : t.settings = t'.settings) (hp : p ∈ t.points) :
    ∃ q ∈ t'.points, q.id = p.id ∧ q.site = p.site ∧ q.enabled = p.enabled := by
  have hmem : (p.id, p.site, p.enabled) ∈ t'.settings := h ▸ List.mem_map_of_mem hp
  obtain ⟨q, hq, heq⟩ := List.mem_map.1 hmem
  simp only [Prod.mk.injEq] at heq
  exact ⟨q, hq, heq⟩

theorem Catches.congr (hc : t.Catches applies) (h : t.settings = t'.settings) :
    t'.Catches applies := by
  obtain ⟨p, hp, henabled, hsite⟩ := hc
  obtain ⟨q, hq, -, hs, he⟩ := exists_point h hp
  exact ⟨q, hq, he ▸ henabled, hs ▸ hsite⟩

theorem IsLowest.congr {id : Nat} (hl : t.IsLowest applies id) (h : t.settings = t'.settings) :
    t'.IsLowest applies id := by
  obtain ⟨⟨p, hp, hid, henabled, hsite⟩, hleast⟩ := hl
  obtain ⟨q, hq, hi, hs, he⟩ := exists_point h hp
  refine ⟨⟨q, hq, hi.trans hid, he ▸ henabled, hs ▸ hsite⟩, fun x hx hxe hxs => ?_⟩
  obtain ⟨y, hy, hyi, hys, hye⟩ := exists_point h.symm hx
  exact hyi ▸ hleast y hy (hye ▸ hxe) (hys ▸ hxs)

theorem hit?_eq_none : t.hit? applies = none ↔ ¬ t.Catches applies := by
  simp [hit?, Catches]

/-- What is found is one of the points, with one more stop. -/
theorem hit?_eq_some (h : t.hit? applies = some (b, t')) :
    ∃ p, t.points.find? (fun p => p.enabled && applies p.site) = some p ∧
      b = { p with hits := p.hits + 1 } ∧
        t' = t.modify p.id fun p => { p with hits := p.hits + 1 } := by
  obtain ⟨p, hp, heq⟩ := Option.map_eq_some_iff.1 h
  cases heq
  exact ⟨p, hp, rfl, rfl⟩

theorem isLowest_of_hit? (h : t.hit? applies = some (b, t')) : t.IsLowest applies b.id := by
  obtain ⟨p, hp, rfl, -⟩ := hit?_eq_some h
  obtain ⟨hcatches, before, after, hsplit, hbefore⟩ := List.find?_eq_some_iff_append.1 hp
  simp only [Bool.and_eq_true] at hcatches
  refine ⟨⟨p, List.mem_of_find?_eq_some hp, rfl, hcatches⟩, fun q hq henabled hsite => ?_⟩
  have hincreasing := t.increasing
  rw [hsplit, List.map_append, List.map_cons, List.pairwise_append, List.pairwise_cons]
    at hincreasing
  rw [hsplit, List.mem_append, List.mem_cons] at hq
  rcases hq with hq | rfl | hq
  · have hnot := hbefore q hq
    simp [henabled, hsite] at hnot
  · exact Nat.le_refl _
  · exact Nat.le_of_lt (hincreasing.2.1.1 q.id (List.mem_map_of_mem hq))

theorem settings_of_hit? (h : t.hit? applies = some (b, t')) : t'.settings = t.settings := by
  obtain ⟨p, -, -, rfl⟩ := hit?_eq_some h
  simp only [settings, modify, List.map_map]
  refine List.map_congr_left fun q _ => ?_
  simp only [Function.comp_apply, changed]
  split <;> rfl

end PointTable
end WordMachine
