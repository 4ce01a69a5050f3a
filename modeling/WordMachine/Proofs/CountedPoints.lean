import WordMachine.Debug.PointTable

/-!
# WordMachine.Proofs.CountedPoints

Points that have counted stops before. A table is what it has counted on top of a table without
counts (`PointTable.withHits_unhit`), and what is done with a table does not look at the counts: it
is done alike on top of others.
-/

namespace WordMachine

namespace Point

variable {κ : Type}

/-- The point with stops counted on top of others. -/
def withHits (n : Nat → Nat) (p : Point κ) : Point κ := { p with hits := n p.id + p.hits }

end Point

namespace PointTable

variable {κ : Type} {t : PointTable κ} {n : Nat → Nat} {id : Nat}

theorem eq_of_points {t t' : PointTable κ} (hpoints : t.points = t'.points)
    (hnext : t.nextId = t'.nextId) : t = t' := by
  cases t
  cases t'
  cases hpoints
  cases hnext
  rfl

/-- The table with the stops of each point counted on top of others. -/
def withHits (n : Nat → Nat) (t : PointTable κ) : PointTable κ where
  points := t.points.map (·.withHits n)
  nextId := t.nextId
  increasing := by
    rw [List.map_map]
    exact t.increasing
  fresh := by
    rw [List.map_map]
    exact t.fresh

/-- The table with all counts set back. -/
def unhit (t : PointTable κ) : PointTable κ where
  points := t.points.map fun p => { p with hits := 0 }
  nextId := t.nextId
  increasing := by
    rw [List.map_map]
    exact t.increasing
  fresh := by
    rw [List.map_map]
    exact t.fresh

/-- The stops that the point with a number has counted. -/
def hitsOf (t : PointTable κ) (id : Nat) : Nat := ((t.get? id).map Point.hits).getD 0

theorem get?_of_mem {p : Point κ} (hp : p ∈ t.points) : t.get? p.id = some p := by
  obtain ⟨before, after, hsplit⟩ := List.append_of_mem hp
  have hincreasing := t.increasing
  rw [hsplit, List.map_append, List.map_cons, List.pairwise_append] at hincreasing
  rw [get?, hsplit, List.find?_append, List.find?_cons_of_pos (by simp), Option.or_eq_right_of_none]
  rw [List.find?_eq_none]
  intro q hq hid
  have hlt := hincreasing.2.2 q.id (List.mem_map_of_mem hq) p.id List.mem_cons_self
  simp only [decide_eq_true_eq] at hid
  omega

theorem hitsOf_eq_zero (h : t.nextId ≤ id) : t.hitsOf id = 0 := by
  have hnone : t.get? id = none := by
    rw [get?, List.find?_eq_none]
    intro p hp hid
    have hlt := t.fresh p.id (List.mem_map_of_mem hp)
    simp only [decide_eq_true_eq] at hid
    omega
  rw [hitsOf, hnone]
  rfl

/-- A table is what it has counted on top of a table without counts. -/
theorem withHits_unhit (t : PointTable κ) : t.unhit.withHits t.hitsOf = t := by
  refine eq_of_points ?_ rfl
  have hself : ∀ p ∈ t.points, ({ p with hits := 0 } : Point κ).withHits t.hitsOf = p := by
    intro p hp
    have hhits : t.hitsOf p.id = p.hits := by rw [hitsOf, get?_of_mem hp]; rfl
    simp only [Point.withHits, hhits, Nat.add_zero]
  simp only [withHits, unhit, List.map_map]
  exact (List.map_congr_left hself).trans (List.map_id _)

theorem get?_withHits : (t.withHits n).get? id = (t.get? id).map (·.withHits n) := by
  simp only [get?, withHits, List.find?_map]
  rfl

theorem insert_withHits (site : κ) (hn : n t.nextId = 0) :
    (t.withHits n).insert site = ((t.insert site).1, (t.insert site).2.withHits n) := by
  refine Prod.ext rfl (eq_of_points ?_ rfl)
  simp [insert, withHits, Point.withHits, hn]

theorem erase_withHits : (t.withHits n).erase id = (t.erase id).withHits n := by
  refine eq_of_points ?_ rfl
  simp only [erase, withHits, List.filter_map]
  rfl

theorem modify_withHits {f : Point κ → Point κ}
    (hf : ∀ p, { f (p.withHits n) with id := p.id } =
      ({ f p with id := p.id } : Point κ).withHits n) :
    (t.withHits n).modify id f = (t.modify id f).withHits n := by
  refine eq_of_points ?_ rfl
  simp only [modify, withHits, List.map_map]
  refine List.map_congr_left fun p _ => ?_
  by_cases hid : p.id = id
  · have hid' : (p.withHits n).id = id := hid
    simp only [Function.comp_apply, changed, hid, hid', if_true]
    exact hid ▸ hf p
  · have hid' : (p.withHits n).id ≠ id := hid
    simp only [Function.comp_apply, changed, hid, hid', if_false]

theorem setEnabled_withHits {enabled : Bool} :
    (t.withHits n).setEnabled id enabled = (t.setEnabled id enabled).withHits n :=
  modify_withHits fun _ => rfl

theorem hit?_withHits {applies : κ → Bool} :
    (t.withHits n).hit? applies =
      (t.hit? applies).map (Prod.map (·.withHits n) (·.withHits n)) := by
  simp only [hit?, withHits, List.find?_map, Option.map_map]
  refine Option.map_congr fun p hp => ?_
  refine Prod.ext rfl ?_
  exact modify_withHits fun _ => rfl

theorem nextId_of_hit? {applies : κ → Bool} {b : Point κ} {t' : PointTable κ}
    (h : t.hit? applies = some (b, t')) : t'.nextId = t.nextId := by
  obtain ⟨p, -, heq⟩ := Option.map_eq_some_iff.1 h
  cases heq
  rfl

end PointTable

end WordMachine
