/-!
# WordMachine.Debug.PointTable

The places at which a session wants to stop. Every point gets a number of its own, which is never
given again (`PointTable.fresh`), and counts how often it has stopped something. Points are kept
in the order of their numbers, and of several that apply the lowest number wins.
-/

namespace WordMachine

structure Point (κ : Type) where
  id : Nat
  /-- What the point is set on. -/
  site : κ
  enabled : Bool := true
  hits : Nat := 0
deriving DecidableEq, Repr

structure PointTable (κ : Type) where
  points : List (Point κ)
  nextId : Nat
  increasing : (points.map Point.id).Pairwise (· < ·)
  fresh : ∀ i ∈ points.map Point.id, i < nextId

namespace PointTable

variable {κ : Type}

/-- The table without points. -/
def empty : PointTable κ := ⟨[], 0, .nil, by simp⟩

instance : Inhabited (PointTable κ) := ⟨empty⟩

/-- Adds an enabled point under the next number. -/
def insert (t : PointTable κ) (site : κ) : Nat × PointTable κ :=
  (t.nextId, {
    points := t.points ++ [{ id := t.nextId, site }]
    nextId := t.nextId + 1
    increasing := by
      simp only [List.map_append, List.map_cons, List.map_nil, List.pairwise_append]
      refine ⟨t.increasing, by simp, ?_⟩
      intro i hi j hj
      simp only [List.mem_singleton] at hj
      exact hj ▸ t.fresh i hi
    fresh := by
      intro i hi
      simp only [List.map_append, List.map_cons, List.map_nil, List.mem_append,
        List.mem_singleton] at hi
      rcases hi with hi | hi
      · exact Nat.lt_succ_of_lt (t.fresh i hi)
      · exact hi ▸ Nat.lt_succ_self _ })

/-- The point with a number. -/
def get? (t : PointTable κ) (id : Nat) : Option (Point κ) := t.points.find? (·.id = id)

/-- Takes the point with a number out. -/
def erase (t : PointTable κ) (id : Nat) : PointTable κ where
  points := t.points.filter (·.id ≠ id)
  nextId := t.nextId
  increasing := t.increasing.sublist ((List.filter_sublist).map _)
  fresh := fun i hi => t.fresh i (((List.filter_sublist).map _).subset hi)

/-- What a point with this number becomes under a change; its number stays. -/
def changed (id : Nat) (f : Point κ → Point κ) (p : Point κ) : Point κ :=
  if p.id = id then { f p with id := p.id } else p

theorem id_changed (id : Nat) (f : Point κ → Point κ) (p : Point κ) :
    (changed id f p).id = p.id := by
  unfold changed; split <;> rfl

theorem map_id_changed (id : Nat) (f : Point κ → Point κ) (ps : List (Point κ)) :
    (ps.map (changed id f)).map Point.id = ps.map Point.id := by
  simp [Function.comp_def, id_changed]

/-- Changes the point with a number. -/
def modify (t : PointTable κ) (id : Nat) (f : Point κ → Point κ) : PointTable κ where
  points := t.points.map (changed id f)
  nextId := t.nextId
  increasing := by rw [map_id_changed]; exact t.increasing
  fresh := by rw [map_id_changed]; exact t.fresh

/-- Switches the point with a number on or off. -/
def setEnabled (t : PointTable κ) (id : Nat) (enabled : Bool) : PointTable κ :=
  t.modify id fun p => { p with enabled }

/-- The enabled point with the lowest number among those whose site applies, with the stop
counted. -/
def hit? (t : PointTable κ) (applies : κ → Bool) : Option (Point κ × PointTable κ) :=
  (t.points.find? fun p => p.enabled && applies p.site).map fun p =>
    ({ p with hits := p.hits + 1 }, t.modify p.id fun p => { p with hits := p.hits + 1 })

end PointTable
end WordMachine
