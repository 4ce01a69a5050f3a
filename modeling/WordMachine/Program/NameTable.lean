/-!
# WordMachine.Program.NameTable

Tables in which every name stands once, in the order in which the names came. A new value for a
name that is there takes the place of the old one.
-/

namespace WordMachine

structure NameTable (α : Type) where
  entries : List (String × α)
  distinct : (entries.map (·.1)).Nodup

namespace NameTable

variable {α β : Type}

@[ext] theorem ext {s t : NameTable α} (h : s.entries = t.entries) : s = t := by
  cases s; cases t; cases h; rfl

/-- The table without names. -/
def empty : NameTable α := ⟨[], .nil⟩

instance : Inhabited (NameTable α) := ⟨empty⟩

/-- Gives a name a value, in its place or at the end. -/
def assign (name : String) (x : α) : List (String × α) → List (String × α)
  | [] => [(name, x)]
  | (n, y) :: rest => if n = name then (name, x) :: rest else (n, y) :: assign name x rest

theorem mem_names_assign {name n : String} {x : α} :
    ∀ {es : List (String × α)},
      n ∈ (assign name x es).map (·.1) ↔ n = name ∨ n ∈ es.map (·.1) := by
  intro es
  induction es with
  | nil => simp [assign]
  | cons e rest ih =>
    obtain ⟨m, y⟩ := e
    unfold assign
    split
    · next h => subst h; simp
    · simp only [List.map_cons, List.mem_cons, ih]
      exact or_left_comm

theorem distinct_assign {name : String} {x : α} :
    ∀ {es : List (String × α)}, (es.map (·.1)).Nodup → ((assign name x es).map (·.1)).Nodup := by
  intro es
  induction es with
  | nil => intro _; simp [assign]
  | cons e rest ih =>
    obtain ⟨m, y⟩ := e
    intro h
    rw [List.map_cons] at h
    obtain ⟨hm, hrest⟩ := List.nodup_cons.1 h
    unfold assign
    split
    · next heq => subst heq; exact List.nodup_cons.2 ⟨hm, hrest⟩
    · next hne =>
      refine List.nodup_cons.2 ⟨?_, ih hrest⟩
      intro hmem
      rcases mem_names_assign.1 hmem with hmem | hmem
      · exact hne hmem
      · exact hm hmem

/-- Gives a name a value. -/
def insert (t : NameTable α) (name : String) (x : α) : NameTable α :=
  ⟨assign name x t.entries, distinct_assign t.distinct⟩

/-- The table of a list of entries, given in order. -/
def ofList (es : List (String × α)) : NameTable α :=
  es.foldl (fun t e => t.insert e.1 e.2) empty

/-- The value of a name. -/
def get? (t : NameTable α) (name : String) : Option α :=
  (t.entries.find? (·.1 = name)).map (·.2)

/-- The place of a name in the order. -/
def indexOf? (t : NameTable α) (name : String) : Option Nat :=
  t.entries.findIdx? (·.1 = name)

/-- The name and value at a place in the order. -/
def at? (t : NameTable α) (i : Nat) : Option (String × α) := t.entries[i]?

/-- The values in order. -/
def values (t : NameTable α) : List α := t.entries.map (·.2)

/-- Changes every value and no name. -/
def mapValues (t : NameTable α) (f : α → β) : NameTable β :=
  ⟨t.entries.map fun e => (e.1, f e.2), by simpa [Function.comp_def] using t.distinct⟩

end NameTable
end WordMachine
