import WordMachine.Word

/-!
# WordMachine.Program.AddressMap

Finite maps from addresses, kept as the list of their entries in increasing order of address.
The order is part of the type, so two maps with the same entries are equal (`AddressMap.ext`).
-/

namespace WordMachine

structure AddressMap (α : Type) where
  entries : List (Word × α)
  increasing : entries.Pairwise (fun x y => x.1 < y.1)

namespace AddressMap

variable {α β : Type}

@[ext] theorem ext {m n : AddressMap α} (h : m.entries = n.entries) : m = n := by
  cases m; cases n; cases h; rfl

/-- The map without entries. -/
def empty : AddressMap α := ⟨[], .nil⟩

instance : Inhabited (AddressMap α) := ⟨empty⟩

/-- Puts an entry in its place among entries in increasing order. -/
def place (a : Word) (x : α) : List (Word × α) → List (Word × α)
  | [] => [(a, x)]
  | (b, y) :: rest =>
    if a < b then (a, x) :: (b, y) :: rest
    else if a = b then (a, x) :: rest
    else (b, y) :: place a x rest

theorem fst_of_mem_place {a : Word} {x : α} {e : Word × α} :
    ∀ {es : List (Word × α)}, e ∈ place a x es → e.1 = a ∨ e ∈ es := by
  intro es
  induction es with
  | nil => intro h; simp [place] at h; exact .inl (by rw [h])
  | cons f rest ih =>
    obtain ⟨b, y⟩ := f
    unfold place
    split
    · intro h
      rcases List.mem_cons.1 h with h | h
      · exact .inl (by rw [h])
      · exact .inr h
    · split
      · intro h
        rcases List.mem_cons.1 h with h | h
        · exact .inl (by rw [h])
        · exact .inr (List.mem_cons_of_mem _ h)
      · intro h
        rcases List.mem_cons.1 h with h | h
        · exact .inr (h ▸ List.mem_cons_self)
        · rcases ih h with h | h
          · exact .inl h
          · exact .inr (List.mem_cons_of_mem _ h)

theorem increasing_place {a : Word} {x : α} :
    ∀ {es : List (Word × α)}, es.Pairwise (fun x y => x.1 < y.1) →
      (place a x es).Pairwise (fun x y => x.1 < y.1) := by
  intro es
  induction es with
  | nil => intro _; simp [place]
  | cons f rest ih =>
    obtain ⟨b, y⟩ := f
    intro h
    obtain ⟨hb, hrest⟩ := List.pairwise_cons.1 h
    unfold place
    split
    · next hab =>
      refine List.pairwise_cons.2 ⟨?_, h⟩
      intro e he
      rcases List.mem_cons.1 he with he | he
      · rw [he]; exact hab
      · exact BitVec.lt_trans hab (hb e he)
    · next hab =>
      split
      · next heq => subst heq; exact List.pairwise_cons.2 ⟨hb, hrest⟩
      · next hne =>
        refine List.pairwise_cons.2 ⟨?_, ih hrest⟩
        intro e he
        rcases fst_of_mem_place he with he | he
        · rw [he]
          simp only [BitVec.lt_def, BitVec.toNat_eq] at hab hne ⊢
          omega
        · exact hb e he

/-- Maps an address to a value, whatever it was mapped to before. -/
def insert (m : AddressMap α) (a : Word) (x : α) : AddressMap α :=
  ⟨place a x m.entries, increasing_place m.increasing⟩

/-- The map of a list of entries; of two for one address the later one counts. -/
def ofList (es : List (Word × α)) : AddressMap α :=
  es.foldl (fun m e => m.insert e.1 e.2) empty

/-- The value at an address. -/
def get? (m : AddressMap α) (a : Word) : Option α :=
  (m.entries.find? (·.1 = a)).map (·.2)

/-- The value at the greatest mapped address that is not above `a`. -/
def floor? (m : AddressMap α) (a : Word) : Option α :=
  (m.entries.filter (·.1 ≤ a)).getLast?.map (·.2)

/-- The least address whose value satisfies `p`. -/
def firstAddress? (m : AddressMap α) (p : α → Bool) : Option Word :=
  (m.entries.find? fun e => p e.2).map (·.1)

/-- Moves every entry up by a distance, around the end of the address space if need be, and its value
by `f`. -/
def shift (m : AddressMap α) (distance : Word) (f : α → α) : AddressMap α :=
  ofList (m.entries.map fun e => (e.1 + distance, f e.2))

end AddressMap
end WordMachine
