import WordMachine.Machine.Effect

/-!
# WordMachine.Proofs.MemoryFrame

What putting bytes into a window leaves alone: the window itself, and every byte at another address
(`Memory.getElem?_put`). So reading elsewhere gives what it gave before (`Memory.read_put`), and
asking whether an access succeeds gives the same everywhere (`Memory.contains_put`).
-/

namespace WordMachine
namespace Memory

variable {m : Memory} {a c : Word} {data : List Byte} {n : Nat}

theorem size_store :
    ∀ {data : List Byte} {bytes : Array Byte} {i : Nat},
      (store bytes i data).size = bytes.size := by
  intro data
  induction data with
  | nil => intro bytes i; rfl
  | cons b data ih =>
    intro bytes i
    rw [store, ih, Array.size_setIfInBounds]

theorem getElem?_store :
    ∀ {data : List Byte} {bytes : Array Byte} {i j : Nat}, j < i ∨ i + data.length ≤ j →
      (store bytes i data)[j]? = bytes[j]? := by
  intro data
  induction data with
  | nil => intro bytes i j _; rfl
  | cons b data ih =>
    intro bytes i j h
    rw [List.length_cons] at h
    rw [store, ih (by omega), Array.getElem?_setIfInBounds_ne (by omega)]

theorem size_put : (m.put a data).size = m.size := size_store

theorem contains_put : (m.put a data).Contains c n ↔ m.Contains c n := by
  rw [Contains, Contains, size_put]
  rfl

/-- Bytes are put at their own addresses and at no other. -/
theorem getElem?_put (ha : m.base.toNat ≤ a.toNat) {j : Nat}
    (hj : m.base.toNat + j < a.toNat ∨ a.toNat + data.length ≤ m.base.toNat + j) :
    (m.put a data).bytes[j]? = m.bytes[j]? := by
  refine getElem?_store ?_
  rw [offset]
  omega

/-- Reading where no byte was put. -/
theorem read_put (ha : m.base.toNat ≤ a.toNat)
    (hout : ∀ j, c.toNat ≤ j → j < c.toNat + n → j < a.toNat ∨ a.toNat + data.length ≤ j) :
    (m.put a data).read c n = m.read c n := by
  by_cases hin : m.Contains c n
  · rw [read, read, if_pos hin, if_pos (contains_put.2 hin)]
    congr 1
    apply List.ext_getElem?
    intro k
    have hoffset : (m.put a data).offset c = m.offset c := rfl
    have hsize : (m.put a data).bytes.size = m.bytes.size := size_put
    rw [hoffset, Array.getElem?_toList, Array.getElem?_toList, Array.getElem?_extract,
      Array.getElem?_extract, hsize]
    split
    · rename_i hk
      refine getElem?_put ha ?_
      have hat : m.base.toNat + (m.offset c + k) = c.toNat + k := by
        rw [offset, ← Nat.add_assoc, Nat.add_sub_cancel' hin.1]
      rw [hat]
      exact hout _ (by omega) (by omega)
    · rfl
  · rw [read, read, if_neg hin, if_neg (mt contains_put.1 hin)]

end Memory
end WordMachine
