import WordMachine.Machine.Memory

/-!
# WordMachine.Proofs.MemoryBytes

Memory as a list of bytes. A window that is filled from its base up is described by the bytes that
it holds so far and the number of zeros after them (`Memory.Holds`): writing at the end of the bytes
appends (`Memory.Holds.write`), leaving out an address appends zeros (`Memory.Holds.skip`), and what
was appended can be read back (`Memory.read_of_toList`).
-/

namespace WordMachine

namespace Word

theorem length_toBytes (w : Word) : w.toBytes.length = size := rfl

/-- Putting the lowest byte of what is left back below the rest. -/
theorem shift_or_lowest (w : Word) (k : Nat) :
    (w >>> (k + 8)) <<< 8 ||| ((w >>> k).setWidth 8).setWidth 32 = w >>> k := by
  apply BitVec.eq_of_getLsbD_eq
  intro i hi
  simp only [BitVec.getLsbD_or, BitVec.getLsbD_shiftLeft, BitVec.getLsbD_setWidth,
    BitVec.getLsbD_ushiftRight]
  by_cases hlow : i < 8
  · simp [hlow, hi]
  · have hat : k + 8 + (i - 8) = k + i := by omega
    simp [hlow, hi, hat]

theorem ofBytes_toBytes (w : Word) : ofBytes w.toBytes = w := by
  have htop : (0 : Word) = w >>> (24 + 8) := (BitVec.ushiftRight_eq_zero (by decide)).symm
  have hlowest := shift_or_lowest w 0
  simp only [BitVec.ushiftRight_zero, Nat.zero_add] at hlowest
  simp only [ofBytes, toBytes, List.foldr_cons, List.foldr_nil]
  rw [htop, shift_or_lowest w 24, shift_or_lowest w 16, shift_or_lowest w 8, hlowest]

end Word

namespace Memory

variable {m m' : Memory} {a : Word} {bs data pre post : List Byte} {n k : Nat}

/-- The window holds these bytes from its base up, and `room` zeros after them. -/
def Holds (m : Memory) (bs : List Byte) (room : Nat) : Prop :=
  m.bytes.toList = bs ++ List.replicate room 0

theorem holds_zeros (base : Word) (n : Nat) : (zeros base n).Holds [] n := by
  simp [Holds, zeros]

theorem Holds.size_eq (h : m.Holds bs n) : m.size = bs.length + n := by
  have hlen := congrArg List.length h
  simpa [size] using hlen

theorem Holds.skip (h : m.Holds bs (k + n)) : m.Holds (bs ++ List.replicate k 0) n := by
  rw [Holds, List.append_assoc, List.replicate_append_replicate]
  exact h

theorem toList_store :
    ∀ {data bs : List Byte} {bytes : Array Byte},
      bytes.toList = bs ++ List.replicate (data.length + n) 0 →
        (store bytes bs.length data).toList = bs ++ data ++ List.replicate n 0 := by
  intro data
  induction data with
  | nil =>
    intro bs bytes h
    simpa [store] using h
  | cons b data ih =>
    intro bs bytes h
    have hset : (bytes.setIfInBounds bs.length b).toList =
        (bs ++ [b]) ++ List.replicate (data.length + n) 0 := by
      rw [Array.toList_setIfInBounds, h, List.length_cons, Nat.add_right_comm,
        List.replicate_succ]
      simp
    have hstore := ih hset
    simpa [store] using hstore

theorem Holds.write (h : m.Holds bs (data.length + n))
    (ha : a.toNat = m.base.toNat + bs.length) :
    ∃ m', m.write a data = .ok m' ∧ m'.base = m.base ∧ m'.Holds (bs ++ data) n := by
  have hoff : m.offset a = bs.length := by rw [offset, ha, Nat.add_sub_cancel_left]
  have hin : m.Contains a data.length := by
    have hsize := h.size_eq
    constructor
    · omega
    · rw [hoff, hsize]
      omega
  refine ⟨m.put a data, by rw [Memory.write, if_pos hin], rfl, ?_⟩
  rw [Holds, put, hoff]
  exact toList_store h

/-- Bytes that stand in the window are read at their place. -/
theorem read_of_toList (h : m.bytes.toList = pre ++ data ++ post)
    (ha : a.toNat = m.base.toNat + pre.length) : m.read a data.length = .ok data := by
  have hoff : m.offset a = pre.length := by rw [offset, ha, Nat.add_sub_cancel_left]
  have hin : m.Contains a data.length := by
    have hlen := congrArg List.length h
    simp only [Array.length_toList, List.length_append] at hlen
    constructor
    · omega
    · rw [hoff, size]
      omega
  rw [Memory.read, if_pos hin, hoff, Array.toList_extract, h]
  simp [List.extract_eq_take_drop]

end Memory
end WordMachine
