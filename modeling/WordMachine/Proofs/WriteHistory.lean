import WordMachine.Proofs.DataAccess
import WordMachine.Proofs.MemoryBytes
import Mathlib.Data.Nat.Digits.Lemmas

/-!
# WordMachine.Proofs.WriteHistory

Memory as a map from addresses to bytes, told by what has been written to it. Whether an access
succeeds depends on the window alone (`Memory.contains_iff_fits`). One request puts its bytes at the
addresses that it covers, if they all lie in the window, and changes nothing otherwise
(`Memory.byteAt?_after`). So, by induction on the requests, the byte at an address is the one that
the latest successful request for it has put there, or zero (`Memory.latest_of_byteAt?`), and
reading gives these bytes (`Memory.isByteMap_afterAll`).
-/

namespace WordMachine

open Outcome

/-- A word is what its bytes are worth, each 256 times the one before it. -/
theorem Word.toNat_ofBytes : ∀ {bs : List Byte}, bs.length ≤ size →
    (ofBytes bs).toNat = Nat.ofDigits 256 (bs.map BitVec.toNat) := by
  intro bs
  induction bs with
  | nil => intro _; rfl
  | cons b bs ih =>
    intro hlen
    rw [List.length_cons, size] at hlen
    have hvalue := ih (by rw [size]; omega)
    -- Three bytes at most lie above the lowest one, so nothing is shifted out.
    have hrest : (ofBytes bs).toNat < 256 ^ 3 := by
      have hdigits : ∀ d ∈ bs.map BitVec.toNat, d < 256 := by
        rw [List.forall_mem_map]
        exact fun b _ => b.isLt
      have hbound := Nat.ofDigits_lt_base_pow_length (by decide) hdigits
      rw [List.length_map] at hbound
      rw [hvalue]
      exact hbound.trans_le (Nat.pow_le_pow_right (by decide) (by omega))
    have hshift : (ofBytes bs <<< 8).toNat = (ofBytes bs).toNat <<< 8 := by
      rw [BitVec.toNat_shiftLeft, Nat.shiftLeft_eq, Nat.mod_eq_of_lt (by omega)]
    have hbyte : (b.setWidth 32).toNat = b.toNat :=
      BitVec.toNat_setWidth_of_le (by decide)
    have hcons : ofBytes (b :: bs) = ofBytes bs <<< 8 ||| b.setWidth 32 := rfl
    rw [hcons, BitVec.toNat_or, hshift, hbyte, ← Nat.shiftLeft_add_eq_or_of_lt b.isLt,
      Nat.shiftLeft_eq, hvalue, List.map_cons, Nat.ofDigits_cons]
    omega

/-- Something that is to be written to memory. -/
inductive WriteRequest where
  | byte (a : Word) (b : Byte)
  | word (a : Word) (w : Word)
  | block (a : Word) (bs : List Byte)
deriving DecidableEq, Repr

namespace WriteRequest

def address : WriteRequest → Word
  | byte a _ | word a _ | block a _ => a

def length : WriteRequest → Nat
  | byte _ _ => 1
  | word _ _ => 4
  | block _ bs => bs.length

/-- Whether these are the bytes to be written, that for the lowest address first. A word is written
with its least significant byte first. -/
def Carries : WriteRequest → List Byte → Prop
  | byte _ b, bs => bs = [b]
  | word _ w, bs => bs.length = 4 ∧ w.toNat = Nat.ofDigits 256 (bs.map BitVec.toNat)
  | block _ data, bs => bs = data

/-- Whether there is a byte to be written at an address. -/
def Covers (q : WriteRequest) (c : Nat) : Prop :=
  q.address.toNat ≤ c ∧ c < q.address.toNat + q.length

instance (q : WriteRequest) (c : Nat) : Decidable (q.Covers c) :=
  inferInstanceAs (Decidable (_ ∧ _))

/-- Whether this byte is to be written at an address. -/
def Puts (q : WriteRequest) (c : Nat) (b : Byte) : Prop :=
  ∃ bs, q.Carries bs ∧ q.address.toNat ≤ c ∧ bs[c - q.address.toNat]? = some b

/-- The bytes of a request. -/
def data : WriteRequest → List Byte
  | byte _ b => [b]
  | word _ w => w.toBytes
  | block _ bs => bs

variable {q : WriteRequest}

theorem length_data : q.data.length = q.length := by cases q <;> rfl

theorem carries_data : q.Carries q.data := by
  cases q with
  | byte a b => rfl
  | word a w =>
    have hvalue := Word.toNat_ofBytes (Word.length_toBytes w).le
    rw [Word.ofBytes_toBytes] at hvalue
    exact ⟨rfl, hvalue⟩
  | block a bs => rfl

end WriteRequest

namespace Memory

variable {m : Memory} {base : Word} {len : Nat} {q : WriteRequest} {qs : List WriteRequest}
  {a : Word} {n c : Nat} {b : Byte} {bs : List Byte}

/-- Whether `n` bytes at an address lie in a window, in integers. -/
def Fits (base : Word) (len : Nat) (a : Word) (n : Nat) : Prop :=
  (base.toNat : Int) ≤ a.toNat ∧ ((a.toNat : Int) - base.toNat) + n ≤ len

instance (base : Word) (len : Nat) (a : Word) (n : Nat) : Decidable (Fits base len a n) :=
  inferInstanceAs (Decidable (_ ∧ _))

theorem contains_iff_fits : m.Contains a n ↔ Fits m.base m.size a n := by
  rw [Contains, Fits, offset]
  omega

/-- Answers a request. -/
def perform (m : Memory) : WriteRequest → Except Trap Memory
  | .byte a b => m.writeByte a b
  | .word a w => m.writeWord a w
  | .block a bs => m.write a bs

theorem perform_eq_write : m.perform q = m.write q.address q.data := by cases q <;> rfl

/-- Memory after a request, which stays as it is if the request is refused. -/
def after (m : Memory) (q : WriteRequest) : Memory :=
  match m.perform q with
  | .ok m' => m'
  | .error _ => m

/-- Memory after several requests, the first one first. -/
def afterAll (m : Memory) (qs : List WriteRequest) : Memory := qs.foldl after m

/-! ## One request -/

theorem perform_of_fits (h : Fits m.base m.size q.address q.length) :
    m.perform q = .ok (m.put q.address q.data) := by
  rw [perform_eq_write, write, WriteRequest.length_data, if_pos (contains_iff_fits.2 h)]

theorem exists_perform_iff : (∃ m', m.perform q = .ok m') ↔ m.Contains q.address q.length := by
  rw [perform_eq_write, write, WriteRequest.length_data]
  by_cases hin : m.Contains q.address q.length <;> simp [hin]

theorem perform_of_not_fits (h : ¬ Fits m.base m.size q.address q.length) :
    m.perform q = .error (.invalidAccess q.address q.length) := by
  rw [perform_eq_write, write, WriteRequest.length_data, if_neg (mt contains_iff_fits.1 h)]

theorem after_of_fits (h : Fits m.base m.size q.address q.length) :
    m.after q = m.put q.address q.data := by
  rw [after, perform_of_fits h]

theorem after_of_not_fits (h : ¬ Fits m.base m.size q.address q.length) : m.after q = m := by
  rw [after, perform_of_not_fits h]

theorem window_after : (m.after q).base = m.base ∧ (m.after q).size = m.size := by
  by_cases h : Fits m.base m.size q.address q.length
  · rw [after_of_fits h]
    exact ⟨rfl, size_put⟩
  · rw [after_of_not_fits h]
    exact ⟨rfl, rfl⟩

theorem byteAt?_after : (m.after q).byteAt? c =
    if Fits m.base m.size q.address q.length ∧ q.Covers c then q.data[c - q.address.toNat]?
    else m.byteAt? c := by
  by_cases h : Fits m.base m.size q.address q.length
  · have hin : m.Contains q.address q.data.length := by
      rw [WriteRequest.length_data]
      exact contains_iff_fits.2 h
    rw [after_of_fits h, byteAt?_put hin, WriteRequest.length_data]
    simp only [h, true_and, WriteRequest.Covers]
  · rw [after_of_not_fits h, if_neg fun hc => h hc.1]

/-! ## Requests in a row -/

/-- Whether no successful request among these is for an address. -/
def Untouched (base : Word) (len : Nat) (qs : List WriteRequest) (c : Nat) : Prop :=
  ∀ q ∈ qs, Fits base len q.address q.length → ¬ q.Covers c

/-- Whether this is the byte at an address by the latest successful request that is for it, or zero
if there is none. -/
def Latest (base : Word) (len : Nat) (qs : List WriteRequest) (c : Nat) (b : Byte) : Prop :=
  (∃ earlier q later, qs = earlier ++ q :: later ∧ Fits base len q.address q.length ∧ q.Puts c b ∧
    Untouched base len later c) ∨
  (Untouched base len qs c ∧ b = 0)

theorem Untouched.append (h : Untouched base len qs c)
    (hq : Fits base len q.address q.length → ¬ q.Covers c) :
    Untouched base len (qs ++ [q]) c := by
  intro q' hq'
  rcases List.mem_append.1 hq' with hq' | hq'
  · exact h q' hq'
  · rw [List.mem_singleton.1 hq']
    exact hq

theorem Latest.append (h : Latest base len qs c b)
    (hq : Fits base len q.address q.length → ¬ q.Covers c) :
    Latest base len (qs ++ [q]) c b := by
  rcases h with ⟨earlier, q', later, rfl, hfits, hputs, hlater⟩ | ⟨hnone, hzero⟩
  · refine .inl ⟨earlier, q', later ++ [q], ?_, hfits, hputs, hlater.append hq⟩
    rw [List.append_assoc, List.cons_append]
  · exact .inr ⟨hnone.append hq, hzero⟩

theorem latest_of_puts (hfits : Fits base len q.address q.length) (hputs : q.Puts c b) :
    Latest base len (qs ++ [q]) c b :=
  .inl ⟨qs, q, [], rfl, hfits, hputs, by simp [Untouched]⟩

theorem byteAt?_zeros (h : (zeros base len).byteAt? c = some b) : b = 0 := by
  rw [byteAt?, zeros] at h
  split at h
  · rw [Array.getElem?_replicate] at h
    split at h
    · exact (Option.some.inj h).symm
    · cases h
  · cases h

theorem window_afterAll (base : Word) (len : Nat) (qs : List WriteRequest) :
    ((zeros base len).afterAll qs).base = base ∧ ((zeros base len).afterAll qs).size = len := by
  induction qs using List.reverseRecOn with
  | nil => exact ⟨rfl, Array.size_replicate⟩
  | append_singleton qs q ih =>
    rw [afterAll, List.foldl_append]
    exact ⟨window_after.1.trans ih.1, window_after.2.trans ih.2⟩

theorem latest_of_byteAt? (h : ((zeros base len).afterAll qs).byteAt? c = some b) :
    Latest base len qs c b := by
  induction qs using List.reverseRecOn generalizing b with
  | nil => exact .inr ⟨by simp [Untouched], byteAt?_zeros h⟩
  | append_singleton qs q ih =>
    obtain ⟨hbase, hsize⟩ := window_afterAll base len qs
    rw [afterAll, List.foldl_append, List.foldl_cons, List.foldl_nil] at h
    rw [afterAll] at hbase hsize ih
    rw [byteAt?_after, hbase, hsize] at h
    split at h
    · rename_i hq
      exact latest_of_puts hq.1 ⟨q.data, WriteRequest.carries_data, hq.2.1, h⟩
    · rename_i hq
      exact (ih h).append fun hfits hcovers => hq ⟨hfits, hcovers⟩

/-! ## Reading -/

theorem exists_read_iff : (∃ bs, m.read a n = .ok bs) ↔ m.Contains a n := by
  by_cases hin : m.Contains a n <;> simp [read, hin]

theorem exists_readByte_iff : (∃ b, m.readByte a = .ok b) ↔ m.Contains a 1 := by
  by_cases hin : m.Contains a 1 <;> simp [readByte, hin]

theorem exists_readWord_iff : (∃ w, m.readWord a = .ok w) ↔ m.Contains a Word.size := by
  rw [← exists_read_iff]
  simp only [readWord, map_ok_iff]
  constructor
  · rintro ⟨_, bs, hbs, -⟩
    exact ⟨bs, hbs⟩
  · rintro ⟨bs, hbs⟩
    exact ⟨_, bs, hbs, rfl⟩

theorem length_of_read (h : m.read a n = .ok bs) : bs.length = n := by
  obtain ⟨⟨-, hroom⟩, -⟩ := read_ok_iff.1 h
  rw [read] at h
  split at h
  · cases h
    rw [Array.length_toList, Array.size_extract]
    rw [size] at hroom
    omega
  · cases h

theorem byteAt?_of_read (h : m.read a n = .ok bs) {k : Nat} (hk : bs[k]? = some b) :
    m.byteAt? (a.toNat + k) = some b := by
  have hlt : k < n := length_of_read h ▸ (List.getElem?_eq_some_iff.1 hk).1
  rw [(read_ok_iff.1 h).2 k, if_pos hlt] at hk
  exact hk

theorem byteAt?_of_readByte (h : m.readByte a = .ok b) : m.byteAt? a.toNat = some b := by
  obtain ⟨hlow, hroom⟩ := exists_readByte_iff.1 ⟨b, h⟩
  have hlt : m.offset a < m.bytes.size := hroom
  rw [readByte, if_pos ⟨hlow, hroom⟩, Array.getElem?_eq_getElem hlt] at h
  rw [byteAt?, if_pos hlow]
  cases h
  exact Array.getElem?_eq_getElem hlt

theorem bytes_of_readWord {w : Word} (h : m.readWord a = .ok w) : ∃ bs,
    m.read a Word.size = .ok bs ∧ w.toNat = Nat.ofDigits 256 (bs.map BitVec.toNat) := by
  obtain ⟨bs, hbs, rfl⟩ := map_ok_iff.1 h
  exact ⟨bs, hbs, Word.toNat_ofBytes (length_of_read hbs).le⟩

/-- Whether memory answers as a map from the addresses of a window to bytes does, after these
requests. -/
structure IsByteMap (base : Word) (len : Nat) (qs : List WriteRequest) (m : Memory) : Prop where
  contains : ∀ a n, m.Contains a n ↔ Fits base len a n
  reads : ∀ a n, (∃ bs, m.read a n = .ok bs) ↔ Fits base len a n
  readsByte : ∀ a, (∃ b, m.readByte a = .ok b) ↔ Fits base len a 1
  readsWord : ∀ a, (∃ w, m.readWord a = .ok w) ↔ Fits base len a 4
  performs : ∀ q, (∃ m', m.perform q = .ok m') ↔ Fits base len q.address q.length
  /-- What is refused changes nothing. -/
  refuses : ∀ q, (∃ t, m.perform q = .error t) → m.after q = m
  bytes : ∀ a n bs, m.read a n = .ok bs →
    bs.length = n ∧ ∀ k b, bs[k]? = some b → Latest base len qs (a.toNat + k) b
  byte : ∀ a b, m.readByte a = .ok b → Latest base len qs a.toNat b
  /-- A word is read as its bytes, the least significant one first. -/
  word : ∀ a w, m.readWord a = .ok w → ∃ bs, m.read a 4 = .ok bs ∧
    w.toNat = Nat.ofDigits 256 (bs.map BitVec.toNat)

/-- **Memory is a map from addresses to bytes.** In a window of zeros, whatever requests came first,
an access succeeds exactly when all of it lies in the window, and what is read at an address is the
byte that the latest successful request for it has put there, or zero. -/
theorem isByteMap_afterAll (base : Word) (len : Nat) (qs : List WriteRequest) :
    IsByteMap base len qs ((zeros base len).afterAll qs) := by
  obtain ⟨hbase, hsize⟩ := window_afterAll base len qs
  have hfits (a : Word) (n : Nat) :
      ((zeros base len).afterAll qs).Contains a n ↔ Fits base len a n := by
    rw [contains_iff_fits, hbase, hsize]
  refine
    { contains := hfits
      reads := fun a n => exists_read_iff.trans (hfits a n)
      readsByte := fun a => exists_readByte_iff.trans (hfits a 1)
      readsWord := fun a => exists_readWord_iff.trans (hfits a 4)
      performs := fun q => exists_perform_iff.trans (hfits q.address q.length)
      refuses := fun q => ?_
      bytes := fun a n bs hbs => ⟨length_of_read hbs, fun k b hk =>
        latest_of_byteAt? (byteAt?_of_read hbs hk)⟩
      byte := fun a b hb => latest_of_byteAt? (byteAt?_of_readByte hb)
      word := fun a w hw => bytes_of_readWord hw }
  rintro ⟨t, ht⟩
  rw [after, ht]

/-- Three requests for some of the same bytes at the end of the address space, of which the last one
does not fit. -/
example : ((zeros 0xFFFFFFF8 8).afterAll [.word 0xFFFFFFFA 0x11223344,
    .block 0xFFFFFFF9 [0xAA, 0xBB], .word 0xFFFFFFFD 0]).read 0xFFFFFFF8 8 =
      .ok [0, 0xAA, 0xBB, 0x33, 0x22, 0x11, 0, 0] := by
  decide +kernel

end Memory
end WordMachine
