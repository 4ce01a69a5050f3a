import WordMachine.Machine.Trap

/-!
# WordMachine.Machine.Memory

A window of bytes in the address space. An access succeeds exactly when all of it lies in the
window (`Memory.Contains`); one that does not changes nothing. Addresses are compared as natural
numbers, so nothing wraps at the top.
-/

namespace WordMachine

structure Memory where
  base : Word
  bytes : Array Byte
deriving DecidableEq

namespace Memory

/-- A window of zeros. -/
def zeros (base : Word) (size : Nat) : Memory := ⟨base, Array.replicate size 0⟩

/-- The number of bytes in the window. -/
def size (m : Memory) : Nat := m.bytes.size

/-- The end of the window; it may be the end of the address space itself. -/
def finish (m : Memory) : Nat := m.base.toNat + m.size

/-- The place in the window that an address has, if it is not below the window. -/
def offset (m : Memory) (a : Word) : Nat := a.toNat - m.base.toNat

/-- Whether `n` bytes at an address lie in the window. -/
def Contains (m : Memory) (a : Word) (n : Nat) : Prop :=
  m.base.toNat ≤ a.toNat ∧ m.offset a + n ≤ m.size

instance (m : Memory) (a : Word) (n : Nat) : Decidable (m.Contains a n) :=
  inferInstanceAs (Decidable (_ ∧ _))

/-- The `n` bytes at an address. -/
def read (m : Memory) (a : Word) (n : Nat) : Except Trap (List Byte) :=
  if m.Contains a n then .ok (m.bytes.extract (m.offset a) (m.offset a + n)).toList
  else .error (.invalidAccess a n)

/-- Puts bytes into an array from index `i` on. -/
def store (bytes : Array Byte) (i : Nat) : List Byte → Array Byte
  | [] => bytes
  | b :: rest => store (bytes.setIfInBounds i b) (i + 1) rest

/-- The window with bytes put at an address in it. -/
def put (m : Memory) (a : Word) (data : List Byte) : Memory :=
  ⟨m.base, store m.bytes (m.offset a) data⟩

/-- Writes bytes to an address. They are taken to be fewer than 2 ^ 32: how longer blocks are refused
is not modelled. -/
def write (m : Memory) (a : Word) (data : List Byte) : Except Trap Memory :=
  if m.Contains a data.length then .ok (m.put a data) else .error (.invalidAccess a data.length)

/-- The byte at an address. -/
def readByte (m : Memory) (a : Word) : Except Trap Byte :=
  if m.Contains a 1 then .ok (m.bytes[m.offset a]?.getD 0) else .error (.invalidAccess a 1)

/-- The word at an address. -/
def readWord (m : Memory) (a : Word) : Except Trap Word := (m.read a Word.size).map Word.ofBytes

/-- Writes one byte. -/
def writeByte (m : Memory) (a : Word) (b : Byte) : Except Trap Memory := m.write a [b]

/-- Writes one word. -/
def writeWord (m : Memory) (a : Word) (w : Word) : Except Trap Memory := m.write a w.toBytes

/-- The bytes other than zero, each with its address, in order. -/
def nonzero (m : Memory) : List (Nat × Byte) :=
  (m.bytes.toList.zipIdx m.base.toNat).filterMap fun (b, a) =>
    if b = 0 then none else some (a, b)

end Memory
end WordMachine
