/-!
# WordMachine.Word

The two widths the machine knows: a word of 32 bits and a byte of 8. A word lies in memory as
four bytes, least significant first (`Word.toBytes`, `Word.ofBytes`).
-/

namespace WordMachine

/-- A machine word: an address, a register's contents or an instruction. -/
abbrev Word := BitVec 32

/-- One cell of memory. -/
abbrev Byte := BitVec 8

namespace Word

/-- The number of bytes of a word, and the stride from one instruction to the next. -/
def size : Nat := 4

/-- The word with ones in the lowest `n` bits, at most in all of them. -/
def ones (n : Nat) : Word := BitVec.ofNat 32 (1 <<< n - 1)

/-- The four bytes of a word, least significant first. -/
def toBytes (w : Word) : List Byte :=
  [w.setWidth 8, (w >>> 8).setWidth 8, (w >>> 16).setWidth 8, (w >>> 24).setWidth 8]

/-- The word whose least significant bytes are `bs`, the first one lowest. -/
def ofBytes (bs : List Byte) : Word :=
  bs.foldr (fun b w => w <<< 8 ||| b.setWidth 32) 0

end Word
end WordMachine
