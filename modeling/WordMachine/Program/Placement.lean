import WordMachine.Text.Hex
import WordMachine.Program.Binding

/-!
# WordMachine.Program.Placement

Placing a program: the code from the base up, the data from the next aligned address on, each
global right after the one before it. Sizes and addresses are added up as natural numbers
(`planMemory`), so that a plan is refused rather than wrapped when it leaves the 32-bit address
space. `Program.place` carries a plan out and moves the debugging information along.
-/

namespace WordMachine

/-- The rules that a placement follows. -/
structure PlacementRules where
  base : Word := 0x1000
  /-- The greatest total size, or 0 for no limit. -/
  maxSize : Word := 0
  /-- Data begins at a multiple of this, or right after the code if it is 0. -/
  dataAlignment : Word := 4
  stride : Word := 4
deriving DecidableEq, Repr

/-- Why a program cannot be placed. -/
inductive PlacementError where
  | programTooLarge (size : Nat) (maxSize : Word)
  | addressOverflow (finish : Nat)
  | initializerTooLarge (name : String) (size : Word) (initializer : Nat)
  | zeroStride
  | unresolved (names : List String)
deriving DecidableEq, Repr

namespace PlacementError

def message : PlacementError → String
  | programTooLarge size maxSize =>
    s!"program needs {size} bytes but the maximum is {maxSize.toNat}"
  | addressOverflow finish =>
    s!"layout ends at {Hex.short finish}, past the 32-bit address space"
  | initializerTooLarge name size initializer =>
    s!"global {name}: {initializer} initializer bytes exceed size {size.toNat}"
  | zeroStride => "instruction size must be non-zero"
  | unresolved names => "unresolved symbols after layout: " ++ ", ".intercalate names

end PlacementError

/-- The least multiple of `alignment` that is not below `n`; `n` itself if the alignment is 0. -/
def alignUp (n alignment : Nat) : Nat :=
  if alignment = 0 then n else (n + alignment - 1) / alignment * alignment

/-- The number of bytes of these sizes together. -/
def bytesOf (sizes : List Word) : Nat := sizes.foldr (fun size n => size.toNat + n) 0

/-- The memory map of a program with `count` code entries and globals of these sizes. Sums are
natural numbers: that those of more than 2 ^ 32 entries or globals may not fit in 64 bits is not
modelled. -/
def planMemory (rules : PlacementRules) (count : Nat) (sizes : List Word) :
    Except PlacementError MemoryMap := do
  if rules.stride = 0 then throw .zeroStride
  let base := rules.base.toNat
  let codeSize := count * rules.stride.toNat
  let dataStart := alignUp (base + codeSize) rules.dataAlignment.toNat
  let dataSize := bytesOf sizes
  let totalSize := dataStart - base + dataSize
  let finish := dataStart + dataSize
  if 0 < rules.maxSize.toNat ∧ rules.maxSize.toNat < totalSize then
    throw (.programTooLarge totalSize rules.maxSize)
  if 0x100000000 < finish then throw (.addressOverflow finish)
  if [codeSize, dataStart, dataSize, totalSize].any (0x100000000 ≤ ·) then
    throw (.addressOverflow finish)
  pure {
    base := rules.base
    codeStart := rules.base
    codeSize := BitVec.ofNat 32 codeSize
    dataStart := BitVec.ofNat 32 dataStart
    dataSize := BitVec.ofNat 32 dataSize
    totalSize := BitVec.ofNat 32 totalSize
    stride := rules.stride }

namespace Global

/-- The number of bytes that the global comes with. -/
def initialSize (g : Global) : Nat := (g.initial.map List.length).getD 0

end Global

namespace Program

/-- Gives code entries addresses from `a` up, `stride` apart. -/
def addressCode (stride : Word) : Word → List CodeEntry → List CodeEntry
  | _, [] => []
  | a, e :: rest => { e with address := some a } :: addressCode stride (a + stride) rest

/-- Gives globals addresses from `a` up, one after the other. -/
def addressGlobals : Word → List Global → List Global
  | _, [] => []
  | a, g :: rest => { g with address := some a } :: addressGlobals (a + g.size) rest

/-- The program with its code, data and debugging information at the places of a memory map. -/
def placeAt (p : Program) (map : MemoryMap) : Program :=
  { p with
    code := addressCode map.stride map.codeStart p.code
    globals := addressGlobals map.dataStart p.globals
    memoryMap := some map
    debugInfo := p.debugInfo.map (·.relocatedTo map.codeStart) }

/-- The program with every reference bound and every entry and global at an address. -/
def place (rules : PlacementRules) (p : Program) : Except PlacementError Program := do
  match p.globals.find? fun g => g.size.toNat < g.initialSize with
  | some g => throw (.initializerTooLarge g.name g.size g.initialSize)
  | none => pure ()
  let map ← planMemory rules p.code.length (p.globals.map Global.size)
  if p.unknownNames ≠ [] then throw (.unresolved p.unknownNames)
  pure (p.bindReferences.placeAt map)

end Program
end WordMachine
