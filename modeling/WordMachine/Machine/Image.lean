import WordMachine.Machine.Memory
import WordMachine.Program.Placement
import WordMachine.Instruction.Codec

/-!
# WordMachine.Machine.Image

The memory that a placed program starts from: its code, its data, and above them room for a stack
that grows downwards. The image ends at or below the sentinel, the address that a program returns
to when it is done.
-/

namespace WordMachine

/-- The address that ends a run when control goes there. -/
def sentinel : Word := 0xFFFFFFFC

/-- Why a program cannot be loaded or entered. -/
inductive LoadError where
  | notLinked (file : String)
  | unresolved (index : Nat)
  | coding (index : Nat) (e : CodingError)
  | imageTooLarge (base : Word) (size : Nat)
  | outOfImage (address : Word) (size : Nat)
  | stride (size : Word)
  | unknownFunction (name : String)
deriving DecidableEq, Repr

namespace LoadError

def message : LoadError → String
  | notLinked file => s!"program `{file}` is not linked"
  | unresolved i => s!"instruction {i} is not resolved"
  | coding i e => s!"instruction {i}: {e.message}"
  | imageTooLarge base size =>
    s!"image of {size} bytes at {Hex.full base.toNat} does not fit the address space"
  | outOfImage a size => s!"{size} bytes at {Hex.full a.toNat} fall outside the image"
  | stride size => s!"instruction stride of {size.toNat} bytes is not one word"
  | unknownFunction name => s!"unknown function `{name}`"

end LoadError

namespace Image

/-- The size of an image: code and data rounded up to whole words, and a stack rounded down. -/
def sizeOf (map : MemoryMap) (stackSize : Word) : Nat :=
  alignUp map.totalSize.toNat Word.size + stackSize.toNat / Word.size * Word.size

/-- Writes the words of code entries from number `index` on. -/
def writeCode (s : InstructionSet) (index : Nat) (m : Memory) :
    List CodeEntry → Except LoadError Memory
  | [] => .ok m
  | e :: rest =>
    match e.address, e.fields with
    | some a, some fields =>
      match s.pack fields with
      | .error err => .error (.coding index err)
      | .ok w =>
        match m.writeWord a w with
        | .error _ => .error (.outOfImage a Word.size)
        | .ok m => writeCode s (index + 1) m rest
    | _, _ => .error (.unresolved index)

/-- Writes the bytes that globals come with. -/
def writeGlobals (m : Memory) : List Global → Except LoadError Memory
  | [] => .ok m
  | g :: rest =>
    match g.address, g.initial with
    | some a, some bytes =>
      match m.write a bytes with
      | .error _ => .error (.outOfImage a bytes.length)
      | .ok m => writeGlobals m rest
    | _, _ => writeGlobals m rest

/-- The memory map of a program that can be loaded. -/
def mapOf (p : Program) : Except LoadError MemoryMap :=
  match p.memoryMap with
  | none => .error (.notLinked p.fileName)
  | some map =>
    if map.stride.toNat = Word.size then .ok map else .error (.stride map.stride)

/-- The memory that a program starts from. -/
def ofProgram (s : InstructionSet) (stackSize : Word) (p : Program) :
    Except LoadError Memory := do
  let map ← mapOf p
  let size := sizeOf map stackSize
  if sentinel.toNat < map.base.toNat + size then throw (.imageTooLarge map.base size)
  let m ← writeCode s 0 (.zeros map.base size) p.code
  writeGlobals m p.globals

end Image
end WordMachine
