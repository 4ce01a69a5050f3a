import WordMachine.Program.Basic

/-!
# WordMachine.Program.Lookup

Questions to a program: what a name stands for, what address an entity has, and what lies at an
address. Code entries are found by halving, which relies on their addresses increasing
(`Program.indexAt?`).
-/

namespace WordMachine

/-- Halves the range of `size` indices from `base` until one is left, keeping the upper half as
long as `p` holds where it begins. The answer is the first index at which `p` fails, provided that
it holds exactly at the indices before some point. -/
def halve (p : Nat → Bool) : (fuel base size : Nat) → Nat
  | 0, base, _ => base
  | fuel + 1, base, size =>
    if size > 1 then
      let half := size / 2
      let middle := base + half
      halve p fuel (if p middle then middle else base) (size - half)
    else if size = 1 ∧ p base then base + 1
    else base

/-- The number of leading indices below `size` at which `p` holds. -/
def countLeading (p : Nat → Bool) (size : Nat) : Nat := halve p (size + 1) 0 size

namespace Program

/-- The address of the code entry at an index. -/
def entryAddress? (p : Program) (i : Nat) : Option Word := p.code[i]?.bind CodeEntry.address

/-- The address of the function with this name. -/
def functionAddress? (p : Program) (name : String) : Option Word := do
  p.entryAddress? (← (← p.functions.get? name).entryIndex?)

/-- The address of the first label with this name. -/
def labelAddress? (p : Program) (name : String) : Option Word := do
  p.entryAddress? (← (← p.labels.find? (·.name = name)).index)

/-- The first global with this name. -/
def global? (p : Program) (name : String) : Option Global :=
  p.globals.find? (·.name = name)

/-- What a name stands for: a function, else the first global, else the first label. -/
def lookup? (p : Program) (name : String) : Option Target :=
  ((p.functions.indexOf? name).map Target.function)
    |>.or ((p.globals.findIdx? (·.name = name)).map Target.global)
    |>.or ((p.labels.findIdx? (·.name = name)).map Target.label)

/-- The address of an entity. -/
def targetAddress? (p : Program) : Target → Option Word
  | .function i => do p.entryAddress? (← (← p.functions.at? i).2.entryIndex?)
  | .global i => do (← p.globals[i]?).address
  | .label i => do p.entryAddress? (← (← p.labels[i]?).index)

/-- The part of an address that a reference stands for. -/
def referenceValue? (p : Program) (r : Reference) : Option Word := do
  pure (r.part.take (← p.targetAddress? (← r.target)))

/-- The index of the code entry at an address. -/
def indexAt? (p : Program) (a : Word) : Option Nat :=
  let i := countLeading (fun i => (p.entryAddress? i).any (· < a)) p.code.length
  if p.entryAddress? i = some a then some i else none

/-- The code entry at an address. -/
def entryAt? (p : Program) (a : Word) : Option CodeEntry := do
  p.code[← p.indexAt? a]?

/-- The first function that the code entry at an address belongs to, with its name. -/
def functionAt? (p : Program) (a : Word) : Option (String × Function) := do
  let i ← p.indexAt? a
  p.functions.entries.find? fun f => decide (f.2.Contains i)

end Program
end WordMachine
