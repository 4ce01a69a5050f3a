import WordMachine.Machine.Effect

/-!
# WordMachine.Debug.Watch

What a watchpoint is set on: a range of addresses and the directions of access that count.
-/

namespace WordMachine

inductive WatchKind where
  | read
  | write
  | readWrite
deriving DecidableEq, Repr

namespace WatchKind

/-- Whether accesses in a direction count. -/
def Covers (k : WatchKind) (d : Direction) : Prop :=
  match k with
  | read => d = .read
  | write => d = .write
  | readWrite => True

instance (k : WatchKind) (d : Direction) : Decidable (k.Covers d) := by
  unfold Covers; cases k <;> infer_instance

end WatchKind

structure Watch where
  address : Word
  size : Word
  kind : WatchKind
deriving DecidableEq, Repr

namespace Watch

/-- Whether an access is of a kind and in a place that is watched. -/
def Applies (w : Watch) (x : Access) : Prop :=
  w.kind.Covers x.direction ∧ x.Overlaps w.address w.size.toNat

instance (w : Watch) (x : Access) : Decidable (w.Applies x) :=
  inferInstanceAs (Decidable (_ ∧ _))

end Watch
end WordMachine
