import Mathlib
import WordMachine.Debug.CallStack

/-!
# WordMachine.Proofs.OpenCalls

The shadow stack and the calls that are open. What code does about calls is a list of moves
(`Move`), which know whether a jump is meant as a return; the shadow stack sees no more of them than
transfers of control. `Move.openCalls` says which calls the moves have not returned from, by what
comes after each call and without a stack. As long as a return goes to where the innermost open
call comes back to, and no other jump to where any open call does (`Move.Orderly`), the shadow stack
is the list of the open calls.

Whatever the code does, a transfer puts a record on the shadow stack, or takes the records down to
and with one that returns to the target, or leaves it alone (`CallStack.afterJump_ends`).
`CallStack.tracks_calls` puts both together.
-/

namespace WordMachine

/-! ## One transfer -/

namespace CallStack

variable {calls outer : CallStack} {c : CallRecord} {target : Word}

/-- A jump closes the innermost call that returns to its target with all calls inside it, or there
is no such call and it changes nothing. -/
theorem afterJump_ends (calls : CallStack) (target : Word) :
    (∃ inner c, calls = inner ++ c :: calls.afterJump target ∧ c.returnAddress = target ∧
        ∀ x ∈ inner, x.returnAddress ≠ target) ∨
      calls.afterJump target = calls ∧ ∀ x ∈ calls, x.returnAddress ≠ target := by
  have hsplit := List.takeWhile_append_dropWhile (p := fun c => decide (c.returnAddress ≠ target))
    (l := calls)
  have hinner : ∀ x ∈ calls.takeWhile fun c => decide (c.returnAddress ≠ target),
      x.returnAddress ≠ target := fun x hx => by simpa using List.mem_takeWhile_imp hx
  rcases hrest : calls.dropWhile (fun c => decide (c.returnAddress ≠ target)) with _ | ⟨c, outer⟩
  · rw [hrest, List.append_nil] at hsplit
    rw [hsplit] at hinner
    exact .inr ⟨by simp only [afterJump, hrest], hinner⟩
  · have hc := List.head?_dropWhile_not (fun c : CallRecord => decide (c.returnAddress ≠ target))
      calls
    simp only [hrest, List.head?_cons, decide_eq_false_iff_not, not_not] at hc
    refine .inl ⟨_, c, ?_, hc, hinner⟩
    simp only [afterJump, hrest]
    rw [← hrest, hsplit]

theorem afterJump_of_ne (h : ∀ c ∈ calls, c.returnAddress ≠ target) :
    calls.afterJump target = calls := by
  rcases calls.afterJump_ends target with ⟨inner, c, hsplit, hc, -⟩ | ⟨hsame, -⟩
  · exact absurd hc (h c (by rw [hsplit]; simp))
  · exact hsame

theorem afterJump_cons (h : c.returnAddress = target) :
    CallStack.afterJump (c :: outer) target = outer := by
  simp [afterJump, h]

end CallStack

/-! ## Moves -/

/-- What code does about calls. A return comes back from the innermost call that has not been
returned from, and every other jump stays within the function. -/
inductive Move where
  | call (c : CallRecord)
  | back (site target : Word)
  | jump (site target : Word)
deriving DecidableEq, Repr

namespace Move

/-- The address of the instruction. -/
def site : Move → Word
  | call c => c.site
  | back site _ | jump site _ => site

/-- What a move is as a transfer of control. -/
def transfer : Move → Transfer
  | call c => .call c.target c.returnAddress
  | back _ target | jump _ target => .jump target

/-- The number of returns among the moves that come back from calls before them. -/
def outwardReturns : List Move → Nat
  | [] => 0
  | call _ :: ms => outwardReturns ms - 1
  | back _ _ :: ms => outwardReturns ms + 1
  | jump _ _ :: ms => outwardReturns ms

/-- The calls that the moves have not returned from, the outermost first. A call is open as long as
all returns after it come back from calls after it. -/
def openCalls : List Move → List CallRecord
  | [] => []
  | call c :: ms => if outwardReturns ms = 0 then c :: openCalls ms else openCalls ms
  | back _ _ :: ms | jump _ _ :: ms => openCalls ms

/-- Whether a move goes where it should while these calls are open: a return to where the innermost
of them comes back to, and any other jump to where none of them does. -/
def Permitted (opened : List CallRecord) : Move → Prop
  | call _ => True
  | back _ target => opened.getLast?.map CallRecord.returnAddress = some target
  | jump _ target => ∀ c ∈ opened, c.returnAddress ≠ target

instance (opened : List CallRecord) (m : Move) : Decidable (m.Permitted opened) := by
  cases m <;> unfold Permitted <;> infer_instance

/-- Whether every move goes where it should. -/
def Orderly (ms : List Move) : Prop :=
  ∀ k, (hk : k < ms.length) → ms[k].Permitted (openCalls (ms.take k))

instance (ms : List Move) : Decidable (Orderly ms) :=
  inferInstanceAs (Decidable (∀ k, (hk : k < ms.length) → _))

/-! ## The open calls after one more move -/

variable {ms : List Move} {c : CallRecord} {site target : Word}

theorem outwardReturns_append_call : outwardReturns (ms ++ [call c]) = outwardReturns ms := by
  induction ms with
  | nil => rfl
  | cons m ms ih => cases m <;> simp only [List.cons_append, outwardReturns, ih]

theorem outwardReturns_append_jump :
    outwardReturns (ms ++ [jump site target]) = outwardReturns ms := by
  induction ms with
  | nil => rfl
  | cons m ms ih => cases m <;> simp only [List.cons_append, outwardReturns, ih]

/-- A return comes back from one of the open calls, as long as there is one. -/
theorem outwardReturns_append_back : outwardReturns (ms ++ [back site target]) =
    if openCalls ms = [] then outwardReturns ms + 1 else outwardReturns ms := by
  induction ms with
  | nil => rfl
  | cons m ms ih =>
    cases m with
    | call c =>
      simp only [List.cons_append, outwardReturns, openCalls, ih]
      -- The call itself is open if nothing after it has come back from it.
      by_cases hout : outwardReturns ms = 0
      · by_cases hopen : openCalls ms = [] <;> simp [hout, hopen]
      · by_cases hopen : openCalls ms = []
        · simp [hout, hopen]
          omega
        · simp [hout, hopen]
    | back site target =>
      simp only [List.cons_append, outwardReturns, openCalls, ih]
      by_cases hopen : openCalls ms = [] <;> simp [hopen]
    | jump site target => exact ih

theorem openCalls_append_call : openCalls (ms ++ [call c]) = openCalls ms ++ [c] := by
  induction ms with
  | nil => rfl
  | cons m ms ih =>
    cases m with
    | call c' =>
      simp only [List.cons_append, openCalls, outwardReturns_append_call, ih]
      split <;> simp
    | back site target => exact ih
    | jump site target => exact ih

theorem openCalls_append_jump : openCalls (ms ++ [jump site target]) = openCalls ms := by
  induction ms with
  | nil => rfl
  | cons m ms ih =>
    cases m with
    | call c => simp only [List.cons_append, openCalls, outwardReturns_append_jump, ih]
    | back site target => exact ih
    | jump site target => exact ih

/-- A return closes the innermost open call and no other. -/
theorem openCalls_append_back :
    openCalls (ms ++ [back site target]) = (openCalls ms).dropLast := by
  induction ms with
  | nil => rfl
  | cons m ms ih =>
    cases m with
    | call c =>
      simp only [List.cons_append, openCalls, outwardReturns_append_back, ih]
      by_cases hopen : openCalls ms = []
      · by_cases hout : outwardReturns ms = 0 <;> simp [hopen, hout]
      · by_cases hout : outwardReturns ms = 0
        · simp [hopen, hout, List.dropLast_cons_of_ne_nil hopen]
        · simp [hopen, hout]
    | back site target => exact ih
    | jump site target => exact ih

end Move

/-! ## The shadow stack -/

namespace CallStack

open Move

variable {calls : CallStack} {m : Move} {ms : List Move}

/-- The shadow stack after a list of moves. -/
def afterMoves (ms : List Move) : CallStack :=
  ms.foldl (fun calls m => calls.observe m.site (some m.transfer)) []

theorem afterMoves_append : afterMoves (ms ++ [m]) =
    (afterMoves ms).observe m.site (some m.transfer) := by
  simp [afterMoves]

/-- A permitted move keeps the shadow stack in step with the open calls. -/
theorem observe_permitted (h : calls.reverse = openCalls ms) (hm : m.Permitted (openCalls ms)) :
    (calls.observe m.site (some m.transfer)).reverse = openCalls (ms ++ [m]) := by
  cases m with
  | call c => simp only [observe, site, transfer, List.reverse_cons, h, openCalls_append_call]
  | back site target =>
    rw [openCalls_append_back, ← h]
    rw [Permitted, ← h, List.getLast?_reverse] at hm
    cases calls with
    | nil => cases hm
    | cons c outer =>
      simp only [observe, transfer, afterJump_cons (Option.some.inj hm), List.reverse_cons,
        List.dropLast_concat]
  | jump site target =>
    rw [openCalls_append_jump, ← h]
    have hne : ∀ c ∈ calls, c.returnAddress ≠ target := fun c hc =>
      hm c (by rw [← h]; exact List.mem_reverse.2 hc)
    simp only [observe, transfer, afterJump_of_ne hne]

theorem afterMoves_take (h : Orderly ms) : ∀ k,
    (afterMoves (ms.take k)).reverse = openCalls (ms.take k) := by
  -- The shadow stack of the moves so far decides what the next one does to it.
  intro k
  induction k with
  | zero => rfl
  | succ k ih =>
    by_cases hk : k < ms.length
    · rw [List.take_succ_eq_append_getElem hk, afterMoves_append]
      exact observe_permitted ih (h k hk)
    · rw [List.take_of_length_le (by omega)] at ih ⊢
      exact ih

/-- **The shadow stack keeps track of the calls.** If every return goes to where the innermost open
call comes back to, and no other jump to where an open call does, then after each move the shadow
stack is the list of the calls that are open. And whatever a transfer is, and whatever the shadow
stack is before it, it appends one record, or cuts the stack back to what was there before a record
that returns to the target, where no later record does, or leaves it as it is. -/
theorem tracks_calls (ms : List Move) :
    (Orderly ms → ∀ k, (afterMoves (ms.take k)).reverse = openCalls (ms.take k)) ∧
    ∀ (calls : CallStack) (pc : Word) (t : Option Transfer),
      (∃ target back, t = some (.call target back) ∧
        (calls.observe pc t).reverse = calls.reverse ++ [⟨pc, target, back⟩]) ∨
      (∃ c later, t = some (.jump c.returnAddress) ∧
        calls.reverse = (calls.observe pc t).reverse ++ c :: later ∧
          ∀ x ∈ later, x.returnAddress ≠ c.returnAddress) ∨
      calls.observe pc t = calls ∧
        (t = none ∨ ∃ target, t = some (.jump target) ∧ ∀ c ∈ calls, c.returnAddress ≠ target) := by
  refine ⟨afterMoves_take, fun calls pc t => ?_⟩
  cases t with
  | none => exact .inr (.inr ⟨rfl, .inl rfl⟩)
  | some t =>
    cases t with
    | call target back => exact .inl ⟨target, back, rfl, List.reverse_cons⟩
    | jump target =>
      rcases calls.afterJump_ends target with ⟨inner, c, hsplit, rfl, hinner⟩ | ⟨hsame, hne⟩
      · refine .inr (.inl ⟨c, inner.reverse, rfl, ?_, fun x hx => hinner x (by simpa using hx)⟩)
        have hreverse := congrArg List.reverse hsplit
        simpa [observe] using hreverse
      · exact .inr (.inr ⟨hsame, .inr ⟨target, rfl, hne⟩⟩)

/-- A function that calls itself from one place, and comes back from the inner call only, after a
jump. -/
def recursing : List Move :=
  [.call ⟨0x1000, 0x1010, 0x1004⟩, .call ⟨0x1014, 0x1010, 0x1018⟩, .call ⟨0x1014, 0x1010, 0x1018⟩,
    .jump 0x1010 0x1020, .back 0x1020 0x1018]

theorem tracks_calls_recursing : Orderly recursing ∧
    (afterMoves (recursing.take 5)).reverse = openCalls (recursing.take 5) ∧
    openCalls (recursing.take 5) = [⟨0x1000, 0x1010, 0x1004⟩, ⟨0x1014, 0x1010, 0x1018⟩] :=
  ⟨by decide, (tracks_calls recursing).1 (by decide) 5, by decide⟩

end CallStack
end WordMachine
