import WordMachine.Proofs.Breakpoints

/-!
# WordMachine.Proofs.LineSteps

Stepping by source lines and breakpoints. Each line is a run of its own (`Session.LineRuns`), and
every run passes over the breakpoints at the address at which the one before it ended. So a step by
several lines stops at every breakpoint on its way but for those where one of its runs begins
(`Session.stepLines_heeds`), and those it can run past (`Session.exists_stepLines_passes`).
-/

namespace WordMachine
namespace Session

open Machine

variable {d : DebugInfo} {s s' : Session} {r : RunResult}

/-- A line is done only where another one begins. -/
theorem exactLocation_of_drive {limit : Nat} {start : Option SourceLocation}
    (hinfo : s.debugInfo? = some d) (hd : s.drive (.line limit) (.line start) = (r, s'))
    (hstop : r.stop = .stepComplete) : (d.exactLocation? s'.pc).isSome := by
  obtain ⟨depth, hreached⟩ := reached_of_drive (by simp [Budget.line]) hd hstop
  simp only [hinfo, Option.bind_some, Goal.reached, Bool.and_eq_true] at hreached
  exact hreached.1

/-- Source lines are run through one after the other, each in a run of its own that retires the
instructions with one list of these reports. A run is followed by another one only if its line is
done. -/
inductive LineRuns (d : DebugInfo) : Session → List (List StepReport) → Session → Prop where
  | nil {s : Session} : LineRuns d s [] s
  | cons {s s₁ s' : Session} {r : RunResult} {rs : List StepReport} {rss : List (List StepReport)}
      (hd : s.drive (.line s.lineLimit) (.line (d.locationAt? s.pc)) = (r, s₁))
      (hretired : Retired rs s s₁) (hsteps : r.steps = rs.length)
      (hmore : r.stop = .stepComplete ∨ rss = []) (hrest : LineRuns d s₁ rss s') :
      LineRuns d s (rs :: rss) s'

/-- Where among all the instructions of some runs the one at this index begins a run other than the
first. -/
def BeginsLine (rss : List (List StepReport)) (i : Nat) : Prop :=
  ∃ j, 0 < j ∧ j < rss.length ∧ i = (rss.take j).flatten.length

theorem BeginsLine.cons {rs : List StepReport} {rss : List (List StepReport)} {i : Nat}
    (hrss : rss ≠ []) (h : i = 0 ∨ BeginsLine rss i) : BeginsLine (rs :: rss) (rs.length + i) := by
  rcases h with rfl | ⟨j, -, hj, rfl⟩
  · exact ⟨1, Nat.one_pos, by simpa [List.length_pos_iff] using hrss, by simp⟩
  · exact ⟨j + 1, Nat.succ_pos j, Nat.succ_lt_succ hj, by simp⟩

/-- What only the first instruction of each run does, and in the runs that follow only where a line
begins, is done in all of them only where a run begins. -/
theorem BeginsLine.of_flatten_cons {stops begins : StepReport → Prop} {rs : List StepReport}
    {rss : List (List StepReport)} {i : Nat} {x : StepReport}
    (hfirst : ∀ {i x}, rs[i]? = some x → stops x → i = 0)
    (hrest : ∀ i x, rss.flatten[i]? = some x → stops x → i = 0 ∨ BeginsLine rss i ∧ begins x)
    (hline : ∀ x, rss.flatten.head? = some x → begins x)
    (hx : (rs :: rss).flatten[i]? = some x) (hstops : stops x) :
    i = 0 ∨ BeginsLine (rs :: rss) i ∧ begins x := by
  rw [List.flatten_cons, List.getElem?_append] at hx
  split at hx
  · exact .inl (hfirst hx hstops)
  · rename_i hi
    have hrss : rss ≠ [] := fun hnone => by simp [hnone] at hx
    obtain ⟨k, rfl⟩ := Nat.exists_eq_add_of_le (Nat.not_lt.1 hi)
    rw [Nat.add_sub_cancel_left] at hx
    refine .inr ?_
    rcases hrest k x hx hstops with rfl | ⟨hlater, hbegins⟩
    · rw [← List.head?_eq_getElem?] at hx
      exact ⟨.cons hrss (.inl rfl), hline x hx⟩
    · exact ⟨.cons hrss (.inr hlater), hbegins⟩

theorem stepLinesFrom_heeds :
    ∀ {n : Nat} {s : Session} {total : RunResult}, s.debugInfo? = some d →
      (∀ id, total.stop ≠ .breakpoint id) → stepLinesFrom d s total n = (r, s') →
        ∃ rss, LineRuns d s rss s' ∧ rss.length ≤ n ∧ Retired rss.flatten s s' ∧
          r.steps = total.steps + rss.flatten.length ∧
          (∀ i x, rss.flatten[i]? = some x → s.tracker.StopsAt x.pc →
            i = 0 ∨ BeginsLine rss i ∧ (d.exactLocation? x.pc).isSome) ∧
          ∀ id, r.stop = .breakpoint id → s.tracker.breakpoints.IsLowest (· = s'.pc) id := by
  -- The first line is one run, which passes over breakpoints only at its first instruction; the
  -- others begin where the line before them was done.
  intro n
  induction n with
  | zero =>
    intro s total _ htotal hs
    cases hs
    exact ⟨[], .nil, Nat.le_refl 0, .nil rfl, rfl, by simp, fun id hid => absurd hid (htotal id)⟩
  | succ n ih =>
    intro s total hinfo htotal hs
    rcases hd : s.drive (.line s.lineLimit) (.line (d.locationAt? s.pc)) with ⟨r₁, s₁⟩
    have hbudget : ∀ id, (Budget.line s.lineLimit).exhausted ≠ .breakpoint id := by
      simp [Budget.line]
    obtain ⟨rs, hdriven⟩ := drive_driven hbudget hd
    simp only [stepLinesFrom, hd] at hs
    split at hs
    · rename_i hcomplete
      obtain ⟨rss, hruns, hcount, hretired, hsteps, hheeds, hlowest⟩ :=
        ih (hdriven.retired.debugInfo.trans hinfo)
          (fun id hid => by cases hcomplete.symm.trans hid) hs
      refine ⟨rs :: rss, .cons hd hdriven.retired hdriven.steps (.inl hcomplete) hruns,
        Nat.succ_le_succ hcount, hdriven.retired.trans hretired, ?_, fun i x hx hstops => ?_,
        fun id hid => (hlowest id hid).congr hdriven.settings⟩
      · rw [hsteps, RunResult.followedBy, hdriven.steps, List.flatten_cons, List.length_append,
          Nat.add_assoc]
      · rw [Tracker.stopsAt_congr hdriven.settings] at hheeds
        refine BeginsLine.of_flatten_cons
          (fun hx hstops => (hdriven.heeds.index_eq_zero hx hstops).1) hheeds
          (fun y hy => ?_) hx hstops
        rw [hretired.pc_head hy]
        exact exactLocation_of_drive hinfo hd hcomplete
    · cases hs
      refine ⟨[rs], .cons hd hdriven.retired hdriven.steps (.inr rfl) .nil, by simp, ?_, ?_,
        fun i x hx hstops => ?_, hdriven.lowest⟩
      · rw [List.flatten_singleton]
        exact hdriven.retired
      · rw [List.flatten_singleton, RunResult.followedBy, hdriven.steps]
      · rw [List.flatten_singleton] at hx
        exact .inl (hdriven.heeds.index_eq_zero hx hstops).1

/-- **A step by source lines stops at breakpoints inside of lines.** It runs through at most as many
lines as it was asked for, each in a run of its own, and retires an instruction at the address of an
enabled breakpoint only as its very first or as the first of one of the runs that follow. These
begin at the first address of a line. -/
theorem stepLines_heeds (s : Session) (hinfo : s.debugInfo? = some d) (n : Nat) :
    ∃ r s' rss, s.perform (.stepLines n) = (some r, s') ∧ LineRuns d s rss s' ∧ rss.length ≤ n ∧
      s.Retired rss.flatten s' ∧ r.steps = rss.flatten.length ∧
      (∀ i x, rss.flatten[i]? = some x → s.tracker.StopsAt x.pc →
        i = 0 ∨ BeginsLine rss i ∧ (d.exactLocation? x.pc).isSome) ∧
      ∀ id, r.stop = .breakpoint id → s.tracker.breakpoints.IsLowest (· = s'.pc) id := by
  rcases hs : stepLinesFrom d s { stop := .stepComplete, lastPc := s.pc } n with ⟨r, s'⟩
  have htotal : ∀ id, Stop.stepComplete ≠ .breakpoint id := by simp
  obtain ⟨rss, hruns, hcount, hretired, hsteps, hheeds, hlowest⟩ :=
    stepLinesFrom_heeds hinfo htotal hs
  refine ⟨r, s', rss, ?_, hruns, hcount, hretired, ?_, hheeds, hlowest⟩
  · simp only [perform, stepLines, hinfo, hs, ran]
  · rw [hsteps, Nat.zero_add]

/-- The program of two source lines, the second of two instructions. -/
def adderByLines : Program :=
  { adder with
    debugInfo := some
      { lines := ⟨[(0x1000, ⟨"adder.c", 1⟩), (0x1004, ⟨"adder.c", 2⟩)], by decide⟩
        origin := 0x1000 } }

/-- A breakpoint inside of the second line stops a step by two lines. -/
theorem stepLines_heeds_inside : ∃ m s d r s' rss,
    Machine.load adderByLines .standard { stackSize := 8 } = .ok m ∧
      (({ machine := m } : Session).addBreakpoint 0x1008).2 = s ∧ s.debugInfo? = some d ∧
      s.perform (.stepLines 2) = (some r, s') ∧ LineRuns d s rss s' ∧
      s.Retired rss.flatten s' ∧ rss.flatten.length = 2 ∧
      (∀ i x, rss.flatten[i]? = some x → s.tracker.StopsAt x.pc →
        i = 0 ∨ BeginsLine rss i ∧ (d.exactLocation? x.pc).isSome) ∧
      s.tracker.breakpoints.IsLowest (· = s'.pc) 0 := by
  obtain ⟨m, d, hload, hinfo, hrun⟩ : ∃ m d,
      Machine.load adderByLines .standard { stackSize := 8 } = .ok m ∧
      (({ machine := m } : Session).addBreakpoint 0x1008).2.debugInfo? = some d ∧
      ((({ machine := m } : Session).addBreakpoint 0x1008).2.perform (.stepLines 2)).1.map
        (fun r => (r.stop, r.steps)) = some (.breakpoint 0, 2) :=
    ⟨_, _, rfl, rfl, by decide +kernel⟩
  obtain ⟨r, s', rss, hperform, hruns, -, hretired, hsteps, hheeds, hlowest⟩ :=
    stepLines_heeds _ hinfo 2
  simp only [hperform, Option.map_some, Option.some.injEq, Prod.mk.injEq] at hrun
  exact ⟨m, _, d, r, s', rss, hload, rfl, hinfo, hperform, hruns, hretired, hsteps ▸ hrun.2,
    hheeds, hlowest 0 hrun.1⟩

/-- A breakpoint on the first address of the second line does not. -/
theorem exists_stepLines_passes : ∃ m s r s' rs x,
    Machine.load adderByLines .standard { stackSize := 8 } = .ok m ∧
      (({ machine := m } : Session).addBreakpoint 0x1004).2 = s ∧
      s.perform (.stepLines 2) = (some r, s') ∧ r.stop = .halted ∧ s.Retired rs s' ∧
      rs[1]? = some x ∧ s.tracker.StopsAt x.pc := by
  obtain ⟨m, s, d, hload, hset, hinfo, hrun, hpc⟩ : ∃ m s d,
      Machine.load adderByLines .standard { stackSize := 8 } = .ok m ∧
      (({ machine := m } : Session).addBreakpoint 0x1004).2 = s ∧ s.debugInfo? = some d ∧
      (s.perform (.stepLines 2)).1.map (fun r => (r.stop, r.steps)) = some (.halted, 3) ∧
      s.machine.unrequested.step.2.registers.pc = 0x1004 :=
    ⟨_, _, _, rfl, rfl, rfl, by decide +kernel, by decide +kernel⟩
  rcases hs : stepLinesFrom d s { stop := .stepComplete, lastPc := s.pc } 2 with ⟨r, s'⟩
  have hperform : s.perform (.stepLines 2) = (some r, s') := by
    simp only [perform, stepLines, hinfo, hs, ran]
  simp only [hperform, Option.map_some, Option.some.injEq, Prod.mk.injEq] at hrun
  have htotal : ∀ id, Stop.stepComplete ≠ .breakpoint id := by simp
  obtain ⟨rss, -, -, hretired, hsteps, -⟩ := stepLinesFrom_heeds hinfo htotal hs
  rw [hrun.2, Nat.zero_add] at hsteps
  obtain ⟨x₀, x, x₂, hreports⟩ := List.length_eq_three.1 hsteps.symm
  rw [hreports] at hretired
  have hx : x.pc = 0x1004 := by
    obtain ⟨n, hret, -⟩ := hretired
    cases hret with
    | cons _ _ hstep hrest =>
      rw [pc_of_mem_head? hrest rfl, ← hpc, hstep]
  refine ⟨m, s, r, s', _, x, hload, hset, hperform, hrun.1, hretired, rfl, ?_⟩
  subst hset
  exact ⟨_, List.mem_singleton.2 rfl, rfl, by simp [hx]⟩

end Session
end WordMachine
