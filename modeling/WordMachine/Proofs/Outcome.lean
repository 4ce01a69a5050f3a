/-!
# WordMachine.Proofs.Outcome

What a fallible computation did when it succeeded. The functions of the library are written with
`do`; these equivalences take such a function apart, one step at a time, once its result is known
to be `.ok`. `Outcome.bind_error_iff` says where one failed.
-/

namespace WordMachine
namespace Outcome

variable {ε δ α β : Type}

/-- A sequence succeeds when both of its parts do. -/
theorem bind_ok_iff {x : Except ε α} {next : α → Except ε β} {b : β} :
    (x >>= next) = .ok b ↔ ∃ a, x = .ok a ∧ next a = .ok b := by
  cases x with
  | error e => simp [bind, Except.bind]
  | ok a' => simp [bind, Except.bind]

/-- A check lets what comes after it go on when it has nothing to say. -/
theorem seq_ok_iff {x : Except ε Unit} {next : Except ε β} {b : β} :
    (do x; next) = .ok b ↔ x = .ok () ∧ next = .ok b :=
  bind_ok_iff.trans ⟨fun ⟨(), h⟩ => h, fun h => ⟨(), h⟩⟩

/-- A sequence fails in its first part or in its second. -/
theorem bind_error_iff {x : Except ε α} {next : α → Except ε β} {e : ε} :
    (x >>= next) = .error e ↔ x = .error e ∨ ∃ a, x = .ok a ∧ next a = .error e := by
  cases x with
  | error e' => simp [bind, Except.bind]
  | ok a' => simp [bind, Except.bind]

/-- A sequence of which the second part cannot fail. -/
theorem bind_total_error_iff {x : Except ε α} {next : α → Except ε β} {e : ε}
    (hnext : ∀ a, ∃ b, next a = .ok b) : (x >>= next) = .error e ↔ x = .error e := by
  rw [bind_error_iff]
  constructor
  · rintro (hx | ⟨a, -, ha⟩)
    · exact hx
    · obtain ⟨b, hb⟩ := hnext a
      cases hb.symm.trans ha
  · exact .inl

theorem map_ok_iff {x : Except ε α} {f : α → β} {b : β} :
    x.map f = .ok b ↔ ∃ a, x = .ok a ∧ f a = b := by
  cases x with
  | error e => simp [Except.map]
  | ok a => simp [Except.map]

theorem map_error_iff {x : Except ε α} {f : α → β} {e : ε} :
    x.map f = .error e ↔ x = .error e := by
  cases x with
  | error e' => simp [Except.map]
  | ok a => simp [Except.map]

theorem pure_ok_iff {a b : α} : (pure a : Except ε α) = .ok b ↔ a = b := by
  simp only [pure, Except.pure, Except.ok.injEq]

theorem throw_ok_iff {e : ε} {a : α} : (throw e : Except ε α) = .ok a ↔ False := by
  simp only [throw, throwThe, MonadExceptOf.throw, reduceCtorEq]

theorem ok_bind {a : α} {next : α → Except ε β} : (Except.ok a >>= next) = next a := rfl

theorem error_bind {e : ε} {next : α → Except ε β} :
    (Except.error e >>= next) = .error e := rfl

theorem throw_bind {e : ε} {next : α → Except ε β} : (throw e >>= next) = throw e := rfl

/-- A check that throws lets exactly what it does not refuse go on. -/
theorem guard_ok_iff {c : Prop} [Decidable c] {e : ε} {x : Except ε α} {a : α} :
    (if c then throw e else x) = .ok a ↔ ¬ c ∧ x = .ok a := by
  by_cases h : c
  · simp only [h, if_true, throw_ok_iff, not_true_eq_false, false_and]
  · simp only [h, if_false, not_false_eq_true, true_and]

/-- Renaming errors does not touch a success. -/
theorem mapError_ok_iff {x : Except ε α} {rename : ε → δ} {a : α} :
    x.mapError rename = .ok a ↔ x = .ok a := by
  constructor
  · intro h
    cases x with
    | error e => cases h
    | ok b => cases h; rfl
  · rintro rfl
    rfl

/-- Renaming the errors of a sequence is renaming those of its parts. -/
theorem mapError_bind {x : Except ε α} {next : α → Except ε β} {rename : ε → δ} :
    (x >>= next).mapError rename = x.mapError rename >>= fun a => (next a).mapError rename := by
  cases x <;> rfl

theorem mapError_guard {c : Prop} [Decidable c] {e : ε} {x : Except ε α} {rename : ε → δ} :
    (if c then throw e else x).mapError rename =
      if c then throw (rename e) else x.mapError rename := by
  split <;> rfl

theorem toOption_eq_some_iff {x : Except ε α} {a : α} : x.toOption = some a ↔ x = .ok a := by
  cases x <;> simp [Except.toOption]

/-- What a sequence comes to, if it succeeds, is what its second part comes to. -/
theorem toOption_bind {x : Except ε α} {next : α → Except ε β} :
    (x >>= next).toOption = x.toOption.bind fun a => (next a).toOption := by
  cases x <;> rfl

end Outcome
end WordMachine
