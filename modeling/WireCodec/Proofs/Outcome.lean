import Mathlib.Control.Monad.Basic

/-! # Outcomes

Laws of computations that deliver a result or an error: how they go on after
each, and what a result of a sequence of them says about its parts.
-/

namespace WireCodec

namespace Except

variable {ε α β : Type}

@[simp]
theorem pure_eq_ok (a : α) : (pure a : Except ε α) = .ok a := rfl

@[simp]
theorem ok_bind (a : α) (next : α → Except ε β) : (Except.ok a >>= next) = next a := rfl

@[simp]
theorem error_bind (e : ε) (next : α → Except ε β) : (Except.error e >>= next) = .error e := rfl

theorem bind_eq_ok {x : Except ε α} {next : α → Except ε β} {b : β} :
    x >>= next = .ok b ↔ ∃ a, x = .ok a ∧ next a = .ok b := by
  cases x with
  | error e => simp
  | ok a => simp

theorem map_eq_ok {x : Except ε α} {f : α → β} {b : β} :
    f <$> x = .ok b ↔ ∃ a, x = .ok a ∧ f a = b := by
  cases x with
  | error e => simp
  | ok a => simp

/-- A computation whose result passes a test has a result. -/
theorem exists_of_any {x : Except ε α} {p : α → Prop} [DecidablePred p]
    (h : x.toOption.any (fun a => decide (p a)) = true) : ∃ a, x = .ok a ∧ p a := by
  cases x with
  | error e => cases h
  | ok a => exact ⟨a, rfl, of_decide_eq_true h⟩

/-- If a computation fails, the error has this property. -/
def Fails (x : Except ε α) (P : ε → Prop) : Prop := ∀ e, x = .error e → P e

variable {P : ε → Prop}

theorem fails_ok (a : α) : Fails (.ok a) P := fun _ h => by cases h

theorem fails_error {e : ε} (h : P e) : Fails (.error e : Except ε α) P := by
  rintro _ ⟨⟩
  exact h

theorem Fails.bind {x : Except ε α} {next : α → Except ε β} (hx : Fails x P)
    (hnext : ∀ a, Fails (next a) P) : Fails (x >>= next) P := by
  cases x with
  | error e => exact fails_error (hx e rfl)
  | ok a => exact hnext a

theorem Fails.map {x : Except ε α} (h : Fails x P) (f : α → β) : Fails (f <$> x) P := by
  cases x with
  | error e => exact fails_error (h e rfl)
  | ok a => exact fails_ok (f a)

/-- What every step of a fold keeps, the whole fold keeps. -/
theorem foldlM_invariant {motive : β → Prop} {step : β → α → Except ε β} {items : List α}
    (hstep : ∀ state item next, motive state → item ∈ items → step state item = .ok next →
      motive next) {start stop : β} (hstart : motive start)
    (h : items.foldlM step start = .ok stop) : motive stop := by
  induction items generalizing start with
  | nil =>
      cases h
      exact hstart
  | cons item rest ih =>
      rw [List.foldlM_cons] at h
      obtain ⟨middle, hfirst, hrest⟩ := bind_eq_ok.mp h
      exact ih (fun state item next hstate hitem => hstep state item next hstate
        (List.mem_cons_of_mem _ hitem)) (hstep _ _ _ hstart List.mem_cons_self hfirst) hrest

end Except

end WireCodec
