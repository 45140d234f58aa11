import WireCodec.Proofs.Wire.Parses

/-! # What reads answer

A property of the values that a read answers, wherever and whenever it
succeeds. Such properties are carried through the operations that reads are
made of, and loops carry those that every step keeps.
-/

namespace WireCodec.Read

variable {α β σ : Type} {P : α → Prop} {Q : β → Prop}

/-- Whatever a read answers has this property. -/
def Yields (read : Read α) (P : α → Prop) : Prop :=
  ∀ input before a after, read input before = .ok a after → P a

theorem yields_pure {a : α} (h : P a) : Yields (pure a) P := by
  intro input before b after hrun
  cases hrun
  exact h

theorem yields_throw (e : DecodeError) : Yields (throw e : Read α) P := by
  intro input before b after hrun
  cases hrun

theorem yields_trivial (read : Read α) : Yields read fun _ => True := fun _ _ _ _ _ => trivial

theorem Yields.mono {P' : α → Prop} {read : Read α} (h : Yields read P) (hmono : ∀ a, P a → P' a) :
    Yields read P' :=
  fun _ _ _ _ hrun => hmono _ (h _ _ _ _ hrun)

theorem Yields.bind {read : Read α} {next : α → Read β} (hread : Yields read P)
    (hnext : ∀ a, P a → Yields (next a) Q) : Yields (read >>= next) Q := by
  intro input before b after hrun
  obtain ⟨a, middle, hfirst, hsecond⟩ := bind_eq_ok.mp hrun
  exact hnext a (hread _ _ _ _ hfirst) _ _ _ _ hsecond

theorem Yields.map {read : Read α} {f : α → β} (hread : Yields read P) (hf : ∀ a, P a → Q (f a)) :
    Yields (f <$> read) Q := by
  intro input before b after hrun
  obtain ⟨a, hfirst, rfl⟩ := map_eq_ok.mp hrun
  exact hf a (hread _ _ _ _ hfirst)

theorem Yields.expect {read : Read α} {found : Key} {expected : UInt8} (hread : Yields read P) :
    Yields (do Read.expect found expected; read) P :=
  (yields_trivial _).bind fun _ _ => hread

theorem Yields.withLimit {body : Read α} (h : Yields body P) (length : Nat) :
    Yields (withLimit length body) P := by
  intro input before a after hrun
  unfold Read.withLimit at hrun
  split at hrun
  next => cases hrun
  next inner _ =>
    split at hrun
    next hbody =>
      cases hrun
      exact h _ _ _ _ hbody
    next => cases hrun

theorem Yields.deeper {body : Read α} (h : Yields body P) : Yields (deeper body) P := by
  intro input before a after hrun
  unfold Read.deeper at hrun
  split at hrun
  next hbody =>
    cases hrun
    exact h _ _ _ _ hbody
  next => cases hrun

theorem Yields.delimited {body : Read α} (h : Yields body P) : Yields (delimited body) P :=
  (yields_trivial _).bind fun length _ => (h.withLimit length).deeper

/-- What every step of a loop keeps holds of what the loop answers. -/
theorem Yields.iterate {I : σ → Prop} {step : σ → Read (Option σ)}
    {advances : ∀ s, Advances (step s)}
    (hstep : ∀ s, I s → Yields (step s) fun answer => ∀ next, answer = some next → I next)
    {s : σ} (h : I s) : Yields (iterate step advances s) I := by
  intro input before a after hrun
  induction hrun using iterate_ok_induction with
  | stop before hfound => exact h
  | next s before next middle hfound _ ih => exact ih (hstep s h _ _ _ _ hfound next rfl)

theorem Yields.run {I : σ → Prop} {element : σ → Read σ} {consumes : ∀ s, Consumes (element s)}
    (helement : ∀ s, I s → Yields (element s) I) {s : σ} (h : I s) :
    Yields (run element consumes s) I := by
  refine Yields.iterate ?_ h
  intro s hs
  refine (yields_trivial _).bind ?_
  intro ended _
  split
  · refine yields_pure ?_
    intro next hnext
    cases hnext
  · refine (helement s hs).map ?_
    rintro next hnext _ ⟨⟩
    exact hnext

theorem Yields.packable {I : σ → Prop} {element : σ → Read σ}
    {consumes : ∀ s, Consumes (element s)} (helement : ∀ s, I s → Yields (element s) I) {s : σ}
    (h : I s) (found : Key) (natural : UInt8) :
    Yields (packable found natural element consumes s) I := by
  unfold Read.packable
  split
  · exact (Yields.run helement h).delimited
  · exact (helement s h).expect

/-- An outcome that a read has on some bytes is among what it answers. -/
theorem Parses.of_yields {read : Read α} {depth : Nat} {bytes : List UInt8} {a : α}
    (hparses : Parses read depth bytes (.ok a)) (h : Yields read P) : P a := by
  let input : Bytes := bytes.toArray
  let cursor : Cursor := { Cursor.start input with depth := depth }
  have hview : cursor.view input = bytes ++ [] := by
    rw [List.append_nil]
    exact Cursor.view_start input
  exact h _ _ _ _ (hparses input cursor [] ⟨Nat.zero_le _, Nat.le_refl _⟩ rfl hview)

end WireCodec.Read
