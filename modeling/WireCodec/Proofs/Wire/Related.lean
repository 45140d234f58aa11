import WireCodec.Proofs.Wire.Yields

/-! # Reads side by side

Two reads that take the same way through every input: both answer, and stand
at the same place, or both fail. What they answer and what they fail with is
related, and the operations that reads are made of keep the relations.
-/

namespace WireCodec.Read

variable {α β γ δ σ τ : Type} {fault : DecodeError → DecodeError → Prop}

/-- Two runs that answer related values at one place, or fail with related errors. -/
inductive Agree (fault : DecodeError → DecodeError → Prop) (rel : α → β → Prop) :
    EStateM.Result DecodeError Cursor α → EStateM.Result DecodeError Cursor β → Prop
  | ok {a : α} {b : β} {after : Cursor} (h : rel a b) : Agree fault rel (.ok a after) (.ok b after)
  | error {e e' : DecodeError} {after after' : Cursor} (h : fault e e') :
      Agree fault rel (.error e after) (.error e' after')

theorem Agree.of_ok {rel : α → β → Prop} {a : α} {after : Cursor}
    {run : EStateM.Result DecodeError Cursor β} (h : Agree fault rel (.ok a after) run) :
    ∃ b, run = .ok b after ∧ rel a b := by
  cases h with
  | ok hab => exact ⟨_, rfl, hab⟩

theorem Agree.of_error {rel : α → β → Prop} {e : DecodeError} {after : Cursor}
    {run : EStateM.Result DecodeError Cursor β} (h : Agree fault rel (.error e after) run) :
    ∃ e' after', run = .error e' after' ∧ fault e e' := by
  cases h with
  | error he => exact ⟨_, _, rfl, he⟩

/-- Two reads agree on every input and at every place. -/
def Related (fault : DecodeError → DecodeError → Prop) (rel : α → β → Prop) (read : Read α)
    (read' : Read β) : Prop :=
  ∀ input cursor, Agree fault rel (read input cursor) (read' input cursor)

variable {rel : α → β → Prop} {rel' : γ → δ → Prop} {read : Read α} {read' : Read β}

theorem related_pure {a : α} {b : β} (h : rel a b) : Related fault rel (pure a) (pure b) :=
  fun _ _ => .ok h

theorem related_throw {e e' : DecodeError} (h : fault e e') :
    Related fault rel (throw e) (throw e') := fun _ _ => .error h

/-- A read agrees with itself if every error is related to itself. -/
theorem related_self (hfault : ∀ e, fault e e) (read : Read α) : Related fault Eq read read := by
  intro input cursor
  cases read input cursor with
  | ok a after => exact .ok rfl
  | error e after => exact .error (hfault e)

theorem Related.bind {next : α → Read γ} {next' : β → Read δ} (h : Related fault rel read read')
    (hnext : ∀ a b, rel a b → Related fault rel' (next a) (next' b)) :
    Related fault rel' (read >>= next) (read' >>= next') := by
  intro input cursor
  have hfirst := h input cursor
  simp only [Bind.bind, ReaderT.bind, EStateM.bind]
  generalize read input cursor = left at hfirst ⊢
  generalize read' input cursor = right at hfirst ⊢
  cases hfirst with
  | ok hab => exact hnext _ _ hab input _
  | error he => exact .error he

theorem Related.map {f : α → γ} {g : β → δ} (h : Related fault rel read read')
    (hmap : ∀ a b, rel a b → rel' (f a) (g b)) :
    Related fault rel' (f <$> read) (g <$> read') := by
  rw [← bind_pure_comp, ← bind_pure_comp]
  exact h.bind fun a b hab => related_pure (hmap a b hab)

theorem Related.imp {rel' : α → β → Prop} (h : Related fault rel read read')
    (himp : ∀ a b, rel a b → rel' a b) : Related fault rel' read read' := by
  have hmap : Related fault rel' (id <$> read) (id <$> read') := h.map himp
  rwa [id_map, id_map] at hmap

theorem Related.map_left {f : α → γ} {rel' : γ → β → Prop} (h : Related fault rel read read')
    (hmap : ∀ a b, rel a b → rel' (f a) b) : Related fault rel' (f <$> read) read' := by
  have hboth : Related fault rel' (f <$> read) (id <$> read') := h.map hmap
  rwa [id_map] at hboth

/-- What the first read answers has the properties of all that it answers. -/
theorem Related.of_yields {P : α → Prop} (h : Related fault rel read read') (hread : Yields read P) :
    Related fault (fun a b => P a ∧ rel a b) read read' := by
  intro input cursor
  have hagree := h input cursor
  cases hrun : read input cursor with
  | ok a after =>
      obtain ⟨b, hrun', hab⟩ := (hrun ▸ hagree).of_ok
      rw [hrun']
      exact .ok ⟨hread _ _ _ _ hrun, hab⟩
  | error e after =>
      obtain ⟨e', after', hrun', he⟩ := (hrun ▸ hagree).of_error
      rw [hrun']
      exact .error he

theorem Related.deeper (h : Related fault rel read read') :
    Related fault rel (deeper read) (deeper read') := by
  intro input cursor
  unfold Read.deeper
  have hinner := h input { cursor with depth := cursor.depth + 1 }
  generalize read input { cursor with depth := cursor.depth + 1 } = left at hinner ⊢
  generalize read' input { cursor with depth := cursor.depth + 1 } = right at hinner ⊢
  cases hinner with
  | ok hab => exact .ok hab
  | error he => exact .error he

variable (hfault : ∀ e, fault e e)
include hfault

theorem Related.withLimit (h : Related fault rel read read') (length : Nat) :
    Related fault rel (withLimit length read) (withLimit length read') := by
  intro input cursor
  unfold Read.withLimit
  cases enter? length cursor with
  | none => exact .error (hfault _)
  | some inner =>
      dsimp only
      have hinner := h input inner
      generalize read input inner = left at hinner ⊢
      generalize read' input inner = right at hinner ⊢
      cases hinner with
      | ok hab => exact .ok hab
      | error he => exact .error he

theorem Related.delimited (h : Related fault rel read read') :
    Related fault rel (delimited read) (delimited read') := by
  refine (related_self hfault payloadLength).bind ?_
  rintro length _ rfl
  exact (h.withLimit hfault length).deeper

theorem Related.expect (h : Related fault rel read read') (found : Key) (expected : UInt8) :
    Related fault rel (do Read.expect found expected; read)
      (do Read.expect found expected; read') :=
  (related_self hfault (Read.expect found expected)).bind fun _ _ _ => h

omit hfault in
/-- Loops go along with each other if their steps do. -/
theorem Related.iterate {inv : σ → τ → Prop} {step : σ → Read (Option σ)}
    {advances : ∀ s, Advances (step s)} {step' : τ → Read (Option τ)}
    {advances' : ∀ t, Advances (step' t)}
    (hstep : ∀ s t, inv s t → Related fault (Option.Rel inv) (step s) (step' t)) {s : σ} {t : τ}
    (h : inv s t) : Related fault inv (iterate step advances s) (iterate step' advances' t) := by
  intro input cursor
  -- the first loop is followed, and the second one goes along with it
  induction s, cursor using iterate.induct step advances input generalizing t with
  | case1 s before e after hfound =>
      obtain ⟨e', after', hrun, he⟩ := (hfound ▸ hstep s t h input before).of_error
      rw [iterate_of_error hfound, iterate_of_error hrun]
      exact .error he
  | case2 s before after hfound =>
      obtain ⟨next, hrun, hnext⟩ := (hfound ▸ hstep s t h input before).of_ok
      cases hnext
      rw [iterate_of_none hfound, iterate_of_none hrun]
      exact .ok h
  | case3 s before next after hfound ih =>
      obtain ⟨next', hrun, hnext⟩ := (hfound ▸ hstep s t h input before).of_ok
      cases hnext with
      | some hrel =>
          rw [iterate_of_some hfound, iterate_of_some hrun]
          exact ih hrel

/-- Collecting elements goes along with collecting elements that agree. -/
theorem Related.packable {inv : σ → τ → Prop} {element : σ → Read σ}
    {consumes : ∀ s, Consumes (element s)} {element' : τ → Read τ}
    {consumes' : ∀ t, Consumes (element' t)}
    (helement : ∀ s t, inv s t → Related fault inv (element s) (element' t)) {s : σ} {t : τ}
    (h : inv s t) (found : Key) (natural : UInt8) :
    Related fault inv (packable found natural element consumes s)
      (packable found natural element' consumes' t) := by
  unfold Read.packable
  split
  next =>
    refine Related.delimited hfault (Related.iterate (fun s t hst => ?_) h)
    refine (related_self hfault atEnd).bind ?_
    rintro ended _ rfl
    split
    · exact related_pure .none
    · exact (helement s t hst).map fun _ _ hnext => .some hnext
  next => exact (helement s t h).expect hfault found natural

end WireCodec.Read
