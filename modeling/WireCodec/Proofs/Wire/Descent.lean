import WireCodec.Proofs.Wire.Discipline

/-! # Descent

What a read does at a cursor depends on what its payloads are read with, and on
that only at deeper levels, within the nesting limit, and where fewer bytes are
left. So two reads do the same if they are made in the same way from readers of
payloads that do the same there.
-/

namespace WireCodec.Read

variable {α β σ : Type} {input : Bytes} {depth bound : Nat}

/-- Two reads do the same from this depth on, wherever no more bytes are left. -/
def SameFrom (input : Bytes) (depth bound : Nat) (read read' : Read α) : Prop :=
  ∀ cursor : Cursor, cursor.Sound input → depth ≤ cursor.depth → cursor.remaining ≤ bound →
    read input cursor = read' input cursor

variable {read read' : Read α}

theorem SameFrom.refl (read : Read α) : SameFrom input depth bound read read :=
  fun _ _ _ _ => rfl

theorem SameFrom.mono (h : SameFrom input depth bound read read') {deeper fewer : Nat}
    (hdepth : depth ≤ deeper) (hbound : fewer ≤ bound) : SameFrom input deeper fewer read read' :=
  fun cursor hsound hdeeper hfewer =>
    h cursor hsound (Nat.le_trans hdepth hdeeper) (Nat.le_trans hfewer hbound)

theorem Disciplined.of_ok (h : Disciplined read) {before after : Cursor} {a : α}
    (hsound : before.Sound input) (hrun : read input before = .ok a after) :
    after.Sound input ∧ after.depth = before.depth ∧ after.remaining ≤ before.remaining := by
  have hreaches := h.reaches_of_ok hsound.toInside hrun
  refine ⟨hreaches.sound hsound, ?_⟩
  obtain ⟨count, -, rfl⟩ := hreaches
  refine ⟨rfl, ?_⟩
  simp only [Cursor.remaining, Cursor.forward]
  omega

theorem SameFrom.bind {next next' : α → Read β} (h : SameFrom input depth bound read read')
    (hread : Disciplined read) (hnext : ∀ a, SameFrom input depth bound (next a) (next' a)) :
    SameFrom input depth bound (read >>= next) (read' >>= next') := by
  intro cursor hsound hdepth hbound
  have hfirst := h cursor hsound hdepth hbound
  simp only [Bind.bind, ReaderT.bind, EStateM.bind, ← hfirst]
  cases hrun : read input cursor with
  | error e after => rfl
  | ok a after =>
      obtain ⟨hafter, hsame, hless⟩ := hread.of_ok hsound hrun
      exact hnext a after hafter (hsame ▸ hdepth) (Nat.le_trans hless hbound)

theorem SameFrom.map (h : SameFrom input depth bound read read') (f : α → β) :
    SameFrom input depth bound (f <$> read) (f <$> read') := by
  intro cursor hsound hdepth hbound
  have hsame := h cursor hsound hdepth hbound
  simp only [Functor.map, EStateM.map, hsame]

theorem SameFrom.expect (h : SameFrom input depth bound read read') (found : Key)
    (expected : UInt8) : SameFrom input depth bound (do Read.expect found expected; read)
      (do Read.expect found expected; read') :=
  (SameFrom.refl _).bind (uniform_expect found expected).disciplined fun _ => h

theorem SameFrom.withLimit (h : SameFrom input depth bound read read') (length : Nat) :
    SameFrom input depth bound (withLimit length read) (withLimit length read') := by
  intro cursor hsound hdepth hbound
  unfold Read.withLimit
  cases henter : enter? length cursor with
  | none => rfl
  | some inner =>
      obtain ⟨hlength, rfl⟩ := enter?_eq_some henter
      have hinner : Cursor.remaining { cursor with limit := cursor.offset + length } ≤ bound := by
        simp only [Cursor.remaining] at hlength hbound ⊢
        omega
      have hsame := h _ ⟨inside_inner hsound.toInside hlength, hsound.depth_le⟩ hdepth hinner
      simp only [hsame]

/-- A payload is entered below the nesting limit only, and behind its byte count. -/
theorem SameFrom.delimited
    (h : ∀ fewer < bound, SameFrom input (depth + 1) fewer read read') :
    SameFrom input depth bound (delimited read) (delimited read') := by
  intro cursor hsound hdepth hbound
  unfold Read.delimited
  simp only [Bind.bind, ReaderT.bind, EStateM.bind]
  cases hrun : payloadLength input cursor with
  | error e after => rfl
  | ok length after =>
      obtain ⟨hafter, hsame, -⟩ := uniform_payloadLength.disciplined.of_ok hsound hrun
      obtain ⟨hlimit, hbefore, hoffset⟩ := consumes_payloadLength _ _ _ _ hrun
      have hlevel : cursor.depth < nestingLimit := by
        unfold payloadLength at hrun
        split at hrun
        next => cases hrun
        next hlevel => exact Nat.lt_of_not_le hlevel
      have hfewer : after.remaining < bound := by
        simp only [Cursor.remaining] at hbound ⊢
        omega
      have hinner : Cursor.Sound input { after with depth := after.depth + 1 } := by
        refine ⟨⟨hafter.offset_le, hafter.limit_le⟩, ?_⟩
        simp only [hsame]
        exact hlevel
      have hbody := (h _ hfewer).withLimit length _ hinner (by simp only; omega) (Nat.le_refl _)
      simp only [Read.deeper, hbody]

/-- Loops do the same if their steps do. -/
theorem SameFrom.iterate {step step' : σ → Read (Option σ)} {advances : ∀ s, Advances (step s)}
    {advances' : ∀ s, Advances (step' s)}
    (h : ∀ s, SameFrom input depth bound (step s) (step' s))
    (hread : ∀ s, Disciplined (step s)) (s : σ) :
    SameFrom input depth bound (iterate step advances s) (iterate step' advances' s) := by
  intro cursor hsound hdepth hbound
  induction s, cursor using iterate.induct step advances input with
  | case1 s before e middle hfound =>
      have hfound' := (h s before hsound hdepth hbound).symm.trans hfound
      rw [iterate_of_error hfound, iterate_of_error hfound']
  | case2 s before middle hfound =>
      have hfound' := (h s before hsound hdepth hbound).symm.trans hfound
      rw [iterate_of_none hfound, iterate_of_none hfound']
  | case3 s before next middle hfound ih =>
      have hfound' := (h s before hsound hdepth hbound).symm.trans hfound
      obtain ⟨hmiddle, hsame, hless⟩ := (hread s).of_ok hsound hfound
      rw [iterate_of_some hfound, iterate_of_some hfound']
      exact ih hmiddle (hsame ▸ hdepth) (Nat.le_trans hless hbound)

/-- A single element, or a run of them, which is one level deeper. -/
theorem SameFrom.packable {element element' : σ → Read σ} {consumes : ∀ s, Consumes (element s)}
    {consumes' : ∀ s, Consumes (element' s)}
    (h : ∀ s, SameFrom input depth bound (element s) (element' s))
    (huniform : ∀ s, Uniform (element s)) (found : Key) (natural : UInt8) (s : σ) :
    SameFrom input depth bound (packable found natural element consumes s)
      (packable found natural element' consumes' s) := by
  unfold Read.packable
  split
  · refine SameFrom.delimited fun fewer hfewer => ?_
    refine SameFrom.iterate (fun s => ?_) (fun s => (huniform s).untilEnd.disciplined) s
    refine (SameFrom.refl _).bind uniform_atEnd.disciplined fun ended => ?_
    split
    · exact SameFrom.refl _
    · exact ((h s).mono (Nat.le_succ _) (Nat.le_of_lt hfewer)).map some
  · exact (h s).expect found natural

end WireCodec.Read
