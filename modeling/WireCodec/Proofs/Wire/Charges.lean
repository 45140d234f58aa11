import WireCodec.Proofs.Value.Constituents
import WireCodec.Proofs.Wire.Discipline
import WireCodec.Proofs.Wire.Yields

/-! # What is read is paid for

A read with a credit answers something that costs no more than the credit and
the bytes it has passed. Reads one after the other hand the credit on, so that
each byte pays for one thing only, and a loop has to pay for what each of its
steps adds.
-/

namespace WireCodec.Read

variable {α β σ : Type} {read : Read α} {credit : Nat} {cost : α → Nat}

/-- The answer costs at most the credit and the bytes that were passed. -/
def Pays (read : Read α) (credit : Nat) (cost : α → Nat) : Prop :=
  ∀ (input : Bytes) (before : Cursor) (a : α) (after : Cursor), before.Inside input →
    read input before = .ok a after → before.offset + cost a ≤ after.offset + credit

theorem pays_pure {a : α} (h : cost a ≤ credit) : Pays (pure a) credit cost := by
  intro input before b after _ hrun
  cases hrun
  exact Nat.add_le_add_left h _

theorem pays_throw (e : DecodeError) : Pays (throw e : Read α) credit cost := by
  intro input before b after _ hrun
  cases hrun

theorem Disciplined.pays (h : Disciplined read) (credit : Nat) :
    Pays read credit fun _ => credit := by
  intro input before a after hinside hrun
  exact Nat.add_le_add_right (h.reaches_of_ok hinside hrun).offset_le _

/-- The first byte pays for one thing more. -/
theorem Consumes.pays (h : Consumes read) (credit : Nat) :
    Pays read credit fun _ => credit + 1 := by
  intro input before a after _ hrun
  obtain ⟨_, _, hoffset⟩ := h _ _ _ _ hrun
  simp only
  omega

theorem Pays.mono {cost' : α → Nat} (h : Pays read credit cost) (hcost : ∀ a, cost' a ≤ cost a) :
    Pays read credit cost' := by
  intro input before a after hinside hrun
  have hpaid := h _ _ _ _ hinside hrun
  have hless := hcost a
  omega

/-- A credit that is not needed is handed on. -/
theorem Pays.add (h : Pays read credit cost) (more : Nat) :
    Pays read (credit + more) fun a => cost a + more := by
  intro input before a after hinside hrun
  have hpaid := h _ _ _ _ hinside hrun
  simp only
  omega

theorem Pays.bind {next : α → Read β} {cost' : β → Nat} (h : Pays read credit cost)
    (hread : Disciplined read) (hnext : ∀ a, Pays (next a) (cost a) cost') :
    Pays (read >>= next) credit cost' := by
  intro input before b after hinside hrun
  obtain ⟨a, middle, hfirst, hsecond⟩ := bind_eq_ok.mp hrun
  have hpaid := h _ _ _ _ hinside hfirst
  have hpaid' := hnext a _ _ _ _ ((hread.reaches_of_ok hinside hfirst).inside hinside) hsecond
  omega

theorem Pays.map {f : α → β} {cost' : β → Nat} (h : Pays read credit cost)
    (hcost : ∀ a, cost' (f a) ≤ cost a) : Pays (f <$> read) credit cost' := by
  intro input before b after hinside hrun
  obtain ⟨a, hfirst, rfl⟩ := map_eq_ok.mp hrun
  exact h.mono hcost _ _ _ _ hinside hfirst

/-! ## Payloads -/

/-- A payload is paid for by its own bytes, which are all passed in the end. -/
theorem Pays.withLimit (h : Pays read credit cost) (hread : Disciplined read) (length : Nat) :
    Pays (withLimit length read) credit cost := by
  intro input before a after hinside hrun
  unfold Read.withLimit at hrun
  split at hrun
  next => cases hrun
  next inner henter =>
    obtain ⟨hlength, rfl⟩ := enter?_eq_some henter
    split at hrun
    next hbody =>
      cases hrun
      have hinner := inside_inner hinside hlength
      have hpaid := h _ _ _ _ hinner hbody
      -- the body may stop before the end of the payload, but not behind it
      obtain ⟨count, hcount, rfl⟩ := hread.reaches_of_ok hinner hbody
      simp only [Cursor.remaining, Cursor.forward] at hpaid hcount ⊢
      omega
    next => cases hrun

theorem Pays.deeper (h : Pays read credit cost) : Pays (deeper read) credit cost := by
  intro input before a after hinside hrun
  unfold Read.deeper at hrun
  split at hrun
  next hbody =>
    cases hrun
    have hinner : Cursor.Inside input { before with depth := before.depth + 1 } :=
      ⟨hinside.offset_le, hinside.limit_le⟩
    have hpaid := h _ _ _ _ hinner hbody
    exact hpaid
  next => cases hrun

/-- The byte count in front of a payload pays for one thing more. -/
theorem Pays.delimited (h : Pays read (credit + 1) cost) (hread : Disciplined read) :
    Pays (delimited read) credit cost :=
  (consumes_payloadLength.pays credit).bind uniform_payloadLength.disciplined fun length =>
    (h.withLimit hread length).deeper

/-! ## Loops -/

/-- A loop pays if each step pays for what it adds to the state. -/
theorem Pays.iterate {I : σ → Prop} {step : σ → Read (Option σ)} {advances : ∀ s, Advances (step s)}
    {cost : σ → Nat}
    (hstep : ∀ s, I s → Pays (step s) (cost s) fun answer => answer.elim (cost s) cost)
    (hkeeps : ∀ s, I s → Yields (step s) fun answer => ∀ next, answer = some next → I next)
    (hread : ∀ s, Disciplined (step s)) {s : σ} (hs : I s) :
    Pays (iterate step advances s) (cost s) cost := by
  intro input before a after hinside hrun
  induction hrun using iterate_ok_induction with
  | stop before hfound => exact hstep _ hs _ _ _ _ hinside hfound
  | next s before next middle hfound _ ih =>
      have hpaid := hstep s hs _ _ _ _ hinside hfound
      have hmiddle := ((hread s).reaches_of_ok hinside hfound).inside hinside
      have hpaid' := ih (hkeeps s hs _ _ _ _ hfound next rfl) hmiddle
      simp only [Option.elim_some] at hpaid
      omega

theorem Pays.run {element : σ → Read σ} {consumes : ∀ s, Consumes (element s)} {cost : σ → Nat}
    (helement : ∀ s, Pays (element s) (cost s) cost) (huniform : ∀ s, Uniform (element s)) (s : σ) :
    Pays (run element consumes s) (cost s) cost := by
  refine Pays.iterate (I := fun _ => True) (fun s _ => ?_)
    (fun s _ => (yields_trivial _).mono fun _ _ _ _ => trivial)
    (fun s => (huniform s).untilEnd.disciplined) trivial
  refine (uniform_atEnd.disciplined.pays (cost s)).bind uniform_atEnd.disciplined fun ended => ?_
  split
  · exact pays_pure (Nat.le_refl _)
  · exact (helement s).map fun _ => Nat.le_refl _

theorem Pays.expect (h : Pays read credit cost) (found : Key) (expected : UInt8) :
    Pays (do Read.expect found expected; read) credit cost :=
  have hexpect := (uniform_expect found expected).disciplined
  (hexpect.pays credit).bind hexpect fun _ => h

theorem Pays.packable {element : σ → Read σ} {consumes : ∀ s, Consumes (element s)}
    {cost : σ → Nat} (helement : ∀ s, Pays (element s) (cost s) cost)
    (huniform : ∀ s, Uniform (element s)) (found : Key) (natural : UInt8) (s : σ) :
    Pays (packable found natural element consumes s) (cost s) cost := by
  unfold Read.packable
  split
  · have hrun : Pays (Read.run element consumes s) (cost s) cost := Pays.run helement huniform s
    exact ((hrun.add 1).mono fun _ => Nat.le_succ _).delimited (uniform_run huniform s).disciplined
  · exact (helement s).expect found natural

/-! ## Scalars -/

theorem pays_take (count : Nat) : Pays (take count) credit fun bytes => bytes.size + credit := by
  intro input before bytes after _ hrun
  unfold take at hrun
  split at hrun
  · cases hrun
  · cases hrun
    have hsize : (input.extract before.offset (before.offset + count)).size ≤ count := by
      rw [Array.size_extract]
      omega
    simp only
    omega

theorem pays_lengthPrefixed : Pays lengthPrefixed 0 fun bytes => 1 + bytes.size :=
  (consumes_varint32.pays 0).bind uniform_varint32.disciplined fun length =>
    (pays_take length.toNat).mono fun bytes => by omega

theorem utf8ByteSize_of_toText? {bytes : Bytes} {text : String} (h : bytes.toText? = some text) :
    text.utf8ByteSize = bytes.size := by
  unfold Bytes.toText? String.fromUTF8? at h
  split at h
  · cases h
    rfl
  · cases h

/-- A scalar is paid for by its form, a text by its bytes. -/
theorem pays_scalar (type : ScalarType) :
    Pays (scalar type) 0 fun x => (Value.ofScalar type x).weight := by
  have hplain : (∀ x, (Value.ofScalar type x).textLength = 0) →
      Pays (scalar type) 0 fun x => (Value.ofScalar type x).weight := by
    intro hlength
    refine ((consumes_scalar type).pays 0).mono fun x => ?_
    rw [Value.weight_ofScalar, hlength x]
  cases type with
  | string =>
      refine pays_lengthPrefixed.bind uniform_lengthPrefixed.disciplined fun payload => ?_
      split
      next text htext =>
        refine pays_pure ?_
        rw [Value.weight_ofScalar, ← utf8ByteSize_of_toText? htext]
        exact Nat.le_refl _
      next => exact pays_throw _
  | bytes =>
      refine pays_lengthPrefixed.mono fun payload => ?_
      rw [Value.weight_ofScalar]
      exact Nat.le_refl _
  | _ => exact hplain fun _ => rfl

end WireCodec.Read
