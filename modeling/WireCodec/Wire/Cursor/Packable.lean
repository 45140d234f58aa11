import WireCodec.Wire.Cursor.Progress

/-! # Packable fields

A repeated field of a packable type may come as single elements or as packed
runs, in any mixture; the wire type of each occurrence says which it is.
-/

namespace WireCodec.Read

variable {σ : Type}

/-- Reads elements until the limit. -/
def run (element : σ → Read σ) (consumes : ∀ s, Consumes (element s)) (s : σ) : Read σ :=
  iterate (fun s => do if ← atEnd then return none else some <$> element s)
    (fun s => advances_untilEnd (consumes s)) s

/-- Reads one occurrence of a packable field: a run of elements, or a single
element if the occurrence has the natural wire type of the elements. -/
def packable (found : Key) (natural : UInt8) (element : σ → Read σ)
    (consumes : ∀ s, Consumes (element s)) (s : σ) : Read σ :=
  if found.wireType = WireType.lengthDelimited.code ∧ natural ≠ WireType.lengthDelimited.code then
    delimited (run element consumes s)
  else do
    expect found natural
    element s

theorem steady_packable (found : Key) (natural : UInt8) (element : σ → Read σ)
    (consumes : ∀ s, Consumes (element s)) (s : σ) :
    Steady (packable found natural element consumes s) := by
  unfold packable
  split
  · exact (consumes_delimited _).steady
  · exact (steady_expect _ _).bind fun _ => (consumes s).steady

end WireCodec.Read
