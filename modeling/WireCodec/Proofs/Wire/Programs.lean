import Mathlib.Data.List.Permutation
import WireCodec.Proofs.Wire.Discipline
import WireCodec.Wire.ReadOp

/-! # Programs of reads

A program decides by what it has read, and by where the cursor stands, what it
reads next, and may go on after failures; payloads are read by programs of
their own, to any depth. Every cursor on the way is inside the byte string and
none is behind an earlier one, as one operation after the other keeps to its
discipline.
-/

namespace WireCodec

/-- All cursors are sound, and none is behind an earlier one. -/
structure Orderly (input : Bytes) (cursors : List Cursor) : Prop where
  sound : ∀ cursor ∈ cursors, cursor.Sound input
  ordered : cursors.Pairwise fun earlier later => earlier.offset ≤ later.offset

/-- Orderly cursors between two offsets. -/
structure Course (input : Bytes) (first last : Nat) (cursors : List Cursor) : Prop
    extends Orderly input cursors where
  first_le : ∀ cursor ∈ cursors, first ≤ cursor.offset
  le_last : ∀ cursor ∈ cursors, cursor.offset ≤ last
  le : first ≤ last

namespace Course

variable {input : Bytes} {first middle last : Nat} {cursor : Cursor} {before after : List Cursor}

theorem nil (h : first ≤ last) : Course input first last [] :=
  ⟨⟨nofun, .nil⟩, nofun, nofun, h⟩

theorem append (hbefore : Course input first middle before)
    (hafter : Course input middle last after) : Course input first last (before ++ after) where
  sound := List.forall_mem_append.mpr ⟨hbefore.sound, hafter.sound⟩
  ordered := by
    refine List.pairwise_append.mpr ⟨hbefore.ordered, hafter.ordered, ?_⟩
    intro earlier hearlier later hlater
    exact Nat.le_trans (hbefore.le_last _ hearlier) (hafter.first_le _ hlater)
  first_le := List.forall_mem_append.mpr
    ⟨hbefore.first_le, fun _ h => Nat.le_trans hbefore.le (hafter.first_le _ h)⟩
  le_last := List.forall_mem_append.mpr
    ⟨fun _ h => Nat.le_trans (hbefore.le_last _ h) hafter.le, hafter.le_last⟩
  le := Nat.le_trans hbefore.le hafter.le

theorem single (hsound : cursor.Sound input) (hfirst : first ≤ cursor.offset) :
    Course input first cursor.offset [cursor] :=
  ⟨⟨by simpa, List.pairwise_singleton _ _⟩, by simpa, by simp, hfirst⟩

theorem cons (hsound : cursor.Sound input) (hfirst : first ≤ cursor.offset)
    (hafter : Course input cursor.offset last after) : Course input first last (cursor :: after) :=
  (single hsound hfirst).append hafter

theorem within {low high : Nat} (h : Course input first last before) (hlow : low ≤ first)
    (hhigh : last ≤ high) : Course input low high before where
  toOrderly := h.toOrderly
  first_le cursor hmem := Nat.le_trans hlow (h.first_le cursor hmem)
  le_last cursor hmem := Nat.le_trans (h.le_last cursor hmem) hhigh
  le := Nat.le_trans (Nat.le_trans hlow h.le) hhigh

end Course

namespace Read

variable {α : Type} {input : Bytes} {cursor : Cursor} {body : Read α} {states : Cursor → List Cursor}

/-- The cursor after a read, as the last one on the way. -/
theorem Disciplined.course_ending (hbody : Disciplined body) (hsound : cursor.Sound input) :
    Course input (body.ending input cursor).2.offset (body.ending input cursor).2.offset
      [(body.ending input cursor).2] :=
  .single ((hbody input cursor hsound.toInside).sound hsound) (Nat.le_refl _)

/-- What is orderly inside a payload is orderly around it. -/
theorem Disciplined.course_withLimit (hbody : Disciplined body) (hsound : cursor.Sound input)
    (hstates : ∀ inner, inner.Sound input →
      Course input inner.offset (body.ending input inner).2.offset (states inner))
    (length : Nat) :
    Course input cursor.offset ((Read.withLimit length body).ending input cursor).2.offset
      (match enter? length cursor with
        | some inner => states inner
        | none => []) := by
  have hreach := hbody.withLimit length input cursor hsound.toInside
  cases henter : enter? length cursor with
  | none => exact .nil hreach.offset_le
  | some inner =>
      obtain ⟨hlength, rfl⟩ := enter?_eq_some henter
      have hinner := inside_inner hsound.toInside hlength
      obtain ⟨count, -, hending, hcount, -⟩ := hbody.ending_withLimit hsound.toInside hlength
      rw [hending]
      exact (hstates _ ⟨hinner, hsound.depth_le⟩).within (Nat.le_refl _) hcount

theorem depth_lt_of_payloadLength {length : Nat} {after : Cursor}
    (h : payloadLength input cursor = .ok length after) : cursor.depth < nestingLimit := by
  unfold payloadLength at h
  split at h
  next => cases h
  next hdepth => exact Nat.lt_of_not_le hdepth

/-- A payload that is entered lies one level deeper, and that is not too deep. -/
theorem Disciplined.course_delimited (hbody : Disciplined body) (hsound : cursor.Sound input)
    (hstates : ∀ inner, inner.Sound input →
      Course input inner.offset (body.ending input inner).2.offset (states inner)) :
    Course input cursor.offset ((Read.delimited body).ending input cursor).2.offset
      (match payloadLength input cursor with
        | .ok length after =>
          match enter? length { after with depth := after.depth + 1 } with
          | some inner => states inner
          | none => []
        | .error _ _ => []) := by
  have hreach := hbody.delimited input cursor hsound.toInside
  cases hpayload : payloadLength input cursor with
  | error e after => exact .nil hreach.offset_le
  | ok length after =>
      have hlength := uniform_payloadLength.disciplined input cursor hsound.toInside
      rw [ending_of_ok hpayload] at hlength
      -- at the deepest level the byte count is refused, so there is one more level here
      have hdeeper : Cursor.Sound input { after with depth := after.depth + 1 } := by
        have hafter := hlength.inside hsound.toInside
        have hdepth := depth_lt_of_payloadLength hpayload
        obtain ⟨count, -, rfl⟩ := hlength
        exact ⟨⟨hafter.offset_le, hafter.limit_le⟩, hdepth⟩
      have hending : ((Read.delimited body).ending input cursor).2.offset =
          ((Read.withLimit length body).ending input
            { after with depth := after.depth + 1 }).2.offset := by
        simp only [Read.delimited, ending_bind, ending_of_ok hpayload, ending_deeper]
      rw [hending]
      exact (hbody.course_withLimit hdeeper hstates length).within hlength.offset_le (Nat.le_refl _)

theorem uniform_primitive (type : Primitive) : Uniform (primitive type) := by
  cases type with
  | byte => exact uniform_byte
  | varint32 => exact uniform_varint32
  | varint64 => exact uniform_varint64
  | scalar type => exact uniform_scalar type

end Read

/-! ## Programs that go on by what they read -/

/-- A program of reads. What is done next may depend on the outcome of what was
done before, a failure too, and on the cursor. -/
inductive ReadProgram : Type → Type 1 where
  | finish {α : Type} (outcome : Except DecodeError α) : ReadProgram α
  | look : ReadProgram Cursor
  | value (type : Primitive) : ReadProgram type.Carrier
  | key : ReadProgram (Option Key)
  | skip (wireType : UInt8) : ReadProgram Unit
  | withLimit {α : Type} (length : Nat) (body : ReadProgram α) : ReadProgram α
  | delimited {α : Type} (body : ReadProgram α) : ReadProgram α
  | andThen {α β : Type} (first : ReadProgram α) (next : Except DecodeError α → ReadProgram β) :
      ReadProgram β

namespace ReadProgram

variable {α β σ : Type}

/-- The read that a program is. -/
def run {α : Type} : ReadProgram α → Read α
  | .finish outcome => MonadExcept.ofExcept outcome
  | .look => get
  | .value type => Read.primitive type
  | .key => Read.key
  | .skip wireType => Read.skip wireType
  | .withLimit length body => Read.withLimit length body.run
  | .delimited body => Read.delimited body.run
  | .andThen first next => Read.attempt first.run fun outcome => (next outcome).run

/-- The cursors met by a program: after each operation, and for a payload that
is entered, also those at its start and inside it. -/
def states {α : Type} : ReadProgram α → Bytes → Cursor → List Cursor
  | .withLimit length body, input, cursor =>
    (match Read.enter? length cursor with
      | some inner => inner :: body.states input inner
      | none => []) ++ [((Read.withLimit length body.run).ending input cursor).2]
  | .delimited body, input, cursor =>
    (match Read.payloadLength input cursor with
      | .ok length after =>
        match Read.enter? length { after with depth := after.depth + 1 } with
        | some inner => inner :: body.states input inner
        | none => []
      | .error _ _ => []) ++ [((Read.delimited body.run).ending input cursor).2]
  | .andThen first next, input, cursor =>
    first.states input cursor ++
      (next (first.run.ending input cursor).1).states input (first.run.ending input cursor).2
  | program, input, cursor => [(program.run.ending input cursor).2]

theorem uniform_finish (outcome : Except DecodeError α) :
    Read.Uniform (MonadExcept.ofExcept outcome : Read α) := by
  cases outcome with
  | ok a => exact Read.uniform_pure a
  | error e => exact Read.uniform_throw e

theorem disciplined_run (program : ReadProgram α) : program.run.Disciplined := by
  induction program with
  | finish outcome => exact (uniform_finish outcome).disciplined
  | look => exact fun _ cursor _ => .refl cursor
  | value type => exact (Read.uniform_primitive type).disciplined
  | key => exact Read.uniform_key.disciplined
  | skip wireType => exact (Read.uniform_skip wireType).disciplined
  | withLimit length body ih => exact ih.withLimit length
  | delimited body ih => exact ih.delimited
  | andThen first next hfirst hnext => exact hfirst.attempt hnext

/-- The cursors of a program are on the way from its start to its end. -/
theorem course_states (program : ReadProgram α) {input : Bytes} {cursor : Cursor}
    (hsound : cursor.Sound input) :
    Course input cursor.offset (program.run.ending input cursor).2.offset
      (program.states input cursor) := by
  -- the cursor is general, since a body starts from that of its payload
  induction program generalizing cursor with
  | finish | look | value | key | skip =>
      exact ((disciplined_run _).course_ending hsound).within
        (disciplined_run _ input cursor hsound.toInside).offset_le (Nat.le_refl _)
  | withLimit length body ih =>
      refine (body.disciplined_run.course_withLimit hsound ?_ length).append
        ((disciplined_run (.withLimit length body)).course_ending hsound)
      intro inner hinner
      exact .cons hinner (Nat.le_refl _) (ih hinner)
  | delimited body ih =>
      refine (body.disciplined_run.course_delimited hsound ?_).append
        ((disciplined_run (.delimited body)).course_ending hsound)
      intro inner hinner
      exact .cons hinner (Nat.le_refl _) (ih hinner)
  | andThen first next hfirst hnext =>
      have hmiddle := (first.disciplined_run input cursor hsound.toInside).sound hsound
      exact (hfirst hsound).append (hnext _ hmiddle)

/-- The last cursor that a program meets is the one it leaves behind. -/
theorem getLast?_states (program : ReadProgram α) (input : Bytes) (cursor : Cursor) :
    (program.states input cursor).getLast? = some (program.run.ending input cursor).2 := by
  induction program generalizing cursor with
  | finish | look | value | key | skip => rfl
  | withLimit length body => exact List.getLast?_concat
  | delimited body => exact List.getLast?_concat
  | andThen first next hfirst hnext =>
      rw [states, List.getLast?_append, hnext]
      rfl

end ReadProgram

/-! ## Packable fields -/

namespace Read

variable {α σ : Type} {input : Bytes} {cursor : Cursor}

theorem run_of_atEnd {element : σ → Read σ} {consumes : ∀ s, Consumes (element s)} (s : σ)
    (hend : cursor.atEnd = true) : run element consumes s input cursor = .ok s cursor := by
  have hread : atEnd input cursor = .ok true cursor := hend ▸ rfl
  refine iterate_of_none ?_
  rw [bind_of_ok hread]
  rfl

theorem run_of_not_atEnd {element : σ → Read σ} {consumes : ∀ s, Consumes (element s)} (s : σ)
    (hend : cursor.atEnd = false) :
    run element consumes s input cursor =
      (element s >>= run element consumes) input cursor := by
  have hread : atEnd input cursor = .ok false cursor := hend ▸ rfl
  cases hrun : element s input cursor with
  | error e after =>
      rw [bind_of_error hrun]
      refine iterate_of_error ?_
      rw [bind_of_ok hread]
      exact map_of_error hrun
  | ok next after =>
      rw [bind_of_ok hrun]
      refine iterate_of_some ?_
      rw [bind_of_ok hread]
      exact map_of_ok hrun

/-- Bodies that agree wherever as much is left at most make for the same payloads. -/
theorem delimited_congr {body other : Read α}
    (h : ∀ inner : Cursor, inner.remaining ≤ cursor.remaining →
      body input inner = other input inner) :
    delimited body input cursor = delimited other input cursor := by
  cases hpayload : payloadLength input cursor with
  | error e after => rw [delimited, delimited, bind_of_error hpayload, bind_of_error hpayload]
  | ok length after =>
      rw [delimited, delimited, bind_of_ok hpayload, bind_of_ok hpayload]
      obtain ⟨hlimit, hoffset⟩ := consumes_payloadLength.steady _ _ _ _ hpayload
      simp only [deeper, withLimit]
      cases henter : enter? length { after with depth := after.depth + 1 } with
      | none => rfl
      | some inner =>
          obtain ⟨hlength, hinner⟩ := enter?_eq_some henter
          have hsame : body input inner = other input inner := by
            refine h inner ?_
            simp only [hinner, Cursor.remaining] at hlength ⊢
            omega
          simp only [hsame]

end Read

namespace ReadProgram

variable {α β σ : Type}

/-- Goes on with the value of a program; a failure ends it. -/
def bind (first : ReadProgram α) (next : α → ReadProgram β) : ReadProgram β :=
  .andThen first fun
    | .ok a => next a
    | .error e => .finish (.error e)

theorem run_bind (first : ReadProgram α) (next : α → ReadProgram β) :
    (first.bind next).run = first.run >>= fun a => (next a).run := by
  funext input cursor
  simp only [bind, run, Read.attempt, Read.ending, Bind.bind, ReaderT.bind, EStateM.bind]
  cases first.run input cursor <;> rfl

/-- Reads elements until the limit, but no more than a number of them. -/
def untilEnd (element : σ → ReadProgram σ) : (rounds : Nat) → σ → ReadProgram σ
  | 0, s => .finish (.ok s)
  | rounds + 1, s =>
    bind .look fun here =>
      if here.atEnd then .finish (.ok s) else (element s).bind (untilEnd element rounds)

/-- Reads one occurrence of a packable field, each element by a program. -/
def packable (found : Key) (natural : UInt8) (element : σ → ReadProgram σ) (rounds : Nat) (s : σ) :
    ReadProgram σ :=
  if found.wireType = WireType.lengthDelimited.code ∧ natural ≠ WireType.lengthDelimited.code then
    .delimited (untilEnd element rounds s)
  else if found.wireType = natural then element s
  else .finish (.error (.unexpectedWireType found.number found.wireType))

variable {element : σ → ReadProgram σ} {rounds : Nat} {cursor : Cursor}

/-- With one round for each byte that is left the limit is reached. -/
theorem run_untilEnd (consumes : ∀ s, Read.Consumes (element s).run) (s : σ)
    (hrounds : cursor.remaining ≤ rounds) (input : Bytes) :
    (untilEnd element rounds s).run input cursor =
      Read.run (fun s => (element s).run) consumes s input cursor := by
  induction rounds generalizing s cursor with
  | zero =>
      have hend : cursor.atEnd = true := by
        simp only [Cursor.remaining] at hrounds
        simp only [Cursor.atEnd, decide_eq_true_eq]
        omega
      rw [Read.run_of_atEnd s hend]
      rfl
  | succ rounds ih =>
      have hlook : (run .look) input cursor = .ok cursor cursor := rfl
      rw [untilEnd, run_bind, Read.bind_of_ok hlook]
      cases hend : cursor.atEnd with
      | true =>
          rw [Read.run_of_atEnd s hend]
          rfl
      | false =>
          rw [Read.run_of_not_atEnd s hend, if_neg Bool.false_ne_true, run_bind]
          cases hrun : (element s).run input cursor with
          | error e after => rw [Read.bind_of_error hrun, Read.bind_of_error hrun]
          | ok next after =>
              rw [Read.bind_of_ok hrun, Read.bind_of_ok hrun]
              -- the element took a byte at least, and one round
              refine ih next ?_
              obtain ⟨hlimit, hoffset, hafter⟩ := consumes s _ _ _ _ hrun
              simp only [Cursor.remaining] at hrounds ⊢
              omega

theorem run_packable (consumes : ∀ s, Read.Consumes (element s).run) (found : Key)
    (natural : UInt8) (s : σ) (input : Bytes) (cursor : Cursor) :
    (packable found natural element cursor.remaining s).run input cursor =
      Read.packable found natural (fun s => (element s).run) consumes s input cursor := by
  unfold packable Read.packable
  split
  · refine Read.delimited_congr ?_
    intro inner hinner
    exact run_untilEnd consumes s hinner input
  · unfold Read.expect
    split
    · rfl
    · rfl

end ReadProgram

/-! ## Sessions of operations -/

namespace ReadOp

mutual

theorem uniform_perform (op : ReadOp) : op.perform.Uniform := by
  cases op with
  | value type => exact (Read.uniform_primitive type).map _
  | key => exact Read.uniform_key.map _
  | skip wireType => exact (Read.uniform_skip wireType).map _
  | expect found expected => exact (Read.uniform_expect found expected).map _
  | packable found natural element =>
      exact (Read.uniform_packable (fun _ => (Read.uniform_primitive element).map _) _ _ _).map _
  | messageField => exact Read.uniform_rest.delimited.map _
  | withLimit length body => exact ((uniform_performAll body).withLimit length).map _
  | delimited body => exact (uniform_performAll body).delimited.map _

theorem uniform_performAll (ops : List ReadOp) : (performAll ops).Uniform := by
  cases ops with
  | nil => exact Read.uniform_pure ()
  | cons op rest =>
      exact ((uniform_perform op).map _).bind fun _ => uniform_performAll rest

end

theorem step_outcome (op : ReadOp) (input : Bytes) (cursor : Cursor) :
    (op.step input cursor).outcome = (op.perform.ending input cursor).1 := by
  unfold step Read.ending
  cases op.perform input cursor <;> rfl

theorem step_cursor (op : ReadOp) (input : Bytes) (cursor : Cursor) :
    (op.step input cursor).cursor = (op.perform.ending input cursor).2 := by
  unfold step Read.ending
  cases op.perform input cursor <;> rfl

theorem reaches_step (op : ReadOp) {input : Bytes} {cursor : Cursor}
    (hinside : cursor.Inside input) : cursor.Reaches (op.step input cursor).cursor :=
  step_cursor op input cursor ▸ (uniform_perform op).disciplined input cursor hinside

theorem ending_performAll_cons (op : ReadOp) (rest : List ReadOp) (input : Bytes) (cursor : Cursor) :
    (performAll (op :: rest)).ending input cursor =
      match (op.step input cursor).outcome with
      | .ok _ => (performAll rest).ending input (op.step input cursor).cursor
      | .error e => (.error e, (op.step input cursor).cursor) := by
  have hdiscard : discard op.perform = (fun _ => ()) <$> op.perform := rfl
  rw [performAll, Read.ending_bind, hdiscard, Read.ending_map, step_outcome, step_cursor]
  cases (op.perform.ending input cursor).1 <;> rfl

mutual

theorem course_innerSteps (op : ReadOp) {input : Bytes} {cursor : Cursor}
    (hsound : cursor.Sound input) :
    Course input cursor.offset (op.step input cursor).cursor.offset
      ((op.innerSteps input cursor).map ReadStep.cursor) := by
  have hreach := reaches_step op hsound.toInside
  cases op with
  | value | key | skip | expect | packable | messageField =>
      rw [innerSteps]
      · exact .nil hreach.offset_le
      · exact nofun
      · exact nofun
  | withLimit length body =>
      have hbody := (uniform_performAll body).disciplined.course_withLimit hsound
        (fun inner hinner => course_stepsUntilError body hinner) length
      rw [step_cursor, perform, Read.ending_map, innerSteps]
      cases henter : Read.enter? length cursor with
      | none => simpa only [henter, List.map_nil] using hbody
      | some inner => simpa only [henter] using hbody
  | delimited body =>
      have hbody := (uniform_performAll body).disciplined.course_delimited hsound
        (fun inner hinner => course_stepsUntilError body hinner)
      rw [step_cursor, perform, Read.ending_map, innerSteps]
      cases hpayload : Read.payloadLength input cursor with
      | error e after => simpa only [hpayload, List.map_nil] using hbody
      | ok length after =>
          cases henter : Read.enter? length { after with depth := after.depth + 1 } with
          | none => simpa only [hpayload, henter, List.map_nil] using hbody
          | some inner => simpa only [hpayload, henter] using hbody

theorem course_stepsUntilError (ops : List ReadOp) {input : Bytes} {cursor : Cursor}
    (hsound : cursor.Sound input) :
    Course input cursor.offset ((performAll ops).ending input cursor).2.offset
      ((stepsUntilError ops input cursor).map ReadStep.cursor) := by
  cases ops with
  | nil => exact .nil (Nat.le_refl _)
  | cons op rest =>
      have hinner := course_innerSteps op hsound
      have hown := (reaches_step op hsound.toInside).sound hsound
      have hrest := course_stepsUntilError rest hown
      simp only [stepsUntilError, List.map_append, List.map_cons]
      refine hinner.append (.cons hown (Nat.le_refl _) ?_)
      rw [ending_performAll_cons]
      cases (op.step input cursor).outcome with
      | ok _ => exact hrest
      | error _ => exact .nil (Nat.le_refl _)

end

theorem exists_course_session (ops : List ReadOp) {input : Bytes} {cursor : Cursor}
    (hsound : cursor.Sound input) :
    ∃ last, Course input cursor.offset last ((session ops input cursor).map ReadStep.cursor) := by
  induction ops generalizing cursor with
  | nil => exact ⟨_, .nil (Nat.le_refl _)⟩
  | cons op rest ih =>
      have hown := (reaches_step op hsound.toInside).sound hsound
      obtain ⟨last, hrest⟩ := ih hown
      refine ⟨last, ?_⟩
      simp only [session, List.map_append, List.map_cons]
      exact (course_innerSteps op hsound).append (.cons hown (Nat.le_refl _) hrest)

end ReadOp

/-- Whatever is read, with programs in payloads to any depth and going on after
failures, every cursor on the way is inside the byte string, no deeper than
payloads may be nested, and not behind an earlier one. Every operation and
every program keeps limit and depth. A payload that is read leaves the cursor
at its end, one that fails somewhere in it, and one that is too long where it was. -/
theorem cursor_discipline (input : Bytes) :
    (∀ {α : Type} (program : ReadProgram α),
      Orderly input (program.states input (.start input)) ∧
      (program.states input (.start input)).getLast? =
        some (program.run.ending input (.start input)).2) ∧
    (∀ ops : List ReadOp,
      Orderly input ((ReadOp.session ops input (.start input)).map ReadStep.cursor)) ∧
    ∀ cursor : Cursor, cursor.Sound input →
      (∀ {α : Type} (program : ReadProgram α),
        cursor.Reaches (program.run.ending input cursor).2) ∧
      (∀ op : ReadOp, cursor.Reaches (op.perform.ending input cursor).2) ∧
      (∀ {σ : Type} (element : σ → ReadProgram σ) (consumes : ∀ s, Read.Consumes (element s).run)
          (found : Key) (natural : UInt8) (s : σ),
        (ReadProgram.packable found natural element cursor.remaining s).run input cursor =
          Read.packable found natural (fun s => (element s).run) consumes s input cursor) ∧
      ∀ {α : Type} (body : ReadProgram α) (length : Nat),
        if length ≤ cursor.remaining then
          let inside := body.run.ending input { cursor with limit := cursor.offset + length }
          ∃ count ≤ length,
            (Read.withLimit length body.run).ending input cursor =
              (inside.1, cursor.forward count) ∧
            ∀ a, inside.1 = .ok a → count = length
        else
          (Read.withLimit length body.run).ending input cursor =
            (.error .unexpectedEof, cursor) := by
  have hstart := Cursor.sound_start input
  refine ⟨fun program => ⟨(program.course_states hstart).toOrderly,
    program.getLast?_states input _⟩, ?_, ?_⟩
  · intro ops
    obtain ⟨last, hcourse⟩ := ReadOp.exists_course_session ops hstart
    exact hcourse.toOrderly
  intro cursor hsound
  have hinside := hsound.toInside
  refine ⟨fun program => program.disciplined_run input cursor hinside,
    fun op => (ReadOp.uniform_perform op).disciplined input cursor hinside,
    fun element consumes found natural s =>
      ReadProgram.run_packable consumes found natural s input cursor, ?_⟩
  intro α body length
  split
  next hlength =>
    obtain ⟨count, hcount, hending, -, hend⟩ :=
      body.disciplined_run.ending_withLimit hinside hlength
    exact ⟨count, hcount, hending, hend⟩
  next hlength => exact Read.ending_withLimit_of_lt (Nat.lt_of_not_le hlength) _ input

/-- Goes on inside a payload after one that lies too deep and one that is too
long, with one that breaks off. -/
def persistent : ReadProgram UInt64 :=
  .delimited (.andThen (.delimited (.value .byte)) fun _ =>
    .andThen (.withLimit 9 .key) fun _ => .withLimit 2 (.value .varint64))

theorem cursor_discipline_persistent :
    let input : Bytes := #[5, 255, 255, 1, 2, 3]
    let cursor : Cursor := ⟨0, 6, 99⟩
    Orderly input (persistent.states input (.start input)) ∧
      cursor.Reaches ⟨3, 6, 99⟩ ∧
      Read.packable ⟨1, 2⟩ 0 (fun _ => Read.varint32) (fun _ => Read.consumes_varint32) 0 input
        cursor = .ok 3 ⟨6, 6, 99⟩ ∧
      ∃ count ≤ 4, (Read.withLimit 4 persistent.run).ending input cursor =
        (.error .unexpectedEof, cursor.forward count) := by
  have hpacked : (ReadProgram.packable ⟨1, 2⟩ 0 (fun _ : UInt32 => .value .varint32) 6 0).run
      #[5, 255, 255, 1, 2, 3] ⟨0, 6, 99⟩ = .ok 3 ⟨6, 6, 99⟩ := by cbv
  intro input cursor
  obtain ⟨hprogram, -, hcursor⟩ := cursor_discipline input
  obtain ⟨hreach, -, hpackable, hpayload⟩ :=
    hcursor cursor ⟨⟨by decide, by decide⟩, by decide⟩
  have hending : persistent.run.ending input cursor = (.error .unexpectedEof, ⟨3, 6, 99⟩) := by
    cbv
  have hshort : (persistent.run.ending input { cursor with limit := cursor.offset + 4 }).1 =
      .error .unexpectedEof := by cbv
  refine ⟨(hprogram persistent).1, ?_, ?_, ?_⟩
  · have h := hreach persistent
    rwa [hending] at h
  · exact (hpackable (fun _ => .value .varint32) (fun _ => Read.consumes_varint32) _ _ 0).symm.trans
      hpacked
  · obtain ⟨count, hcount, h, -⟩ := hpayload persistent 4
    rw [hshort] at h
    exact ⟨count, hcount, h⟩

end WireCodec
