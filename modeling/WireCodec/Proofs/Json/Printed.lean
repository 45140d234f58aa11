import WireCodec.Proofs.Json.Numbers
import WireCodec.Proofs.Json.Strings

/-! # Printed values

The reader accepts the text of a value exactly if no more containers are open
in it at once than the reader allows, and then reads the value with every
double read again.
-/

namespace WireCodec

namespace JsonReader

variable {stack : List JsonFrame}

/-! ## Complete values -/

/-- A value has been read. A number may still go on. -/
inductive Holds (stack : List JsonFrame) : JsonReader → Json → Prop where
  | complete (value : Json) : Holds stack ⟨stack, .complete value⟩ value
  | number {reader : NumberReader} {n : JsonNumber} (h : reader.finish? = some n) :
      Holds stack ⟨stack, .number reader⟩ (.number n)

/-- The characters that may follow a value belong to no number. -/
def FollowsValue (c : Char) : Prop :=
  c = ' ' ∨ c = '\n' ∨ c = ',' ∨ c = ']' ∨ c = '}'

theorem Holds.step? {reader : JsonReader} {value : Json} (h : Holds stack reader value) {c : Char}
    (hc : FollowsValue c) : reader.step? c = afterValue? stack value c := by
  cases h with
  | complete => rfl
  | @number reader n hfinish =>
      have hnumber : reader.step? c = none := by
        rcases hc with rfl | rfl | rfl | rfl | rfl <;> rfl
      simp only [JsonReader.step?, hnumber, hfinish]
      rfl

theorem Holds.finish? {reader : JsonReader} {value : Json} (h : Holds [] reader value) :
    reader.finish? = some value := by
  cases h with
  | complete => rfl
  | number hfinish => simp [JsonReader.finish?, hfinish]

/-! ## Blanks -/

/-- Blanks leave a state that does not mind them as it is. -/
theorem foldlM_blank {reader : JsonReader} (hspace : reader.step? ' ' = some reader)
    (hline : reader.step? '\n' = some reader) (layout : JsonLayout) (depth : Nat) :
    (layout.lineBreak depth).foldlM JsonReader.step? reader = some reader := by
  have hspaces : ∀ count : Nat,
      (List.replicate count ' ').foldlM JsonReader.step? reader = some reader := by
    intro count
    induction count with
    | zero => rfl
    | succ count ih =>
        rw [List.replicate_succ, List.foldlM_cons, hspace]
        exact ih
  cases layout with
  | compact => rfl
  | pretty =>
      rw [JsonLayout.lineBreak, List.foldlM_cons, hline]
      exact hspaces _

theorem Holds.foldlM_lineBreak {reader : JsonReader} {value : Json}
    (h : Holds stack reader value) (layout : JsonLayout) (depth : Nat) :
    ∃ next, (layout.lineBreak depth).foldlM JsonReader.step? reader = some next ∧
      Holds stack next value := by
  cases layout with
  | compact => exact ⟨reader, rfl, h⟩
  | pretty =>
      have hblank := @foldlM_blank ⟨stack, .complete value⟩ rfl rfl .pretty depth
      refine ⟨⟨stack, .complete value⟩, ?_, .complete value⟩
      rw [JsonLayout.lineBreak, List.foldlM_cons] at hblank ⊢
      rw [h.step? (.inr (.inl rfl))]
      exact hblank

/-! ## Numbers and texts -/

theorem foldlM_number {cs : List Char} {reader next : NumberReader}
    (h : cs.foldlM NumberReader.step? reader = some next) :
    cs.foldlM JsonReader.step? ⟨stack, .number reader⟩ = some ⟨stack, .number next⟩ := by
  induction cs generalizing reader with
  | nil =>
      cases h
      rfl
  | cons c rest ih =>
      rw [List.foldlM_cons, Option.bind_eq_bind, Option.bind_eq_some_iff] at h
      obtain ⟨middle, hstep, hrest⟩ := h
      have hread : JsonReader.step? ⟨stack, .number reader⟩ c = some ⟨stack, .number middle⟩ := by
        simp only [JsonReader.step?, hstep]
      rw [List.foldlM_cons, hread]
      exact ih hrest

/-- A number is read in place of a value. -/
theorem foldlM_beginNumber {n : JsonNumber} {cs : List Char} (h : n.ReadFrom cs) (mayClose : Bool) :
    ∃ reader, cs.foldlM JsonReader.step? ⟨stack, .value mayClose⟩ = some reader ∧
      Holds stack reader (.number n) := by
  obtain ⟨negative, cs, reader, rfl, hfold, hfinish⟩ := h
  refine ⟨⟨stack, .number reader⟩, ?_, .number hfinish⟩
  cases negative with
  | true =>
      have hstep : JsonReader.step? ⟨stack, .value mayClose⟩ '-' =
          some ⟨stack, .number ⟨true, .start⟩⟩ := by cases mayClose <;> rfl
      rw [if_pos rfl, List.foldlM_cons, hstep]
      exact foldlM_number hfold
  | false =>
      cases cs with
      | nil =>
          cases hfold
          cases hfinish
      | cons c rest =>
          rw [List.foldlM_cons, Option.bind_eq_bind, Option.bind_eq_some_iff] at hfold
          obtain ⟨middle, hfirst, hrest⟩ := hfold
          have hstep : JsonReader.step? ⟨stack, .value mayClose⟩ c =
              some ⟨stack, .number middle⟩ := by
            have hdigit := NumberReader.isDigit_of_step?_start hfirst
            have hne : ∀ d : Char, d.isDigit = false → c ≠ d := by
              rintro d hd rfl
              rw [hd] at hdigit
              cases hdigit
            have hspace : isSpace c = false := by
              simp [isSpace, hne ' ' rfl, hne '\t' rfl, hne '\n' rfl, hne '\r' rfl]
            simp [JsonReader.step?, beginValue?, hspace, hfirst, hne ']' rfl, hne '"' rfl,
              hne '[' rfl, hne '{' rfl, hne 'n' rfl, hne 't' rfl, hne 'f' rfl, hne '-' rfl]
          rw [if_neg (by decide), List.foldlM_cons, hstep]
          exact foldlM_number hrest

/-- A quoted text is read in place of a value. -/
theorem foldlM_quoteChars (s : String) (mayClose : Bool) :
    (quoteChars s).foldlM JsonReader.step? ⟨stack, .value mayClose⟩ =
      some ⟨stack, .complete (.string s)⟩ := by
  have hopen : JsonReader.step? ⟨stack, .value mayClose⟩ '"' = some ⟨stack, .text .start⟩ := by
    cases mayClose <;> rfl
  have hquoted := @foldlM_quoted (fun reader => ⟨stack, .text reader⟩)
    (fun s => ⟨stack, .complete (.string s)⟩) (fun _ _ => rfl) s
  rw [quoteChars, List.cons_append, List.foldlM_cons, hopen]
  exact hquoted

/-- The name of a member is read up to the value. -/
theorem foldlM_name (layout : JsonLayout) (members : List (String × Json)) (name : String)
    (mayClose : Bool) (cs : List Char) :
    (quoteChars name ++ (layout.colon ++ cs)).foldlM JsonReader.step?
        ⟨stack, .name members mayClose⟩ =
      cs.foldlM JsonReader.step? ⟨.object members name :: stack, .value false⟩ := by
  have hopen : JsonReader.step? ⟨stack, .name members mayClose⟩ '"' =
      some ⟨stack, .nameText members .start⟩ := by cases mayClose <;> rfl
  have hquoted := @foldlM_quoted (fun reader => ⟨stack, .nameText members reader⟩)
    (fun name => ⟨stack, .colon members name⟩) (fun _ _ => rfl) name
  have hname : (quoteChars name).foldlM JsonReader.step? ⟨stack, .name members mayClose⟩ =
      some ⟨stack, .colon members name⟩ := by
    rw [quoteChars, List.cons_append, List.foldlM_cons, hopen]
    exact hquoted
  have hcolon : layout.colon.foldlM JsonReader.step? ⟨stack, .colon members name⟩ =
      some ⟨.object members name :: stack, .value false⟩ := by cases layout <;> rfl
  rw [List.foldlM_append, hname]
  change (layout.colon ++ cs).foldlM JsonReader.step? ⟨stack, .colon members name⟩ = _
  rw [List.foldlM_append, hcolon]
  rfl

/-! ## Brackets and commas -/

section Containers

variable {reader : JsonReader} {value : Json} {items : List Json} {members : List (String × Json)}
  {name : String} (layout : JsonLayout) (depth : Nat)

theorem foldlM_step {next : JsonReader} {c : Char} (h : reader.step? c = some next)
    (cs : List Char) :
    (c :: cs).foldlM JsonReader.step? reader = cs.foldlM JsonReader.step? next := by
  rw [List.foldlM_cons, h]
  rfl

theorem foldlM_skip (hspace : reader.step? ' ' = some reader)
    (hline : reader.step? '\n' = some reader) (cs : List Char) :
    (layout.lineBreak depth ++ cs).foldlM JsonReader.step? reader =
      cs.foldlM JsonReader.step? reader := by
  rw [List.foldlM_append, foldlM_blank hspace hline]
  rfl

/-- The innermost container is an array that has been opened. -/
theorem foldlM_openArray (hopen : stack.length < jsonNestingLimit) (mayClose : Bool)
    (cs : List Char) :
    ('[' :: (layout.lineBreak depth ++ cs)).foldlM JsonReader.step? ⟨stack, .value mayClose⟩ =
      cs.foldlM JsonReader.step? ⟨.array [] :: stack, .value true⟩ := by
  have hstep : JsonReader.step? ⟨stack, .value mayClose⟩ '[' =
      some ⟨.array [] :: stack, .value true⟩ := by
    cases mayClose <;> exact if_pos hopen
  rw [foldlM_step hstep, foldlM_skip layout depth rfl rfl]

theorem foldlM_openObject (hopen : stack.length < jsonNestingLimit) (mayClose : Bool)
    (cs : List Char) :
    ('{' :: (layout.lineBreak depth ++ (quoteChars name ++ (layout.colon ++ cs)))).foldlM
        JsonReader.step? ⟨stack, .value mayClose⟩ =
      cs.foldlM JsonReader.step? ⟨.object [] name :: stack, .value false⟩ := by
  have hstep : JsonReader.step? ⟨stack, .value mayClose⟩ '{' = some ⟨stack, .name [] true⟩ := by
    cases mayClose <;> exact if_pos hopen
  rw [foldlM_step hstep, foldlM_skip layout depth rfl rfl, foldlM_name]

/-- No container is opened inside as many as may be open. -/
theorem step?_full (hfull : ¬stack.length < jsonNestingLimit) (mayClose : Bool) {c : Char}
    (hc : c = '[' ∨ c = '{') : JsonReader.step? ⟨stack, .value mayClose⟩ c = none := by
  rcases hc with rfl | rfl <;> cases mayClose <;> exact if_neg hfull

theorem Holds.foldlM_item (h : Holds (.array items :: stack) reader value) (cs : List Char) :
    (',' :: (layout.lineBreak depth ++ cs)).foldlM JsonReader.step? reader =
      cs.foldlM JsonReader.step? ⟨.array (value :: items) :: stack, .value false⟩ := by
  rw [foldlM_step (h.step? (by simp [FollowsValue])), foldlM_skip layout depth rfl rfl]

theorem Holds.foldlM_member (h : Holds (.object members name :: stack) reader value)
    (next : String) (cs : List Char) :
    (',' :: (layout.lineBreak depth ++ (quoteChars next ++ (layout.colon ++ cs)))).foldlM
        JsonReader.step? reader =
      cs.foldlM JsonReader.step?
        ⟨.object (Sorted.insert name value members) next :: stack, .value false⟩ := by
  rw [foldlM_step (h.step? (by simp [FollowsValue])), foldlM_skip layout depth rfl rfl,
    foldlM_name]

theorem Holds.foldlM_closeArray (h : Holds (.array items :: stack) reader value) :
    (layout.lineBreak depth ++ [']']).foldlM JsonReader.step? reader =
      some ⟨stack, .complete (.array (value :: items).reverse)⟩ := by
  obtain ⟨next, hblank, hnext⟩ := h.foldlM_lineBreak layout depth
  rw [List.foldlM_append, hblank]
  exact foldlM_step (hnext.step? (by simp [FollowsValue])) []

theorem Holds.foldlM_closeObject (h : Holds (.object members name :: stack) reader value) :
    (layout.lineBreak depth ++ ['}']).foldlM JsonReader.step? reader =
      some ⟨stack, .complete (.object (Sorted.insert name value members))⟩ := by
  obtain ⟨next, hblank, hnext⟩ := h.foldlM_lineBreak layout depth
  rw [List.foldlM_append, hblank]
  exact foldlM_step (hnext.step? (by simp [FollowsValue])) []

end Containers

/-! ## Values -/

/-- A value has been read, unless too many containers were open. -/
def ReadsTo (stack : List JsonFrame) (nesting : Nat) (value : Json)
    (result : Option JsonReader) : Prop :=
  if stack.length + nesting ≤ jsonNestingLimit then
    ∃ reader, result = some reader ∧ Holds stack reader value
  else result = none

theorem readsTo_leaf (hopen : stack.length ≤ jsonNestingLimit) {value : Json}
    {result : Option JsonReader} (h : ∃ reader, result = some reader ∧ Holds stack reader value) :
    ReadsTo stack 0 value result := by
  rw [ReadsTo, Nat.add_zero, if_pos hopen]
  exact h

/-- What follows a value is read if the value is. -/
theorem ReadsTo.foldlM_append {start final : JsonReader} {nesting rest : Nat} {value : Json}
    {cs more : List Char} (h : ReadsTo stack nesting value (cs.foldlM JsonReader.step? start))
    (hrest : ∀ reader, Holds stack reader value → more.foldlM JsonReader.step? reader =
      if stack.length + rest ≤ jsonNestingLimit then some final else none) :
    (cs ++ more).foldlM JsonReader.step? start =
      if stack.length + max nesting rest ≤ jsonNestingLimit then some final else none := by
  rw [List.foldlM_append]
  unfold ReadsTo at h
  by_cases hvalue : stack.length + nesting ≤ jsonNestingLimit
  · rw [if_pos hvalue] at h
    obtain ⟨reader, hread, hholds⟩ := h
    rw [hread]
    refine (hrest reader hholds).trans ?_
    congr 1
    exact propext ⟨fun _ => by omega, fun _ => by omega⟩
  · rw [if_neg hvalue] at h
    rw [h, if_neg (by omega)]
    rfl

/-- A container is read if there is room for it and for what is in it. -/
theorem readsTo_container {start : JsonReader} {nesting : Nat} {value : Json} {cs : List Char}
    (hfull : ¬stack.length < jsonNestingLimit → cs.foldlM JsonReader.step? start = none)
    (h : stack.length < jsonNestingLimit → cs.foldlM JsonReader.step? start =
      if stack.length + 1 + nesting ≤ jsonNestingLimit then some ⟨stack, .complete value⟩
      else none) :
    ReadsTo stack (nesting + 1) value (cs.foldlM JsonReader.step? start) := by
  unfold ReadsTo
  by_cases hopen : stack.length < jsonNestingLimit
  · rw [h hopen]
    by_cases hinner : stack.length + 1 + nesting ≤ jsonNestingLimit
    · rw [if_pos hinner, if_pos (by omega)]
      exact ⟨_, rfl, .complete value⟩
    · rw [if_neg hinner, if_neg (by omega)]
  · rw [if_neg (by omega)]
    exact hfull hopen

open Json (mapItems mapMembers itemsNesting membersNesting)

mutual

/-- The text of a value is read as that value. -/
theorem readsTo_chars {json : Json} (h : json.Printable) (layout : JsonLayout) (depth : Nat)
    {stack : List JsonFrame} (hopen : stack.length ≤ jsonNestingLimit) (mayClose : Bool) :
    ReadsTo stack json.nesting (json.mapDoubles Binary64.reread)
      ((json.chars layout depth).foldlM JsonReader.step? ⟨stack, .value mayClose⟩) := by
  match json, h with
  | .null, _ => exact readsTo_leaf hopen ⟨_, by cases mayClose <;> rfl, .complete _⟩
  | .bool true, _ => exact readsTo_leaf hopen ⟨_, by cases mayClose <;> rfl, .complete _⟩
  | .bool false, _ => exact readsTo_leaf hopen ⟨_, by cases mayClose <;> rfl, .complete _⟩
  | .number n, .number hn =>
      exact readsTo_leaf hopen (foldlM_beginNumber (JsonNumber.readFrom_text hn) mayClose)
  | .string s, _ =>
      exact readsTo_leaf hopen ⟨_, foldlM_quoteChars s mayClose, .complete _⟩
  | .array [], _ =>
      refine readsTo_container (fun hfull => ?_) fun hopen => ?_
      · rw [Json.chars, List.foldlM_cons, step?_full hfull mayClose (.inl rfl)]
        rfl
      · exact (foldlM_openArray .compact 0 hopen mayClose [']']).trans (if_pos hopen).symm
  | .array (item :: rest), .array hitems =>
      obtain ⟨hitem, hrest⟩ := List.forall_mem_cons.mp hitems
      simp only [Json.chars, List.append_assoc, List.cons_append]
      refine readsTo_container (fun hfull => ?_) fun hopen => ?_
      · rw [List.foldlM_cons, step?_full hfull mayClose (.inl rfl)]
        rfl
      · rw [foldlM_openArray layout (depth + 1) hopen mayClose]
        have hread := @readsTo_chars item hitem layout (depth + 1) (.array [] :: stack) hopen true
        exact hread.foldlM_append fun reader hreader =>
          foldlM_itemChars hrest layout (depth + 1) depth hopen hreader
  | .object [], _ =>
      refine readsTo_container (fun hfull => ?_) fun hopen => ?_
      · rw [Json.chars, List.foldlM_cons, step?_full hfull mayClose (.inr rfl)]
        rfl
      · have hstep : JsonReader.step? ⟨stack, .value mayClose⟩ '{' =
            some ⟨stack, .name [] true⟩ := by cases mayClose <;> exact if_pos hopen
        exact (foldlM_step hstep ['}']).trans (if_pos hopen).symm
  | .object ((name, value) :: rest), .object hincreasing hmembers =>
      obtain ⟨hvalue, hrest⟩ := List.forall_mem_cons.mp hmembers
      have hsorted := Sorted.ofList_of_increasing
        (Json.increasing_mapMembers hincreasing Binary64.reread)
      simp only [Json.chars, List.append_assoc, List.cons_append]
      refine readsTo_container (fun hfull => ?_) fun hopen => ?_
      · rw [List.foldlM_cons, step?_full hfull mayClose (.inr rfl)]
        rfl
      · rw [foldlM_openObject layout (depth + 1) hopen mayClose]
        have hread := @readsTo_chars value hvalue layout (depth + 1) (.object [] name :: stack)
          hopen false
        rw [Json.mapDoubles, ← hsorted]
        exact hread.foldlM_append fun reader hreader =>
          foldlM_memberChars hrest layout (depth + 1) depth hopen hreader

/-- The rest of an array is read. -/
theorem foldlM_itemChars {items : List Json} (h : ∀ item ∈ items, item.Printable)
    (layout : JsonLayout) (depth outerDepth : Nat) {outer : List JsonFrame}
    (hopen : outer.length < jsonNestingLimit) {reader : JsonReader} {read : List Json}
    {value : Json} (hreader : Holds (.array read :: outer) reader value) :
    (Json.itemChars layout depth items ++ (layout.lineBreak outerDepth ++ [']'])).foldlM
        JsonReader.step? reader =
      if outer.length + 1 + itemsNesting items ≤ jsonNestingLimit then
        some ⟨outer, .complete (.array ((value :: read).reverse ++
          mapItems Binary64.reread items))⟩
      else none := by
  match items, h with
  | [], _ =>
      rw [Json.itemChars, List.nil_append, hreader.foldlM_closeArray]
      rw [mapItems, List.append_nil]
      exact (if_pos hopen).symm
  | item :: rest, h =>
      obtain ⟨hitem, hrest⟩ := List.forall_mem_cons.mp h
      simp only [Json.itemChars, List.append_assoc, List.cons_append]
      rw [hreader.foldlM_item]
      have hread := @readsTo_chars item hitem layout depth (.array (value :: read) :: outer)
        hopen false
      have hitems : (value :: read).reverse ++ mapItems Binary64.reread (item :: rest) =
          (item.mapDoubles Binary64.reread :: value :: read).reverse ++
            mapItems Binary64.reread rest := by simp [mapItems]
      rw [hitems]
      exact hread.foldlM_append fun reader hreader =>
        foldlM_itemChars hrest layout depth outerDepth hopen hreader

/-- The rest of an object is read. -/
theorem foldlM_memberChars {members : List (String × Json)}
    (h : ∀ member ∈ members, member.2.Printable)
    (layout : JsonLayout) (depth outerDepth : Nat) {outer : List JsonFrame}
    (hopen : outer.length < jsonNestingLimit) {reader : JsonReader}
    {read : List (String × Json)} {name : String} {value : Json}
    (hreader : Holds (.object read name :: outer) reader value) :
    (Json.memberChars layout depth members ++ (layout.lineBreak outerDepth ++ ['}'])).foldlM
        JsonReader.step? reader =
      if outer.length + 1 + membersNesting members ≤ jsonNestingLimit then
        some ⟨outer, .complete (.object ((mapMembers Binary64.reread members).foldl
          (fun sorted pair => Sorted.insert pair.1 pair.2 sorted)
          (Sorted.insert name value read)))⟩
      else none := by
  match members, h with
  | [], _ =>
      rw [Json.memberChars, List.nil_append, hreader.foldlM_closeObject]
      exact (if_pos hopen).symm
  | (next, json) :: rest, h =>
      obtain ⟨hjson, hrest⟩ := List.forall_mem_cons.mp h
      simp only [Json.memberChars, List.append_assoc, List.cons_append]
      rw [hreader.foldlM_member]
      have hread := @readsTo_chars json hjson layout depth
        (.object (Sorted.insert name value read) next :: outer) hopen false
      exact hread.foldlM_append fun reader hreader =>
        foldlM_memberChars hrest layout depth outerDepth hopen hreader

end

end JsonReader

/-- The text of a value is read as that value, with every double read again,
unless too many containers are open in it. -/
theorem Json.parse?_print {json : Json} (h : json.Printable) (layout : JsonLayout) :
    parse? (json.print layout) =
      if json.nesting ≤ jsonNestingLimit then some (json.mapDoubles Binary64.reread) else none := by
  have hread := @JsonReader.readsTo_chars json h layout 0 [] (Nat.zero_le _) false
  unfold parse? print
  rw [String.toList_ofList]
  unfold JsonReader.ReadsTo at hread
  rw [List.length_nil, Nat.zero_add] at hread
  split at hread
  next hnesting =>
    obtain ⟨reader, hfold, hholds⟩ := hread
    rw [JsonReader.start, hfold, if_pos hnesting]
    exact hholds.finish?
  next hnesting =>
    rw [JsonReader.start, hread, if_neg hnesting]
    rfl

/-- What is relied on of texts holds of those that are printed and read here. -/
theorem JsonText.lawful_reread : JsonText.Lawful Binary64.reread where
  parse?_print h hnesting layout :=
    (Json.parse?_print h layout).trans (if_pos (Nat.le_of_lt_succ hnesting))
  parse?_deep h hnesting layout :=
    (Json.parse?_print h layout).trans (if_neg (Nat.not_le.mpr hnesting))
  near := Binary64.near_reread

end WireCodec
