import WireCodec.Proofs.Render.Variants
import WireCodec.Render.Source

/-! # Declarations in generated code

Generated code is read as the types that it declares. The code of an enum or a
message declares one type, named by the name in the schema, whose variants or
fields are named by the symbols or fields there.
-/

namespace WireCodec

/-! ## Declarations in code -/

/-- A type that code declares, with the names of its fields or variants. -/
structure Declaration where
  name : String
  members : List String
deriving DecidableEq, Repr

/-- Whether a character may stand in an identifier, which may begin with a mark. -/
def isIdentifierPart (c : Char) : Bool := isWordPart c || c == '#'

/-- The identifier that a text begins with. -/
def leadingIdentifier (text : List Char) : String := .ofList (text.takeWhile isIdentifierPart)

namespace Code

/-- The name of the type that a text declares, if it is the head of a declaration. -/
def declaredName? (text : String) : Option String :=
  (["pub enum ", "pub struct ", "struct "].findSome?
    (·.toList.isPrefixOf? text.toList)).map leadingIdentifier

/-- The name of the field or variant that stands on a line. -/
def member? : Code → Option String
  | line text => some (leadingIdentifier (("pub ".toList.isPrefixOf? text.toList).getD text.toList))
  | blank | block _ _ _ => none

/-- The type that a piece of code declares. -/
def declaration? : Code → Option Declaration
  | line text => (declaredName? text).map (⟨·, []⟩)
  | block opening body _ => (declaredName? opening).map (⟨·, body.filterMap member?⟩)
  | blank => none

end Code

/-- The types that the source text for a set of plans declares. -/
def PlanSet.declarations (set : PlanSet) (mode : DeriveMode) : List Declaration :=
  (set.code mode).filterMap Code.declaration?

/-- The type that stands for an enum. -/
def EnumTable.declaration (table : EnumTable) : Declaration :=
  ⟨typeIdentifier table.name, table.variants.map (·.2)⟩

/-- The type that stands for the message of a plan. -/
def MessagePlan.declaration (plan : MessagePlan) : Declaration :=
  ⟨typeIdentifier plan.name, plan.fields.map (identifier ·.name)⟩

/-! ## Reading identifiers -/

theorem leadingIdentifier_append {name : String} {rest : List Char}
    (hname : ∀ c ∈ name.toList, isIdentifierPart c = true)
    (hrest : ∀ c ∈ rest.head?, isIdentifierPart c = false) :
    leadingIdentifier (name.toList ++ rest) = name := by
  have hstop : rest.takeWhile isIdentifierPart = [] := by
    cases rest with
    | nil => rfl
    | cons c rest => simp [hrest c rfl]
  rw [leadingIdentifier, List.takeWhile_append_of_pos hname, hstop, List.append_nil,
    String.ofList_toList]

theorem isIdentifierPart_identifier {name : String} (h : IsWord name) :
    ∀ c ∈ (identifier name).toList, isIdentifierPart c = true := by
  have hname : ∀ c ∈ name.toList, isIdentifierPart c = true := fun c hc => by
    simp [isIdentifierPart, h c hc]
  rcases identifier_cases name with ⟨-, heq⟩ | ⟨-, heq⟩ | heq
  · rw [heq, String.toList_append]
    exact List.forall_mem_append.mpr ⟨hname, List.all_eq_true.mp (by decide)⟩
  · rw [heq, String.toList_append]
    exact List.forall_mem_append.mpr ⟨List.all_eq_true.mp (by decide), hname⟩
  · rw [heq]
    exact hname

namespace Code

/-- A text that begins in another way declares no type. -/
theorem declaredName?_eq_none {text : String} {c : Char} (hhead : text.toList.head? = some c)
    (hc : c ≠ 'p' ∧ c ≠ 's') : declaredName? text = none := by
  obtain ⟨rest, hrest⟩ := List.head?_eq_some_iff.mp hhead
  have hp : ∀ (letters : List Char), ('p' :: letters).isPrefixOf? text.toList = none := by
    intro letters
    simp [hrest, List.isPrefixOf?, hc.1.symm]
  have hs : ∀ (letters : List Char), ('s' :: letters).isPrefixOf? text.toList = none := by
    intro letters
    simp [hrest, List.isPrefixOf?, hc.2.symm]
  have hnone : ["pub enum ", "pub struct ", "struct "].findSome?
      (·.toList.isPrefixOf? text.toList) = none := by
    refine List.findSome?_eq_none_iff.mpr fun keyword hkeyword => ?_
    simp only [List.mem_cons, List.not_mem_nil, or_false] at hkeyword
    rcases hkeyword with rfl | rfl | rfl
    · exact hp _
    · exact hp _
    · exact hs _
  rw [declaredName?, hnone]
  rfl

/-- The head of a declaration tells the name of its type. -/
theorem declaredName?_eq_some (keyword : String) {name text : String} (rest : List Char)
    (hkeyword : keyword ∈ ["pub enum ", "pub struct ", "struct "])
    (hname : ∀ c ∈ name.toList, isIdentifierPart c = true)
    (htext : text.toList = keyword.toList ++ (name.toList ++ ' ' :: rest)) :
    declaredName? text = some name := by
  have hfound : ["pub enum ", "pub struct ", "struct "].findSome?
      (·.toList.isPrefixOf? text.toList) = some (name.toList ++ ' ' :: rest) := by
    rw [htext]
    simp only [List.mem_cons, List.not_mem_nil, or_false] at hkeyword
    rcases hkeyword with rfl | rfl | rfl <;> rfl
  rw [declaredName?, hfound, Option.map_some, leadingIdentifier_append hname]
  intro c hc
  cases hc
  decide

theorem leadingIdentifier_of_mark {name : String}
    (hname : ∀ c ∈ name.toList, isIdentifierPart c = true) (mark : Char) {rest : List Char}
    (hmark : isIdentifierPart mark = false) :
    leadingIdentifier (name.toList ++ mark :: rest) = name := by
  refine leadingIdentifier_append hname fun c hc => ?_
  cases hc
  exact hmark

theorem member?_variant {name : String} (hname : ∀ c ∈ name.toList, isIdentifierPart c = true) :
    member? (.line (name ++ ",")) = some name := by
  have htext : (name ++ ",").toList = name.toList ++ [','] := String.toList_append
  have hbare : "pub ".toList.isPrefixOf? (name ++ ",").toList = none := by
    by_contra hprefix
    obtain ⟨rest, hrest⟩ := Option.ne_none_iff_exists'.mp hprefix
    have hblank : ' ' ∈ (name ++ ",").toList := by
      rw [← List.append_eq_of_isPrefixOf?_eq_some hrest]
      simp
    rw [htext] at hblank
    rcases List.mem_append.mp hblank with hmem | hmark
    · exact absurd (hname ' ' hmem) (by decide)
    · exact absurd hmark (by decide)
  rw [member?, hbare, Option.getD_none, htext, leadingIdentifier_of_mark hname _ (by decide)]

theorem member?_field {name : String} (hname : ∀ c ∈ name.toList, isIdentifierPart c = true)
    (type : String) : member? (.line ("pub " ++ name ++ ": " ++ type ++ ",")) = some name := by
  have htext : ("pub " ++ name ++ ": " ++ type ++ ",").toList =
      "pub ".toList ++ (name.toList ++ ':' :: ' ' :: (type.toList ++ [','])) := by
    simp [String.toList_append]
  have hpublic : "pub ".toList.isPrefixOf? ("pub " ++ name ++ ": " ++ type ++ ",").toList =
      some (name.toList ++ ':' :: ' ' :: (type.toList ++ [','])) := by
    rw [htext]
    rfl
  rw [member?, hpublic, Option.getD_some, leadingIdentifier_of_mark hname _ (by decide)]

theorem member?_part (type : String) :
    member? (.line (keyField ++ ": " ++ type ++ ",")) = some keyField ∧
      member? (.line (valueField ++ ": " ++ type ++ ",")) = some valueField := by
  have hkey : ∀ c ∈ keyField.toList, isIdentifierPart c = true := List.all_eq_true.mp (by decide)
  have hvalue : ∀ c ∈ valueField.toList, isIdentifierPart c = true :=
    List.all_eq_true.mp (by decide)
  constructor <;> simp only [member?, String.toList_append, List.append_assoc]
  · exact congrArg some (leadingIdentifier_of_mark hkey ':' (by decide))
  · exact congrArg some (leadingIdentifier_of_mark hvalue ':' (by decide))

theorem filterMap_modeCode (mode : DeriveMode) : mode.code.filterMap declaration? = [] := by
  cases mode <;> rfl

end Code

/-! ## The declarations of enums and messages -/

theorem EnumTable.declarations_code {table : EnumTable} (hname : IsWord (flatName table.name))
    (hvariants : ∀ variant ∈ table.variants, ∀ c ∈ variant.2.toList, isIdentifierPart c = true)
    (mode : DeriveMode) : (table.code mode).filterMap Code.declaration? = [table.declaration] := by
  have hhead : Code.declaredName? ("pub enum " ++ typeIdentifier table.name ++ " ") =
      some (typeIdentifier table.name) :=
    Code.declaredName?_eq_some "pub enum " [] (by simp) (isIdentifierPart_identifier hname)
      (by simp [String.toList_append])
  have himpl : Code.declaredName? ("impl " ++ typeIdentifier table.name ++ " ") = none :=
    Code.declaredName?_eq_none (c := 'i') (by simp [String.toList_append]) (by decide)
  have hmembers : (table.variants.map fun variant => Code.line (variant.2 ++ ",")).filterMap
      Code.member? = table.variants.map (·.2) := by
    rw [List.filterMap_map]
    refine List.filterMap_eq_map_iff_forall_eq_some.mpr fun variant hvariant => ?_
    exact Code.member?_variant (hvariants variant hvariant)
  have hcode : table.code mode =
      .line "#[derive(Debug, Clone, Copy, PartialEq, Eq, Hash)]" :: mode.code ++
        [.block ("pub enum " ++ typeIdentifier table.name ++ " ")
          (table.variants.map fun variant => Code.line (variant.2 ++ ",")) ""] ++
        [.blank, .block ("impl " ++ typeIdentifier table.name ++ " ")
          [table.fromNumberCode, .blank, table.toNumberCode] ""] := rfl
  have hderive : Code.declaredName? "#[derive(Debug, Clone, Copy, PartialEq, Eq, Hash)]" = none :=
    rfl
  rw [hcode]
  simp [Code.filterMap_modeCode, Code.declaration?, hhead, himpl, hmembers, hderive,
    EnumTable.declaration]

namespace MessagePlan

variable {plan : MessagePlan} (hname : IsWord (flatName plan.name))
include hname

theorem declarations_code (hfields : ∀ field ∈ plan.fields, IsWord field.name) (set : PlanSet)
    (mode : DeriveMode) :
    (plan.code set mode).filterMap Code.declaration? = [plan.declaration] := by
  have hhead (rest : String) :
      Code.declaredName? ("pub struct " ++ typeIdentifier plan.name ++ " " ++ rest) =
        some (typeIdentifier plan.name) :=
    Code.declaredName?_eq_some "pub struct " rest.toList (by simp)
      (isIdentifierPart_identifier hname) (by simp [String.toList_append])
  have himpl : Code.declaredName?
      ("impl protowire::Message for " ++ typeIdentifier plan.name ++ " ") = none :=
    Code.declaredName?_eq_none (c := 'i') (by simp [String.toList_append]) (by decide)
  have hmembers : (plan.fields.map fun field => Code.line
      ("pub " ++ identifier field.name ++ ": " ++ field.typeText set ++ ",")).filterMap
        Code.member? = plan.fields.map (identifier ·.name) := by
    rw [List.filterMap_map]
    refine List.filterMap_eq_map_iff_forall_eq_some.mpr fun field hfield => ?_
    exact Code.member?_field (isIdentifierPart_identifier (hfields field hfield)) _
  have hderive : Code.declaredName? "#[derive(Debug, Clone, PartialEq, Default)]" = none := rfl
  have htype : (plan.typeCode set mode).filterMap Code.declaration? = [plan.declaration] := by
    unfold typeCode
    cases hplan : plan.fields with
    | nil =>
        have hempty := hhead "\x7b\x7d"
        simp [Code.filterMap_modeCode, Code.declaration?, toString, hempty, hderive, declaration,
          hplan]
    | cons first rest =>
        have hfull := hhead ""
        rw [String.append_empty] at hfull
        rw [hplan] at hmembers
        rw [List.map_cons, List.map_cons] at hmembers
        simp [Code.filterMap_modeCode, Code.declaration?, Code.braces, toString, hfull, hmembers,
          hderive, declaration, hplan]
  have hcode : plan.code set mode = plan.typeCode set mode ++
      [.blank, .block ("impl protowire::Message for " ++ typeIdentifier plan.name ++ " ")
        [plan.encodeCode, .blank, plan.decodeCode] ""] := rfl
  rw [hcode]
  simp [htype, Code.declaration?, himpl]

theorem declarations_entryCode (hfields : plan.fields.map (·.name) = [keyField, valueField]) :
    plan.entryCode.filterMap Code.declaration? = [plan.declaration] := by
  obtain ⟨key, rest, hplan, hkey, hrest⟩ := List.map_eq_cons_iff.mp hfields
  obtain ⟨value, rest, rfl, hvalue, hnil⟩ := List.map_eq_cons_iff.mp hrest
  obtain rfl := List.map_eq_nil_iff.mp hnil
  have hhead : Code.declaredName? ("struct " ++ typeIdentifier plan.name ++ " ") =
      some (typeIdentifier plan.name) :=
    Code.declaredName?_eq_some "struct " [] (by simp) (isIdentifierPart_identifier hname)
      (by simp [String.toList_append])
  have himpl : Code.declaredName? ("impl " ++ typeIdentifier plan.name ++ " ") = none :=
    Code.declaredName?_eq_none (c := 'i') (by simp [String.toList_append]) (by decide)
  have hmembers : plan.fields.map (identifier ·.name) = [keyField, valueField] := by
    simp only [hplan, List.map_cons, List.map_nil, hkey, hvalue]
    rfl
  have hcode : plan.entryCode =
      WireCodec.entryCode (typeIdentifier plan.name) ⟨keyField, key⟩ ⟨valueField, value⟩ := by
    rw [MessagePlan.entryCode, hplan]
  have hkeyLine := (Code.member?_part key.type.typeText).1
  have hvalueLine := (Code.member?_part value.type.typeText).2
  rw [hcode, declaration, hmembers]
  simp [WireCodec.entryCode, Code.braces, Code.declaration?, EntryPart.typeText, toString, hhead,
    himpl, hkeyLine, hvalueLine]

end MessagePlan

end WireCodec
