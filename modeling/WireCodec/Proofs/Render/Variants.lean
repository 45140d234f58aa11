import Mathlib.Data.List.Dedup
import WireCodec.Proofs.Render.Identifiers
import WireCodec.Proofs.Value.Sorted
import WireCodec.Render.Enum

/-! # Variants of generated enums

A generated enum has one variant for each number of the enum. Two of them get
one name exactly if the symbols that stand for their numbers are spelled alike.
-/

namespace WireCodec.EnumTable

variable {table : EnumTable}

/-- The symbols that stand for two numbers differ in what identifiers drop at most. -/
def SpelledAlike (table : EnumTable) : Prop :=
  ∃ number other symbol alike, number ≠ other ∧ table.symbol? number = some symbol ∧
    table.symbol? other = some alike ∧ symbolLetters symbol = symbolLetters alike

theorem canonical_eq_foldr (table : EnumTable) : table.canonical =
    table.values.foldr (fun value sorted => Sorted.insert value.2.toInt value.1 sorted) [] := by
  rw [canonical, List.foldl_reverse]

theorem increasing_canonical (table : EnumTable) : Sorted.Increasing table.canonical := by
  rw [canonical_eq_foldr]
  induction table.values with
  | nil => exact Sorted.increasing_nil
  | cons value rest ih => exact Sorted.increasing_insert ih

theorem find?_canonical (table : EnumTable) (number : Int32) :
    Sorted.find? number.toInt table.canonical = table.symbol? number := by
  rw [canonical_eq_foldr, symbol?]
  induction table.values with
  | nil => rfl
  | cons value rest ih =>
      rw [List.foldr_cons, Sorted.find?_insert, ih, List.find?_cons]
      by_cases h : value.2 = number
      · simp [h]
      · simp [beq_eq_false_iff_ne.mpr h, Int32.toInt_inj, Ne.symm h]

theorem exists_number_of_mem_canonical {number : Int} {symbol : String}
    (h : (number, symbol) ∈ table.canonical) : ∃ value ∈ table.values, number = value.2.toInt := by
  rw [canonical_eq_foldr] at h
  revert h
  induction table.values with
  | nil => exact fun h => absurd h List.not_mem_nil
  | cons value rest ih =>
      intro h
      rcases Sorted.mem_insert h with heq | hrest
      · cases heq
        exact ⟨value, List.mem_cons_self, rfl⟩
      · obtain ⟨other, hother, heq⟩ := ih hrest
        exact ⟨other, List.mem_cons_of_mem _ hother, heq⟩

/-- The symbol of each number is the one that stands for it. -/
theorem mem_canonical {number : Int} {symbol : String} : (number, symbol) ∈ table.canonical ↔
    ∃ n : Int32, number = n.toInt ∧ table.symbol? n = some symbol := by
  constructor
  · intro h
    obtain ⟨value, -, rfl⟩ := exists_number_of_mem_canonical h
    exact ⟨value.2, rfl, table.find?_canonical value.2 ▸
      Sorted.find?_of_mem table.increasing_canonical h⟩
  · rintro ⟨n, rfl, hsymbol⟩
    exact Sorted.mem_of_find? ((table.find?_canonical n).trans hsymbol)

/-- There is one variant for each number. -/
theorem length_variants (table : EnumTable) :
    table.variants.length = (table.values.map (·.2)).dedup.length := by
  have hnodup : ((table.values.map (·.2)).dedup.map Int32.toInt).Nodup :=
    (List.nodup_dedup _).map fun _ _ h => Int32.toInt_inj.mp h
  have hperm : (table.canonical.map (·.1)).Perm
      ((table.values.map (·.2)).dedup.map Int32.toInt) := by
    refine (List.perm_ext_iff_of_nodup (Sorted.nodup_keys table.increasing_canonical) hnodup).mpr ?_
    intro number
    simp only [List.mem_map, List.mem_dedup, Prod.exists, exists_and_right, exists_eq_right]
    constructor
    · rintro ⟨symbol, hmem⟩
      obtain ⟨⟨name, n⟩, hvalue, rfl⟩ := exists_number_of_mem_canonical hmem
      exact ⟨n, ⟨name, hvalue⟩, rfl⟩
    · rintro ⟨n, ⟨name, hvalue⟩, rfl⟩
      have hsome : (table.symbol? n).isSome := by
        rw [symbol?, Option.isSome_map, List.find?_isSome]
        exact ⟨(name, n), hvalue, by simp⟩
      obtain ⟨symbol, hsymbol⟩ := Option.isSome_iff_exists.mp hsome
      exact ⟨symbol, mem_canonical.mpr ⟨n, rfl, hsymbol⟩⟩
  simpa [variants] using hperm.length_eq

theorem isWord_of_mem_canonical (hwords : ∀ value ∈ table.values, IsWord value.1)
    {pair : Int × String} (h : pair ∈ table.canonical) : IsWord pair.2 := by
  obtain ⟨n, -, hsymbol⟩ := mem_canonical.mp h
  obtain ⟨value, hfind, heq⟩ := Option.map_eq_some_iff.mp hsymbol
  exact heq ▸ hwords value (List.mem_of_find?_eq_some hfind)

/-- Variants are named apart exactly if no two symbols are spelled alike. -/
theorem nodup_variants_iff (hwords : ∀ value ∈ table.values, IsWord value.1) :
    (table.variants.map (·.2)).Nodup ↔ ¬table.SpelledAlike := by
  have hnodup : table.canonical.Nodup :=
    List.Nodup.of_map _ (Sorted.nodup_keys table.increasing_canonical)
  have hnames : table.variants.map (·.2) =
      table.canonical.map fun pair => variantIdentifier pair.2 := by
    rw [variants, List.map_map]
    rfl
  rw [hnames, List.nodup_map_iff_inj_on hnodup]
  constructor
  · rintro hinjective ⟨number, other, symbol, alike, hne, hsymbol, halike, hletters⟩
    have hleft : (number.toInt, symbol) ∈ table.canonical := mem_canonical.mpr ⟨_, rfl, hsymbol⟩
    have hright : (other.toInt, alike) ∈ table.canonical := mem_canonical.mpr ⟨_, rfl, halike⟩
    have hsame := hinjective _ hleft _ hright ((variantIdentifier_eq_iff
      (isWord_of_mem_canonical hwords hleft) (isWord_of_mem_canonical hwords hright)).mpr hletters)
    exact hne (Int32.toInt_inj.mp (Prod.mk.inj hsame).1)
  · rintro hapart ⟨number, symbol⟩ hleft ⟨other, alike⟩ hright h
    by_contra hne
    have hletters := (variantIdentifier_eq_iff (isWord_of_mem_canonical hwords hleft)
      (isWord_of_mem_canonical hwords hright)).mp h
    obtain ⟨n, rfl, hsymbol⟩ := mem_canonical.mp hleft
    obtain ⟨m, rfl, halike⟩ := mem_canonical.mp hright
    refine hapart ⟨n, m, symbol, alike, ?_, hsymbol, halike, hletters⟩
    rintro rfl
    rw [hsymbol, Option.some.injEq] at halike
    exact hne (by rw [halike])

end WireCodec.EnumTable
