import Mathlib.Data.List.Dedup
import WireCodec.Value.Sorted

/-! # Laws of sorted association lists

A list with increasing keys is determined by what is found under each key, and
inserting and erasing change what is found under one key only. Map keys and
strings are ordered lawfully, so all of this holds of messages and maps.
-/

namespace WireCodec

namespace Sorted

variable {κ α : Type}

section Lookup

variable [BEq κ] [LawfulBEq κ]

theorem mem_of_find? {key : κ} {value : α} {pairs : List (κ × α)}
    (h : find? key pairs = some value) : (key, value) ∈ pairs := by
  induction pairs with
  | nil => cases h
  | cons head rest ih =>
      obtain ⟨other, old⟩ := head
      unfold find? at h
      split at h
      next heq =>
        cases h
        obtain rfl := eq_of_beq heq
        exact List.mem_cons_self
      next => exact List.mem_cons_of_mem _ (ih h)

theorem find?_erase {key other : κ} {pairs : List (κ × α)} :
    find? other (erase key pairs) = if other == key then none else find? other pairs := by
  unfold erase
  induction pairs with
  | nil => simp [find?]
  | cons head rest ih =>
      obtain ⟨first, value⟩ := head
      by_cases hfirst : first = key
      · subst hfirst
        rw [List.filter_cons_of_neg (by simp), ih]
        by_cases hother : other = first
        · simp [hother]
        · simp [hother, find?]
      · rw [List.filter_cons_of_pos (by simpa using hfirst)]
        by_cases hother : other = first
        · subst hother
          simp [find?, hfirst]
        · simp [find?, hother, ih]

end Lookup

variable [Ord κ]

/-- Inserting goes along with a renaming of the keys that keeps their order. -/
theorem insert_map {κ' β : Type} [Ord κ'] {f : κ → κ'}
    (h : ∀ a b, compare (f a) (f b) = compare a b) (g : α → β) (key : κ) (value : α)
    (pairs : List (κ × α)) :
    insert (f key) (g value) (pairs.map fun pair => (f pair.1, g pair.2)) =
      (insert key value pairs).map fun pair => (f pair.1, g pair.2) := by
  induction pairs with
  | nil => rfl
  | cons head rest ih =>
      obtain ⟨other, old⟩ := head
      simp only [List.map_cons, insert, h]
      cases compare key other with
      | lt | eq => rfl
      | gt => simp only [List.map_cons, ih]

/-- Keys stand in increasing order, and so none stands twice. -/
def Increasing (pairs : List (κ × α)) : Prop :=
  pairs.Pairwise fun before after => compare before.1 after.1 = .lt

theorem increasing_nil : Increasing ([] : List (κ × α)) := List.Pairwise.nil

theorem increasing_cons {pair : κ × α} {rest : List (κ × α)} :
    Increasing (pair :: rest) ↔
      (∀ after ∈ rest, compare pair.1 after.1 = .lt) ∧ Increasing rest :=
  List.pairwise_cons

theorem increasing_erase [BEq κ] {key : κ} {pairs : List (κ × α)} (h : Increasing pairs) :
    Increasing (erase key pairs) :=
  List.Pairwise.filter _ h

theorem mem_insert {key : κ} {value : α} {pairs : List (κ × α)} {pair : κ × α}
    (h : pair ∈ insert key value pairs) : pair = (key, value) ∨ pair ∈ pairs := by
  induction pairs with
  | nil => exact Or.inl (List.mem_singleton.mp h)
  | cons head rest ih =>
      obtain ⟨other, old⟩ := head
      unfold insert at h
      split at h
      · exact List.mem_cons.mp h
      · exact (List.mem_cons.mp h).imp_right (List.mem_cons_of_mem _)
      · rcases List.mem_cons.mp h with rfl | htail
        · exact Or.inr List.mem_cons_self
        · exact (ih htail).imp_right (List.mem_cons_of_mem _)

variable [Std.TransOrd κ]

omit [Std.TransOrd κ] in
/-- No pair is made up when pairs are put in order. -/
theorem mem_of_mem_ofList {pairs : List (κ × α)} {pair : κ × α} (h : pair ∈ ofList pairs) :
    pair ∈ pairs := by
  have hfold : ∀ pairs sorted : List (κ × α),
      pair ∈ pairs.foldl (fun sorted pair => insert pair.1 pair.2 sorted) sorted →
        pair ∈ sorted ∨ pair ∈ pairs := by
    intro pairs
    induction pairs with
    | nil => exact fun _ h => Or.inl h
    | cons first rest ih =>
        intro sorted h
        rcases ih _ h with hsorted | hrest
        · rcases mem_insert hsorted with rfl | hold
          · exact Or.inr List.mem_cons_self
          · exact Or.inl hold
        · exact Or.inr (List.mem_cons_of_mem _ hrest)
  exact (hfold pairs [] h).resolve_left List.not_mem_nil

theorem ne_of_compare_eq_lt {a b : κ} (h : compare a b = .lt) : a ≠ b := by
  rintro rfl
  have hself : compare a a = .eq := Std.ReflCmp.compare_self
  rw [h] at hself
  cases hself

/-- A key beyond all others is inserted at the end. -/
theorem insert_of_forall_lt {key : κ} {value : α} {pairs : List (κ × α)}
    (h : ∀ pair ∈ pairs, compare pair.1 key = .lt) :
    insert key value pairs = pairs ++ [(key, value)] := by
  induction pairs with
  | nil => rfl
  | cons head rest ih =>
      obtain ⟨other, old⟩ := head
      have hgt : compare key other = .gt :=
        Std.OrientedCmp.gt_of_lt (h (other, old) List.mem_cons_self)
      unfold insert
      rw [hgt]
      exact congrArg _ (ih fun pair hpair => h pair (List.mem_cons_of_mem _ hpair))

theorem foldl_insert_append {before pairs : List (κ × α)} (h : Increasing (before ++ pairs)) :
    pairs.foldl (fun sorted pair => insert pair.1 pair.2 sorted) before = before ++ pairs := by
  induction pairs generalizing before with
  | nil => simp
  | cons pair rest ih =>
      have hlast : ∀ earlier ∈ before, compare earlier.1 pair.1 = .lt := fun earlier hearlier =>
        (List.pairwise_append.mp h).2.2 earlier hearlier pair List.mem_cons_self
      have hsplit : before ++ pair :: rest = (before ++ [pair]) ++ rest := by simp
      rw [hsplit] at h
      rw [List.foldl_cons, insert_of_forall_lt hlast, ih h, hsplit]

/-- Pairs given in increasing order are the association list of these pairs. -/
theorem ofList_of_increasing {pairs : List (κ × α)} (h : Increasing pairs) :
    ofList pairs = pairs := by
  have happend : Increasing ([] ++ pairs) := h
  exact foldl_insert_append happend

theorem nodup_keys {pairs : List (κ × α)} (h : Increasing pairs) : (pairs.map (·.1)).Nodup :=
  List.pairwise_map.mpr (List.Pairwise.imp (fun hlt => ne_of_compare_eq_lt hlt) h)

/-- Sorted lists of the same pairs are the same. -/
theorem eq_of_perm {left right : List (κ × α)} (hleft : Increasing left)
    (hright : Increasing right) (h : left.Perm right) : left = right := by
  refine h.eq_of_pairwise ?_ hleft hright
  intro before after _ _ hlt hgt
  rw [Std.OrientedCmp.gt_of_lt hlt] at hgt
  cases hgt

section Unique

variable [BEq κ] [LawfulBEq κ]

theorem find?_of_mem {key : κ} {value : α} {pairs : List (κ × α)}
    (h : Increasing pairs) (hmem : (key, value) ∈ pairs) : find? key pairs = some value := by
  induction pairs with
  | nil => cases hmem
  | cons head rest ih =>
      obtain ⟨first, old⟩ := head
      obtain ⟨hhead, hrest⟩ := increasing_cons.mp h
      rcases List.mem_cons.mp hmem with heq | htail
      · cases heq
        simp [find?]
      · have hne : key ≠ first := by
          rintro rfl
          exact ne_of_compare_eq_lt (hhead _ htail) rfl
        simp [find?, hne, ih hrest htail]

/-- Sorted lists in which the same is found under every key are the same. -/
theorem ext {left right : List (κ × α)} (hleft : Increasing left) (hright : Increasing right)
    (h : ∀ key, find? key left = find? key right) : left = right := by
  have hnodup : ∀ {pairs : List (κ × α)}, Increasing pairs → pairs.Nodup := fun hpairs =>
    List.Pairwise.of_map _ (fun _ _ hne heq => hne (congrArg _ heq)) (nodup_keys hpairs)
  have hperm : left.Perm right := by
    refine (List.perm_ext_iff_of_nodup (hnodup hleft) (hnodup hright)).mpr ?_
    rintro ⟨key, value⟩
    constructor
    · intro hmem
      exact mem_of_find? ((h key).symm.trans (find?_of_mem hleft hmem))
    · intro hmem
      exact mem_of_find? ((h key).trans (find?_of_mem hright hmem))
  exact eq_of_perm hleft hright hperm

end Unique

variable [Std.LawfulEqOrd κ]

theorem increasing_insert {key : κ} {value : α} {pairs : List (κ × α)} (h : Increasing pairs) :
    Increasing (insert key value pairs) := by
  induction pairs with
  | nil => exact increasing_cons.mpr ⟨by simp, increasing_nil⟩
  | cons head rest ih =>
      obtain ⟨other, old⟩ := head
      obtain ⟨hhead, hrest⟩ := increasing_cons.mp h
      unfold insert
      split
      next hlt =>
        refine increasing_cons.mpr ⟨?_, h⟩
        intro after hafter
        rcases List.mem_cons.mp hafter with rfl | htail
        · exact hlt
        · exact Std.TransCmp.lt_trans hlt (hhead after htail)
      next heq =>
        obtain rfl := Std.LawfulEqCmp.eq_of_compare heq
        exact increasing_cons.mpr ⟨hhead, hrest⟩
      next hgt =>
        refine increasing_cons.mpr ⟨?_, ih hrest⟩
        intro after hafter
        rcases mem_insert hafter with rfl | htail
        · exact Std.OrientedCmp.lt_of_gt hgt
        · exact hhead after htail

theorem find?_insert [BEq κ] [LawfulBEq κ] {key other : κ} {value : α} {pairs : List (κ × α)} :
    find? other (insert key value pairs) =
      if other == key then some value else find? other pairs := by
  induction pairs with
  | nil => simp [insert, find?]
  | cons head rest ih =>
      obtain ⟨first, old⟩ := head
      unfold insert
      split
      next => simp [find?]
      next heq =>
        obtain rfl := Std.LawfulEqCmp.eq_of_compare heq
        by_cases hother : other = key <;> simp [find?, hother]
      next hgt =>
        have hfirst : key ≠ first := (ne_of_compare_eq_lt (Std.OrientedCmp.lt_of_gt hgt)).symm
        by_cases hother : other = key
        · subst hother
          simp [find?, ih, hfirst]
        · simp [find?, ih, hother]

omit [Std.TransOrd κ] in
/-- A key that is not there yet is added to the others. -/
theorem insert_perm {key : κ} {value : α} {pairs : List (κ × α)}
    (h : ∀ pair ∈ pairs, pair.1 ≠ key) : (insert key value pairs).Perm ((key, value) :: pairs) := by
  induction pairs with
  | nil => exact .refl _
  | cons head rest ih =>
      obtain ⟨other, old⟩ := head
      obtain ⟨hother, hrest⟩ := List.forall_mem_cons.mp h
      unfold insert
      split
      next => exact .refl _
      next heq => exact absurd (Std.LawfulEqCmp.eq_of_compare heq).symm hother
      next => exact ((ih hrest).cons _).trans (.swap _ _ _)

omit [Std.TransOrd κ] in
/-- Pairs of different keys are only put in order. -/
theorem ofList_perm {pairs : List (κ × α)} (h : (pairs.map (·.1)).Nodup) :
    (ofList pairs).Perm pairs := by
  have hfold : ∀ (pairs before : List (κ × α)), ((before ++ pairs).map (·.1)).Nodup →
      (pairs.foldl (fun sorted pair => insert pair.1 pair.2 sorted) before).Perm
        (before ++ pairs) := by
    intro pairs
    induction pairs with
    | nil =>
        intro before _
        rw [List.append_nil]
        exact .refl _
    | cons pair rest ih =>
        intro before hnodup
        have hmiddle : (before ++ pair :: rest).Perm (pair :: before ++ rest) := List.perm_middle
        have hmoved := (hmiddle.map (·.1)).nodup_iff.mp hnodup
        have hnew : ∀ earlier ∈ before, earlier.1 ≠ pair.1 := by
          intro earlier hearlier heq
          refine (List.nodup_cons.mp hmoved).1 (List.mem_map.mpr ⟨earlier, ?_, heq⟩)
          exact List.mem_append_left _ hearlier
        have hinsert : (insert pair.1 pair.2 before).Perm (pair :: before) := insert_perm hnew
        have hboth := hinsert.append_right rest
        exact (ih _ ((hboth.map (·.1)).nodup_iff.mpr hmoved)).trans (hboth.trans hmiddle.symm)
  exact hfold pairs [] h

theorem increasing_ofList (pairs : List (κ × α)) : Increasing (ofList pairs) := by
  have hfold : ∀ (pairs before : List (κ × α)), Increasing before →
      Increasing (pairs.foldl (fun sorted pair => insert pair.1 pair.2 sorted) before) := by
    intro pairs
    induction pairs with
    | nil => exact fun _ h => h
    | cons pair rest ih => exact fun before h => ih _ (increasing_insert h)
  exact hfold pairs [] increasing_nil

omit [Std.TransOrd κ] in
theorem mem_keys_insert {key other : κ} {value : α} {pairs : List (κ × α)} :
    other ∈ (insert key value pairs).map (·.1) ↔ other = key ∨ other ∈ pairs.map (·.1) := by
  induction pairs with
  | nil => simp [insert]
  | cons head rest ih =>
      obtain ⟨first, old⟩ := head
      unfold insert
      split
      next => simp
      next heq =>
        obtain rfl := Std.LawfulEqCmp.eq_of_compare heq
        simp
      next =>
        simp only [List.map_cons, List.mem_cons, ih]
        tauto

/-- An association list has each key of the given pairs once. -/
theorem keys_ofList_perm [DecidableEq κ] (pairs : List (κ × α)) :
    ((ofList pairs).map (·.1)).Perm (pairs.map (·.1)).dedup := by
  have hfold : ∀ (pairs before : List (κ × α)) (key : κ),
      key ∈ (pairs.foldl (fun sorted pair => insert pair.1 pair.2 sorted) before).map (·.1) ↔
        key ∈ before.map (·.1) ∨ key ∈ pairs.map (·.1) := by
    intro pairs
    induction pairs with
    | nil => simp
    | cons pair rest ih =>
        intro before key
        rw [List.foldl_cons, ih, mem_keys_insert, List.map_cons, List.mem_cons]
        tauto
  have hnodup := nodup_keys (increasing_ofList pairs)
  refine (List.perm_ext_iff_of_nodup hnodup (List.nodup_dedup _)).mpr fun key => ?_
  rw [List.mem_dedup]
  exact (hfold pairs [] key).trans (by simp)

/-- Of several pairs of one key the last one counts. -/
theorem mem_ofList_of_last {before after : List (κ × α)} {key : κ} {value : α}
    (h : ∀ pair ∈ after, pair.1 ≠ key) : (key, value) ∈ ofList (before ++ (key, value) :: after) := by
  classical
  have hfold : ∀ sorted : List (κ × α), find? key (after.foldl
      (fun sorted pair => insert pair.1 pair.2 sorted) sorted) = find? key sorted := by
    induction after with
    | nil => exact fun _ => rfl
    | cons pair rest ih =>
        intro sorted
        obtain ⟨hpair, hrest⟩ := List.forall_mem_cons.mp h
        rw [List.foldl_cons, ih hrest, find?_insert, if_neg (by simpa using hpair.symm)]
  refine mem_of_find? ?_
  rw [ofList, List.foldl_append, List.foldl_cons, hfold, find?_insert, if_pos (beq_self_eq_true key)]

/-- The pairs of an association list may be given in any order. -/
theorem ofList_of_perm {pairs sorted : List (κ × α)}
    (hsorted : Increasing sorted) (h : pairs.Perm sorted) : ofList pairs = sorted := by
  have hnodup : (pairs.map (·.1)).Nodup := (h.map (·.1)).nodup_iff.mpr (nodup_keys hsorted)
  exact eq_of_perm (increasing_ofList pairs) hsorted ((ofList_perm hnodup).trans h)

end Sorted

namespace MapKey

instance : Std.TransOrd MapKey :=
  inferInstanceAs (Std.TransCmp (compareLex (compareOn kindIndex)
    (compareLex (compareOn numericPart) (compareOn textPart))))

theorem compare_eq_parts (a b : MapKey) :
    compare a b = (compare a.kindIndex b.kindIndex).then
      ((compare a.numericPart b.numericPart).then (compare a.textPart b.textPart)) :=
  rfl

theorem eq_of_parts {a b : MapKey} (hkind : a.kindIndex = b.kindIndex)
    (hnumber : a.numericPart = b.numericPart) (htext : a.textPart = b.textPart) : a = b := by
  cases a <;> cases b <;> simp_all [kindIndex, numericPart, textPart]
  next x y => cases x <;> cases y <;> simp_all
  next x y => exact Int32.toInt_inj.mp hnumber
  next x y => exact Int64.toInt_inj.mp hnumber
  next x y => exact UInt32.toNat_inj.mp (by omega)
  next x y => exact UInt64.toNat_inj.mp (by omega)

instance : Std.LawfulEqOrd MapKey where
  eq_of_compare := by
    intro a b h
    rw [compare_eq_parts, Ordering.then_eq_eq, Ordering.then_eq_eq] at h
    exact eq_of_parts (Std.LawfulEqCmp.eq_of_compare h.1)
      (Std.LawfulEqCmp.eq_of_compare h.2.1) (Std.LawfulEqCmp.eq_of_compare h.2.2)

/-! Keys of one kind are in the order of what they are made of. -/

theorem compare_bool (a b : Bool) : compare (bool a) (bool b) = compare a b := by
  cases a <;> cases b <;> rfl

theorem compare_int64 (a b : Int64) : compare (int64 a) (int64 b) = compare a b := by
  have h : compare a.toInt b.toInt = compare a b := by
    simp only [compare, compareOfLessAndEq, Int64.lt_iff_toInt_lt, Int64.toInt_inj]
  simp [compare_eq_parts, kindIndex, numericPart, textPart, h]

theorem compare_string (s t : String) : compare (string s) (string t) = compare s t := by
  simp [compare_eq_parts, kindIndex, numericPart, textPart]

end MapKey

end WireCodec
