import Mathlib.Data.List.Forall2

/-! # Lists side by side, labelled parts and parts in a row

Two lists whose entries are related one by one, lists that are put together
from the labelled parts of other lists, and prefixes of lists in a row.
-/

namespace WireCodec

section Related

variable {α β γ δ : Type} {r s : α → β → Prop} {left left' : List α} {right right' : List β}

theorem forall₂_of_mem (h : List.Forall₂ r left right)
    (hmem : ∀ a ∈ left, ∀ b ∈ right, r a b → s a b) : List.Forall₂ s left right := by
  induction h with
  | nil => exact .nil
  | cons hfirst hrest ih =>
      refine .cons (hmem _ List.mem_cons_self _ List.mem_cons_self hfirst) (ih ?_)
      intro a ha b hb
      exact hmem a (List.mem_cons_of_mem _ ha) b (List.mem_cons_of_mem _ hb)

theorem forall₂_map_map {f : γ → α} {g : γ → β} (h : ∀ c, r (f c) (g c)) (items : List γ) :
    List.Forall₂ r (items.map f) (items.map g) := by
  rw [List.forall₂_map_left_iff, List.forall₂_map_right_iff]
  exact List.forall₂_same.mpr fun c _ => h c

theorem exists_mem_of_forall₂ (h : List.Forall₂ r left right) {b : β} (hb : b ∈ right) :
    ∃ a ∈ left, r a b := by
  induction h with
  | nil => cases hb
  | @cons a c left right hfirst hrest ih =>
      rcases List.mem_cons.mp hb with rfl | htail
      · exact ⟨a, List.mem_cons_self, hfirst⟩
      · obtain ⟨other, hother, hrelated⟩ := ih htail
        exact ⟨other, List.mem_cons_of_mem _ hother, hrelated⟩

theorem exists_forall₂_of_mem {p : β → Prop} (h : ∀ a ∈ left, ∃ b, r a b ∧ p b) :
    ∃ right, List.Forall₂ r left right ∧ ∀ b ∈ right, p b := by
  induction left with
  | nil => exact ⟨[], .nil, by simp⟩
  | cons a rest ih =>
      obtain ⟨hfirst, hrest⟩ := List.forall_mem_cons.mp h
      obtain ⟨b, hrelated, hb⟩ := hfirst
      obtain ⟨others, hothers, hall⟩ := ih hrest
      exact ⟨b :: others, .cons hrelated hothers, List.forall_mem_cons.mpr ⟨hb, hall⟩⟩

/-- Entries that have something in common are each related to it. -/
theorem exists_forall₂_of_forall₂ {p : α → γ → Prop} {q : β → γ → Prop}
    (h : List.Forall₂ (fun a b => ∃ c, p a c ∧ q b c) left right) :
    ∃ common, List.Forall₂ p left common ∧ List.Forall₂ q right common := by
  induction h with
  | nil => exact ⟨[], .nil, .nil⟩
  | cons hfirst _ ih =>
      obtain ⟨c, hp, hq⟩ := hfirst
      obtain ⟨common, hleft, hright⟩ := ih
      exact ⟨c :: common, .cons hp hleft, .cons hq hright⟩

/-- Where the images of related entries agree at the same time, so do those of
related lists. -/
theorem forall₂_map_eq_iff {f : α → γ} {g : β → δ} (h : List.Forall₂ r left right)
    (h' : List.Forall₂ r left' right')
    (hiff : ∀ a ∈ left, ∀ b ∈ right, ∀ a' ∈ left', ∀ b' ∈ right', r a b → r a' b' →
      (g b = g b' ↔ f a = f a')) :
    right.map g = right'.map g ↔ left.map f = left'.map f := by
  induction h generalizing left' right' with
  | nil => cases h' <;> simp
  | @cons a b left right hfirst hrest ih =>
      cases h' with
      | nil => simp
      | @cons a' b' left' right' hfirst' hrest' =>
          have hhead := hiff a List.mem_cons_self b List.mem_cons_self a' List.mem_cons_self b'
            List.mem_cons_self hfirst hfirst'
          have htail := ih hrest' fun a ha b hb a' ha' b' hb' =>
            hiff a (List.mem_cons_of_mem _ ha) b (List.mem_cons_of_mem _ hb) a'
              (List.mem_cons_of_mem _ ha') b' (List.mem_cons_of_mem _ hb')
          simp only [List.map_cons, List.cons.injEq, hhead, htail]

theorem flatMap_eq_of_forall₂ {f : α → List γ} {g : β → List γ} (h : List.Forall₂ r left right)
    (hparts : ∀ a ∈ left, ∀ b ∈ right, r a b → f a = g b) : left.flatMap f = right.flatMap g := by
  induction h with
  | nil => rfl
  | cons hfirst hrest ih =>
      rw [List.flatMap_cons, List.flatMap_cons,
        hparts _ List.mem_cons_self _ List.mem_cons_self hfirst]
      exact congrArg _ (ih fun a ha b hb =>
        hparts a (List.mem_cons_of_mem _ ha) b (List.mem_cons_of_mem _ hb))

/-- Every entry has a counterpart that is kept for it. -/
theorem filterMap_eq_map_of_forall₂ {f : α → Option γ} {g : β → γ} (h : List.Forall₂ r left right)
    (hparts : ∀ a b, r a b → f a = some (g b)) : left.filterMap f = right.map g := by
  induction h with
  | nil => rfl
  | cons hfirst _ ih => rw [List.filterMap_cons_some (hparts _ _ hfirst), ih, List.map_cons]

/-- Entries that stand for the image of what is kept for them. -/
theorem map_filterMap_of_forall₂ {f : α → Option γ} {g : γ → β}
    (h : List.Forall₂ (fun a b => ∃ c, f a = some c ∧ b = g c) left right) :
    right = (left.filterMap f).map g := by
  induction h with
  | nil => rfl
  | cons hfirst _ ih =>
      obtain ⟨c, hc, rfl⟩ := hfirst
      rw [List.filterMap_cons_some hc, List.map_cons, ← ih]

/-- Searching related lists by tests that agree finds related entries, or nothing in both. -/
theorem find?_of_forall₂ {p : α → Bool} {q : β → Bool} (h : List.Forall₂ r left right)
    (hpq : ∀ a b, r a b → p a = q b) :
    left.find? p = none ∧ right.find? q = none ∨
      ∃ a b, left.find? p = some a ∧ right.find? q = some b ∧ r a b := by
  induction h with
  | nil => exact Or.inl ⟨rfl, rfl⟩
  | @cons a b left right hab _ ih =>
      cases hq : q b with
      | true =>
          have hp : p a = true := (hpq a b hab).trans hq
          exact Or.inr ⟨a, b, List.find?_cons_of_pos hp, List.find?_cons_of_pos hq, hab⟩
      | false =>
          have hp : p a = false := (hpq a b hab).trans hq
          rwa [List.find?_cons_of_neg (by simp [hp]), List.find?_cons_of_neg (by simp [hq])]

end Related

/-- Parts in a row are those of the counterparts that are kept, if all are. -/
theorem flatMap_eq_flatMap_filterMap {α β γ : Type} {items : List α} {counterpart : α → Option β}
    {f : α → List γ} {g : β → List γ}
    (h : ∀ a ∈ items, ∃ b, counterpart a = some b ∧ f a = g b) :
    items.flatMap f = (items.filterMap counterpart).flatMap g := by
  induction items with
  | nil => rfl
  | cons a rest ih =>
      obtain ⟨⟨b, hb, hparts⟩, hrest⟩ := List.forall_mem_cons.mp h
      rw [List.flatMap_cons, List.filterMap_cons_some hb, List.flatMap_cons, hparts, ih hrest]

/-- What is kept of parts in a row is kept of the parts of the items that have any of it. -/
theorem filter_flatMap {α β : Type} {p : β → Bool} {q : α → Bool} {parts : α → List β}
    {items : List α} (h : ∀ a ∈ items, ∀ b ∈ parts a, p b = true → q a = true) :
    (items.flatMap parts).filter p = (items.filter q).flatMap fun a => (parts a).filter p := by
  induction items with
  | nil => rfl
  | cons a rest ih =>
      obtain ⟨hfirst, hrest⟩ := List.forall_mem_cons.mp h
      rw [List.flatMap_cons, List.filter_append, ih hrest]
      cases hq : q a with
      | true => rw [List.filter_cons_of_pos hq, List.flatMap_cons]
      | false =>
          rw [List.filter_cons_of_neg (by simp [hq]), List.filter_eq_nil_iff.mpr, List.nil_append]
          intro b hb hp
          rw [hfirst b hb hp] at hq
          cases hq

section Labels

variable {α β γ : Type} [DecidableEq γ] {label : α → γ} {labelOf : β → γ} {parts : α → List β}
  {items : List α}

/-- Of labelled parts in a row, those with a label that nothing has are none. -/
theorem filter_flatMap_eq_nil (hparts : ∀ a ∈ items, ∀ b ∈ parts a, labelOf b = label a)
    {target : γ} (htarget : ∀ a ∈ items, label a ≠ target) :
    (items.flatMap parts).filter (labelOf · = target) = [] := by
  refine List.filter_eq_nil_iff.mpr ?_
  intro b hb heq
  obtain ⟨a, ha, hb⟩ := List.mem_flatMap.mp hb
  exact htarget a ha ((hparts a ha b hb).symm.trans (of_decide_eq_true heq))

/-- Of labelled parts in a row, those with the label of an item are the parts
of that item, if no two items share a label. -/
theorem filter_flatMap_of_mem (hnodup : (items.map label).Nodup)
    (hparts : ∀ a ∈ items, ∀ b ∈ parts a, labelOf b = label a) {a : α} (ha : a ∈ items) :
    (items.flatMap parts).filter (labelOf · = label a) = parts a := by
  induction items with
  | nil => cases ha
  | cons first rest ih =>
      obtain ⟨hfirst, hrest⟩ := List.nodup_cons.mp hnodup
      have hpartsRest : ∀ a ∈ rest, ∀ b ∈ parts a, labelOf b = label a := fun a ha =>
        hparts a (List.mem_cons_of_mem _ ha)
      have hother : ∀ b ∈ rest, label b ≠ label first := fun b hb heq =>
        hfirst (heq ▸ List.mem_map_of_mem hb)
      rw [List.flatMap_cons, List.filter_append]
      rcases List.mem_cons.mp ha with rfl | htail
      · rw [filter_flatMap_eq_nil hpartsRest hother, List.append_nil]
        refine List.filter_eq_self.mpr ?_
        intro b hb
        exact decide_eq_true (hparts a List.mem_cons_self b hb)
      · rw [ih hrest hpartsRest htail, List.filter_eq_nil_iff.mpr ?_, List.nil_append]
        intro b hb heq
        exact hother a htail
          ((of_decide_eq_true heq).symm.trans (hparts first List.mem_cons_self b hb))

/-- Labelled parts in a row are the same when those of every item are. -/
theorem flatMap_eq_iff_of_labels {parts' : α → List β} (hnodup : (items.map label).Nodup)
    (hparts : ∀ a ∈ items, ∀ b ∈ parts a, labelOf b = label a)
    (hparts' : ∀ a ∈ items, ∀ b ∈ parts' a, labelOf b = label a) :
    items.flatMap parts = items.flatMap parts' ↔ ∀ a ∈ items, parts a = parts' a := by
  constructor
  · intro h a ha
    rw [← filter_flatMap_of_mem hnodup hparts ha, h, filter_flatMap_of_mem hnodup hparts' ha]
  · exact List.flatMap_congr

end Labels

/-- What lists in a row begin with ends between two of them or within one. -/
theorem prefix_flatten {α : Type} {part : List α} {lists : List (List α)}
    (h : part <+: lists.flatten) :
    (∃ count, part = (lists.take count).flatten) ∨
      ∃ count cut more, part = (lists.take count).flatten ++ cut ∧ cut ++ more ∈ lists ∧
        cut ≠ [] ∧ more ≠ [] := by
  induction lists generalizing part with
  | nil => exact .inl ⟨0, List.prefix_nil.mp h⟩
  | cons first rest ih =>
      rw [List.flatten_cons] at h
      rcases Nat.le_total part.length first.length with hshort | hlong
      · obtain ⟨more, rfl⟩ := List.prefix_of_prefix_length_le h (List.prefix_append _ _) hshort
        by_cases hpart : part = []
        · exact .inl ⟨0, hpart⟩
        · by_cases hmore : more = []
          · exact .inl ⟨1, by simp [hmore]⟩
          · exact .inr ⟨0, part, more, rfl, List.mem_cons_self, hpart, hmore⟩
      · obtain ⟨later, rfl⟩ := List.prefix_of_prefix_length_le (List.prefix_append _ _) h hlong
        rcases ih ((List.prefix_append_right_inj first).mp h) with ⟨count, rfl⟩ |
          ⟨count, cut, more, rfl, hmem, hcut⟩
        · exact .inl ⟨count + 1, rfl⟩
        · refine .inr ⟨count + 1, cut, more, ?_, List.mem_cons_of_mem _ hmem, hcut⟩
          rw [List.take_succ_cons, List.flatten_cons, List.append_assoc]

theorem eq_of_perm_of_length_le_one {α : Type} {items others : List α} (h : items.Perm others)
    (hlength : others.length ≤ 1) : items = others := by
  match others with
  | [] => exact h.eq_nil
  | [_] => exact List.perm_singleton.mp h

end WireCodec
