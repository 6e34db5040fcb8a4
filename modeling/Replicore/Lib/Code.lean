import Mathlib.Data.List.Basic

/-!
# Self-delimiting codes

A code is self-delimiting if no code word begins another one: reading from the left, the first code
word of a text is known.  The concatenation of code words, without separators, can then be taken
apart again (`SelfDelimiting.map_eq_of_flatMap_eq`), and so can a list of them with separators, if
the text behind it begins neither with a separator nor with a code word
(`SelfDelimiting.map_eq_of_intercalate_append`).
-/

variable {α β : Type*}

/-- Two texts that agree begin with the same code word. -/
def SelfDelimiting (c : α → List β) : Prop :=
  ∀ a b s t, c a ++ s = c b ++ t → c a = c b

variable {c : α → List β} {sep s t : List β} {xs ys : List α}

/-- **Unique decoding**: a concatenation of code words determines them, and what follows, if no code
word begins what follows. -/
theorem SelfDelimiting.map_eq_of_flatMap_append (h : SelfDelimiting c) (hs : ∀ a u, s ≠ c a ++ u)
    (ht : ∀ a u, t ≠ c a ++ u) (heq : xs.flatMap c ++ s = ys.flatMap c ++ t) :
    xs.map c = ys.map c ∧ s = t := by
  induction xs generalizing ys with
  | nil =>
    cases ys with
    | nil => exact ⟨rfl, heq⟩
    | cons y ys =>
      rw [List.flatMap_nil, List.nil_append, List.flatMap_cons, List.append_assoc] at heq
      exact absurd heq (hs y _)
  | cons x xs ih =>
    cases ys with
    | nil =>
      rw [List.flatMap_nil, List.nil_append, List.flatMap_cons, List.append_assoc] at heq
      exact absurd heq.symm (ht x _)
    | cons y ys =>
      rw [List.flatMap_cons, List.flatMap_cons, List.append_assoc, List.append_assoc] at heq
      have hxy : c x = c y := h x y _ _ heq
      rw [hxy, List.append_cancel_left_eq] at heq
      obtain ⟨hmap, hrest⟩ := ih heq
      rw [List.map_cons, List.map_cons, hxy, hmap]
      exact ⟨rfl, hrest⟩

/-- The same of a text that ends with the code words. -/
theorem SelfDelimiting.map_eq_of_flatMap_eq (h : SelfDelimiting c) (hne : ∀ a, c a ≠ [])
    (heq : xs.flatMap c = ys.flatMap c) : xs.map c = ys.map c := by
  have hnil : ∀ a u, [] ≠ c a ++ u := fun a u hau => hne a (List.append_eq_nil_iff.1 hau.symm).1
  exact (h.map_eq_of_flatMap_append hnil hnil (by rw [heq])).1

/-- A list with separators is its first item, and the others with a separator before each. -/
theorem intercalate_cons_eq (sep : List β) (l : List β) (ls : List (List β)) :
    sep.intercalate (l :: ls) = l ++ ls.flatMap (sep ++ ·) := by
  induction ls generalizing l with
  | nil => simp
  | cons l' ls ih =>
    rw [List.intercalate_cons_cons, ih, List.flatMap_cons, List.append_assoc, List.append_assoc]

/-- A list of code words with separators determines them, and what follows, if neither a separator
nor a code word begins what follows. -/
theorem SelfDelimiting.map_eq_of_intercalate_append (h : SelfDelimiting c)
    (hs : ∀ a u, s ≠ c a ++ u) (hs' : ∀ u, s ≠ sep ++ u) (ht : ∀ a u, t ≠ c a ++ u)
    (ht' : ∀ u, t ≠ sep ++ u)
    (heq : sep.intercalate (xs.map c) ++ s = sep.intercalate (ys.map c) ++ t) :
    xs.map c = ys.map c ∧ s = t := by
  have hcode : SelfDelimiting fun a => sep ++ c a := fun a b u v huv => by
    rw [List.append_assoc, List.append_assoc, List.append_cancel_left_eq] at huv
    exact congrArg (sep ++ ·) (h a b u v huv)
  cases xs with
  | nil =>
    cases ys with
    | nil => exact ⟨rfl, heq⟩
    | cons y ys =>
      rw [List.map_nil, List.intercalate_nil, List.nil_append, List.map_cons, intercalate_cons_eq,
        List.append_assoc] at heq
      exact absurd heq (hs y _)
  | cons x xs =>
    cases ys with
    | nil =>
      rw [List.map_nil, List.intercalate_nil, List.nil_append, List.map_cons, intercalate_cons_eq,
        List.append_assoc] at heq
      exact absurd heq.symm (ht x _)
    | cons y ys =>
      rw [List.map_cons, List.map_cons, intercalate_cons_eq, intercalate_cons_eq, List.append_assoc,
        List.append_assoc, List.flatMap_map, List.flatMap_map] at heq
      have hxy : c x = c y := h x y _ _ heq
      rw [hxy, List.append_cancel_left_eq] at heq
      obtain ⟨hmap, hrest⟩ := hcode.map_eq_of_flatMap_append
        (fun a u hau => hs' (c a ++ u) (by rw [hau, List.append_assoc]))
        (fun a u hau => ht' (c a ++ u) (by rw [hau, List.append_assoc])) heq
      have htail : xs.map c = ys.map c := by
        have hdrop := congrArg (List.map (List.drop sep.length)) hmap
        rwa [List.map_map, List.map_map, show (List.drop sep.length ∘ fun a => sep ++ c a) = c from
          funext fun a => List.drop_left] at hdrop
      rw [List.map_cons, List.map_cons, hxy, htail]
      exact ⟨rfl, hrest⟩
