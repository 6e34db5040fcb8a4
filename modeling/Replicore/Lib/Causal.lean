import Mathlib.Data.Set.Insert
import Mathlib.Order.Lattice
import Mathlib.Logic.Function.Basic

/-!
# Vectors and what they include

Events have an author and a vector of counters; the author's own counter of an event is its dot.
`Clock.Closed H nodes top V I` says that the vector `V` stands for the set of events `I`: every
event of `I` is below `V`, every event whose dot `V` has reached is in `I`, and `V` is nowhere
ahead of the authors' own counters `top`.

* `Closed.of_cover` : a vector put together from closed vectors is closed;
* `Closed.insert` : a new event, with a dot its author has not used, is in no old set;
* `Closed.bump` : the vector of the new event stands for the set its author had, and the event.
-/

/-- Events of type `E` by authors of type `N`, with their vectors. -/
structure Clock (E N : Type*) where
  author : E → N
  vec : E → N → ℕ

namespace Clock

variable {E N : Type*} (c : Clock E N)

/-- The author's own counter. -/
def dot (x : E) : ℕ := c.vec x (c.author x)

/-- Among the events of `H`, the vector `V` stands for the set `I`. -/
structure Closed (H : Set E) (nodes : Set N) (top V : N → ℕ) (I : Set E) : Prop where
  mem : I ⊆ H
  le : ∀ x ∈ I, c.vec x ≤ V
  closed : ∀ x ∈ H, c.dot x ≤ V (c.author x) → x ∈ I
  le_top : ∀ a ∈ nodes, V a ≤ top a

namespace Closed

variable {c} {H : Set E} {nodes : Set N} {top V W : N → ℕ} {I J : Set E}

/-- The empty vector stands for the empty set. -/
theorem zero (hpos : ∀ x ∈ H, 0 < c.dot x) : c.Closed H nodes top (fun _ => 0) ∅ where
  mem := Set.empty_subset H
  le := by simp
  closed x hx hle := absurd hle (Nat.not_le.2 (hpos x hx))
  le_top _ _ := Nat.zero_le _

/-- A vector put together from closed vectors: each of them is below it, and each of its counters is
in one of them. -/
theorem of_cover {F : Set ((N → ℕ) × Set E)} (hpos : ∀ x ∈ H, 0 < c.dot x)
    (h : ∀ f ∈ F, c.Closed H nodes top f.1 f.2) (hle : ∀ f ∈ F, f.1 ≤ V)
    (hcov : ∀ a, 0 < V a → ∃ f ∈ F, V a ≤ f.1 a) (hI : ∀ x, x ∈ I ↔ ∃ f ∈ F, x ∈ f.2) :
    c.Closed H nodes top V I where
  mem x hx := by
    obtain ⟨f, hf, hxf⟩ := (hI x).1 hx
    exact (h f hf).mem hxf
  le x hx := by
    obtain ⟨f, hf, hxf⟩ := (hI x).1 hx
    exact ((h f hf).le x hxf).trans (hle f hf)
  closed x hx hdot := by
    obtain ⟨f, hf, hVf⟩ := hcov _ ((hpos x hx).trans_le hdot)
    exact (hI x).2 ⟨f, hf, (h f hf).closed x hx (hdot.trans hVf)⟩
  le_top a ha := by
    rcases Nat.eq_zero_or_pos (V a) with hzero | hV
    · rw [hzero]
      exact Nat.zero_le _
    · obtain ⟨f, hf, hVf⟩ := hcov a hV
      exact hVf.trans ((h f hf).le_top a ha)

/-- Taking in a second vector. -/
theorem sup (hpos : ∀ x ∈ H, 0 < c.dot x) (h : c.Closed H nodes top V I)
    (h' : c.Closed H nodes top W J) : c.Closed H nodes top (V ⊔ W) (I ∪ J) := by
  refine of_cover (F := {(V, I), (W, J)}) hpos ?_ ?_ (fun a _ => ?_) fun x => by simp
  · rintro f (rfl | rfl)
    · exact h
    · exact h'
  · rintro f (rfl | rfl)
    · exact le_sup_left
    · exact le_sup_right
  · rcases le_total (V a) (W a) with hle | hle
    · exact ⟨(W, J), .inr rfl, sup_le hle le_rfl⟩
    · exact ⟨(V, I), .inl rfl, sup_le le_rfl hle⟩

/-- Counters of no author do not matter. -/
theorem congr_nodes (hH : ∀ x ∈ H, c.author x ∈ nodes) (h : c.Closed H nodes top V I) (hle : V ≤ W)
    (hW : ∀ a ∈ nodes, W a = V a) : c.Closed H nodes top W I where
  mem := h.mem
  le x hx := (h.le x hx).trans hle
  closed x hx hdot := h.closed x hx (hW _ (hH x hx) ▸ hdot)
  le_top a ha := hW a ha ▸ h.le_top a ha

variable [DecidableEq N] {e : E}

/-- A new event by an author in `nodes`, beyond all that is known of its author. -/
theorem insert (h : c.Closed H nodes top V I) (he : c.author e ∈ nodes)
    (hnew : top (c.author e) < c.dot e) :
    c.Closed (Insert.insert e H) nodes (Function.update top (c.author e) (c.dot e)) V I where
  mem := h.mem.trans (Set.subset_insert e H)
  le := h.le
  closed x hx hdot := by
    rcases hx with rfl | hx
    · exact absurd (hdot.trans (h.le_top _ he)) (Nat.not_le.2 hnew)
    · exact h.closed x hx hdot
  le_top a ha := by
    by_cases hae : a = c.author e
    · subst hae
      rw [Function.update_self]
      exact (h.le_top _ ha).trans hnew.le
    · rw [Function.update_of_ne hae]
      exact h.le_top a ha

/-- The vector of a new event.  It may be ahead of what its author had in the counters of others, as
long as that reaches none of their events, and no event to come. -/
theorem bump (h : c.Closed H nodes top V I) (hown : V (c.author e) = top (c.author e))
    (hdot : ∀ x ∈ H, c.dot x ≤ top (c.author x)) (hle : V ≤ c.vec e)
    (hothers : ∀ a ∈ nodes, a ≠ c.author e → c.vec e a ≤ top a)
    (hskip : ∀ x ∈ H, c.author x ≠ c.author e → c.dot x ≤ c.vec e (c.author x) →
      c.dot x ≤ V (c.author x)) :
    c.Closed (Insert.insert e H) nodes (Function.update top (c.author e) (c.dot e)) (c.vec e)
      (Insert.insert e I) where
  mem := Set.insert_subset_insert h.mem
  le x hx := by
    rcases hx with rfl | hx
    · exact le_rfl
    · exact (h.le x hx).trans hle
  closed x hx hxe := by
    rcases hx with rfl | hx
    · exact Set.mem_insert _ _
    · refine Set.mem_insert_of_mem _ (h.closed x hx ?_)
      by_cases hauth : c.author x = c.author e
      · -- the author's own earlier events are all in its set
        rw [hauth, hown, ← hauth]
        exact hdot x hx
      · exact hskip x hx hauth hxe
  le_top a ha := by
    by_cases hae : a = c.author e
    · subst hae
      rw [Function.update_self]
      exact le_rfl
    · rw [Function.update_of_ne hae]
      exact hothers a ha hae

end Closed

end Clock
