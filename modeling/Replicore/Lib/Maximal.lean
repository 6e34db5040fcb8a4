import Mathlib.Data.Set.Insert
import Mathlib.Data.Set.Image
import Mathlib.Order.Bounds.Basic

/-!
# The best of what is maximal below a bound

Events of a set `H` carry a vector in a preorder and a rank in a linear order.  `maximalBelow H vec
V` are the events at or below `V` that no other event at or below `V` is strictly above.
`isGreatest_of_kept` is how the best rank among them is found without looking at all of them: keep
some vectors that cover everything below `V`, each with the best rank below it; the best of these
is the answer as soon as it is the rank of some maximal event.
-/

variable {E P R : Type*} [Preorder P] [LinearOrder R] {H : Set E} {vec : E → P} {V W : P}

/-- The events at or below `V` with none strictly above them there. -/
def maximalBelow (H : Set E) (vec : E → P) (V : P) : Set E :=
  {x | x ∈ H ∧ vec x ≤ V ∧ ∀ y ∈ H, vec y ≤ V → ¬ vec x < vec y}

namespace maximalBelow

theorem congr (h : V ≤ W) (h' : W ≤ V) : maximalBelow H vec V = maximalBelow H vec W := by
  ext x
  have hiff : ∀ y, vec y ≤ V ↔ vec y ≤ W := fun y => ⟨fun hy => hy.trans h, fun hy => hy.trans h'⟩
  simp only [maximalBelow, hiff, Set.mem_ofPred_eq]

/-- An event that is not below `V` does not matter there. -/
theorem insert {e : E} (he : ¬ vec e ≤ V) :
    maximalBelow (Insert.insert e H) vec V = maximalBelow H vec V := by
  ext x
  constructor
  · rintro ⟨hx, hle, hmax⟩
    exact ⟨hx.resolve_left fun heq => he (heq ▸ hle), hle, fun y hy => hmax y (.inr hy)⟩
  · rintro ⟨hx, hle, hmax⟩
    refine ⟨.inr hx, hle, fun y hy hyV => ?_⟩
    exact hmax y (hy.resolve_left fun heq => he (heq ▸ hyV)) hyV

/-- Below the vector of an event, that event is the one that is maximal. -/
theorem self {e : E} (he : e ∈ H) (hanti : ∀ y ∈ H, vec y ≤ vec e → vec e ≤ vec y → y = e) :
    maximalBelow H vec (vec e) = {e} := by
  ext x
  constructor
  · rintro ⟨hx, hle, hmax⟩
    refine hanti x hx hle ?_
    by_contra hnot
    exact hmax e he le_rfl (lt_iff_le_not_ge.2 ⟨hle, hnot⟩)
  · rintro rfl
    exact ⟨he, le_rfl, fun y _ hy hlt => absurd hy (not_le_of_gt hlt)⟩

/-- What is maximal below `V` is so below any smaller bound that it meets. -/
theorem of_le {x : E} (hx : x ∈ maximalBelow H vec V) (hxW : vec x ≤ W) (hWV : W ≤ V) :
    x ∈ maximalBelow H vec W :=
  ⟨hx.1, hxW, fun y hy hyW => hx.2.2 y hy (hyW.trans hWV)⟩

/-- The best rank below `V`, from kept vectors `vecK` with their best ranks `rankK`. -/
theorem isGreatest_of_kept {K : Type*} (kept : Set K) (vecK : K → P) (rankK : K → R) {rank : E → R}
    {r : R} (hV : ∀ k ∈ kept, vecK k ≤ V)
    (hcover : ∀ x ∈ H, vec x ≤ V → ∃ k ∈ kept, vec x ≤ vecK k)
    (hbest : ∀ k ∈ kept, ∀ x ∈ maximalBelow H vec (vecK k), rank x ≤ rankK k)
    (hle : ∀ k ∈ kept, rankK k ≤ r) (hr : r ∈ rank '' maximalBelow H vec V) :
    IsGreatest (rank '' maximalBelow H vec V) r := by
  refine ⟨hr, ?_⟩
  rintro _ ⟨x, hx, rfl⟩
  obtain ⟨k, hk, hxk⟩ := hcover x hx.1 hx.2.1
  exact (hbest k hk x (of_le hx hxk (hV k hk))).trans (hle k hk)

/-- A kept vector that belongs to an event, and that no kept vector is strictly above. -/
theorem mem_of_kept {K : Type*} (kept : Set K) (vecK : K → P) {e : E} (he : e ∈ H)
    (heV : vec e ≤ V) (hcover : ∀ x ∈ H, vec x ≤ V → ∃ k ∈ kept, vec x ≤ vecK k)
    (hmax : ∀ k ∈ kept, ¬ vec e < vecK k) : e ∈ maximalBelow H vec V := by
  refine ⟨he, heV, fun y hy hyV hlt => ?_⟩
  obtain ⟨k, hk, hyk⟩ := hcover y hy hyV
  exact hmax k hk (hlt.trans_le hyk)

end maximalBelow
