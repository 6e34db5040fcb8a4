import Mathlib.Logic.Relation

/-!
# Transition systems and their runs

`Lts S L` is a transition relation with labels, and `Lts.Reach A s₀ s` says that `s` is reached from
`s₀`.  A property of every reachable state is proved from one step (`Lts.Reach.invariant`); a
property of every run whose steps all meet a side condition is a property of the restricted system
`A.restrict C`.  For a system whose labels compute their successor (`Lts.ofFun`), a concrete run is
given by its list of labels (`Lts.Reach.of_foldl`).
-/

/-- A labelled transition system. -/
structure Lts (S L : Type*) where
  /-- The transitions. -/
  step : S → L → S → Prop

namespace Lts

variable {S L : Type*}

/-- The states a system can reach from `s₀`. -/
inductive Reach (A : Lts S L) (s₀ : S) : S → Prop
  | init : Reach A s₀ s₀
  | next {s s' : S} {l : L} : Reach A s₀ s → A.step s l s' → Reach A s₀ s'

/-- The system whose steps also meet the condition `C` on the state before and the label. -/
def restrict (A : Lts S L) (C : S → L → Prop) : Lts S L where
  step s l s' := C s l ∧ A.step s l s'

/-- The system in which the label `l` performed in `s` leads to `f s l` and nowhere else, provided
it is allowed there. -/
def ofFun (ok : S → L → Prop) (f : S → L → S) : Lts S L where
  step s l s' := ok s l ∧ s' = f s l

/-- Every label of the list is allowed in the state where it is performed. -/
def AllOk (ok : S → L → Prop) (f : S → L → S) : S → List L → Prop
  | _, [] => True
  | s, l :: ls => ok s l ∧ AllOk ok f (f s l) ls

instance AllOk.decidable (ok : S → L → Prop) [∀ s l, Decidable (ok s l)] (f : S → L → S) :
    ∀ s ls, Decidable (AllOk ok f s ls)
  | _, [] => .isTrue trivial
  | s, l :: ls =>
    have := AllOk.decidable ok f (f s l) ls
    inferInstanceAs (Decidable (ok s l ∧ AllOk ok f (f s l) ls))

theorem AllOk.append {ok : S → L → Prop} {f : S → L → S} {s : S} {ls ls' : List L}
    (h : AllOk ok f s ls) (h' : AllOk ok f (ls.foldl f s) ls') : AllOk ok f s (ls ++ ls') := by
  induction ls generalizing s with
  | nil => exact h'
  | cons l ls ih => exact ⟨h.1, ih h.2 h'⟩

theorem AllOk.imp {ok ok' : S → L → Prop} {f : S → L → S} (h : ∀ s l, ok s l → ok' s l) {s : S}
    {ls : List L} (hok : AllOk ok f s ls) : AllOk ok' f s ls := by
  induction ls generalizing s with
  | nil => trivial
  | cons l ls ih => exact ⟨h s l hok.1, ih hok.2⟩

theorem AllOk.of_append {ok : S → L → Prop} {f : S → L → S} {s : S} {ls ls' : List L}
    (h : AllOk ok f s (ls ++ ls')) : AllOk ok f (ls.foldl f s) ls' := by
  induction ls generalizing s with
  | nil => exact h
  | cons l ls ih => exact ih h.2

theorem restrict_ofFun (C ok : S → L → Prop) (f : S → L → S) :
    (ofFun ok f).restrict C = ofFun (fun s l => C s l ∧ ok s l) f := by
  simp only [restrict, ofFun, and_assoc]

variable {A : Lts S L} {s₀ s s' : S}

namespace Reach

/-- What holds initially and is kept by every step from a reachable state holds in every reachable
state. -/
theorem invariant {I : S → Prop} (h : A.Reach s₀ s) (h₀ : I s₀)
    (hstep : ∀ s l s', A.Reach s₀ s → I s → A.step s l s' → I s') : I s := by
  induction h with
  | init => exact h₀
  | next hr hst ih => exact hstep _ _ _ hr ih hst

/-- A run of the restricted system is a run of the system. -/
theorem of_restrict {C : S → L → Prop} (h : (A.restrict C).Reach s₀ s) : A.Reach s₀ s := by
  induction h with
  | init => exact .init
  | next _ hst ih => exact ih.next hst.2

/-- Performing a list of labels, each allowed where it is performed, reaches the state they
compute. -/
theorem of_foldl {ok : S → L → Prop} {f : S → L → S} {ls : List L} {s : S}
    (h : (ofFun ok f).Reach s₀ s) (hok : AllOk ok f s ls) :
    (ofFun ok f).Reach s₀ (ls.foldl f s) := by
  induction ls generalizing s with
  | nil => exact h
  | cons l ls ih => exact ih (h.next (l := l) ⟨hok.1, rfl⟩) hok.2

end Reach

end Lts
