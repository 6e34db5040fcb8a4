import Replicore.Lib.Bytes
import Replicore.Lib.Hoare

/-!
# Programs that take a buffer apart

Straight-line code and loops over a byte buffer, with the faults of a language that checks slices
and arithmetic: a slice that leaves its source, a difference below zero, a sum above the largest
machine word, and, for loops, rounds without end.  A `Prog` has a state of its own and the trace of
the parts of the buffer it has touched, checked (`slice`) or not (`load`).

Each operation is pure where it is defined (`subUsize_of_le`, `addUsize_of_lt`, ...), and a slice
or a load adds one span to the trace (`touch`).
-/

namespace Slices

open Bytes Hoare

/-- A part of a buffer. -/
structure Span where
  start : ℕ
  len : ℕ
  deriving DecidableEq, Repr

/-- Where a span ends. -/
def Span.stop (s : Span) : ℕ := s.start + s.len

/-- All of the span is in the other one. -/
def Span.Within (s t : Span) : Prop := t.start ≤ s.start ∧ s.stop ≤ t.stop

instance (s t : Span) : Decidable (s.Within t) := inferInstanceAs (Decidable (_ ∧ _))

/-- The bytes of a span. -/
def Span.bytes (buf : List Byte) (s : Span) : List Byte := (buf.drop s.start).take s.len

theorem Span.length_bytes_le (buf : List Byte) (s : Span) : (s.bytes buf).length ≤ s.len := by
  rw [bytes, List.length_take]
  exact Nat.min_le_left _ _

/-- What can go wrong. -/
inductive Fault
  | underflow
  | overflow
  | bounds
  /-- A loop has not ended within its rounds. -/
  | exhausted
  deriving DecidableEq, Repr

/-- A state and the parts of the buffer touched so far. -/
structure Traced (ω : Type) where
  world : ω
  touched : List Span

/-- A program over a buffer. -/
abbrev Prog (ω α : Type) := EStateM Fault (Traced ω) α

variable {ω α β : Type}

/-! ### Machine words -/

/-- `a - b` of type `usize`. -/
def subUsize (a b : ℕ) : Prog ω ℕ := if b ≤ a then pure (a - b) else throw .underflow

/-- `a + b` of type `usize`. -/
def addUsize (a b : ℕ) : Prog ω ℕ := if a + b < 2 ^ 64 then pure (a + b) else throw .overflow

/-- `a - b` of type `isize`. -/
def subIsize (a b : ℤ) : Prog ω ℤ :=
  if -2 ^ 63 ≤ a - b then if a - b < 2 ^ 63 then pure (a - b) else throw .overflow
  else throw .underflow

/-- `a + b` of type `isize`. -/
def addIsize (a b : ℤ) : Prog ω ℤ :=
  if -2 ^ 63 ≤ a + b ∧ a + b < 2 ^ 63 then pure (a + b) else throw .overflow

theorem subUsize_of_le {a b : ℕ} (h : b ≤ a) : (subUsize a b : Prog ω ℕ) = pure (a - b) := if_pos h

theorem addUsize_of_lt {a b : ℕ} (h : a + b < 2 ^ 64) : (addUsize a b : Prog ω ℕ) = pure (a + b) :=
  if_pos h

theorem subIsize_of_fits {a b : ℤ} (h : -2 ^ 63 ≤ a - b) (h' : a - b < 2 ^ 63) :
    (subIsize a b : Prog ω ℤ) = pure (a - b) := by
  rw [subIsize, if_pos h, if_pos h']

theorem addIsize_of_fits {a b : ℤ} (h : -2 ^ 63 ≤ a + b) (h' : a + b < 2 ^ 63) :
    (addIsize a b : Prog ω ℤ) = pure (a + b) := if_pos ⟨h, h'⟩

/-! ### Looking into the buffer -/

/-- The program touches a part of the buffer. -/
def touch (s : Span) : Prog ω Unit := fun t => .ok () { t with touched := t.touched ++ [s] }

/-- `&s[lo..hi]`, checked against the length of `s`. -/
def slice (s : Span) (lo hi : ℕ) : Prog ω Span :=
  if lo ≤ hi ∧ hi ≤ s.len then do
    touch ⟨s.start + lo, hi - lo⟩
    pure ⟨s.start + lo, hi - lo⟩
  else throw .bounds

/-- The `size` bytes behind a pointer into the buffer.  Nothing is checked. -/
def load (buf : List Byte) (pos size : ℕ) : Prog ω (List Byte) := do
  touch ⟨pos, size⟩
  pure (Span.bytes buf ⟨pos, size⟩)

/-- The same behind a signed offset from the beginning of the buffer. -/
def loadAt (buf : List Byte) (off : ℤ) (size : ℕ) : Prog ω (List Byte) :=
  if 0 ≤ off then load buf off.toNat size else throw .bounds

/-- A step of the state, which touches nothing. -/
def perform (f : ω → α × ω) : Prog ω α := fun t =>
  .ok (f t.world).1 { t with world := (f t.world).2 }

/-! ### Rules -/

section

variable {P : Traced ω → Prop} {E : Fault → Traced ω → Prop}

/-- The program ends without a fault, and keeps an assertion. -/
def Total (P : Traced ω → Prop) (m : Prog ω α) (Q : α → Prop) : Prop :=
  Triple P m (fun a s => Q a ∧ P s) fun _ _ => False

/-- What a round of a loop comes to: it goes on with a smaller measure, or ends the loop. -/
def Round (μ : α → ℕ) (I : α → Prop) (R : β → Prop) (a : α) : α ⊕ β → Prop
  | .inl a' => μ a' < μ a ∧ I a'
  | .inr b => R b

namespace Total

variable {m : Prog ω α} {Q : α → Prop}

theorem pure {a : α} (h : Q a) : Total P (Pure.pure a : Prog ω α) Q := fun _ hs => ⟨h, hs⟩

theorem bind {R : β → Prop} {f : α → Prog ω β} (h : Total P m Q) (hf : ∀ a, Q a → Total P (f a) R) :
    Total P (m >>= f) R :=
  Triple.bind h fun a => Triple.of_pre (hf a)

theorem ite {c : Prop} [Decidable c] {m' : Prog ω α} (h : c → Total P m Q)
    (h' : ¬ c → Total P m' Q) : Total P (if c then m else m') Q := by
  by_cases hc : c
  · rw [if_pos hc]
    exact h hc
  · rw [if_neg hc]
    exact h' hc

theorem touch {s : Span} (h : ∀ t, P t → P { t with touched := t.touched ++ [s] }) :
    Total P (Slices.touch s) fun _ => True :=
  fun t ht => ⟨trivial, h t ht⟩

theorem slice {s : Span} {lo hi : ℕ} (hlo : lo ≤ hi) (hhi : hi ≤ s.len)
    (h : ∀ t, P t → P { t with touched := t.touched ++ [⟨s.start + lo, hi - lo⟩] }) :
    Total P (Slices.slice s lo hi) fun r => r = ⟨s.start + lo, hi - lo⟩ := by
  rw [Slices.slice, if_pos ⟨hlo, hhi⟩]
  exact bind (touch h) fun _ _ => pure rfl

theorem load {buf : List Byte} {pos size : ℕ}
    (h : ∀ t, P t → P { t with touched := t.touched ++ [⟨pos, size⟩] }) :
    Total P (Slices.load buf pos size) fun bs => bs = Span.bytes buf ⟨pos, size⟩ :=
  bind (touch h) fun _ _ => pure rfl

theorem loadAt {buf : List Byte} {off : ℤ} {size : ℕ} (hoff : 0 ≤ off)
    (h : ∀ t, P t → P { t with touched := t.touched ++ [⟨off.toNat, size⟩] }) :
    Total P (Slices.loadAt buf off size) fun bs => bs = Span.bytes buf ⟨off.toNat, size⟩ := by
  rw [Slices.loadAt, if_pos hoff]
  exact load h

theorem perform {f : ω → α × ω} (h : ∀ t, P t → P { t with world := (f t.world).2 }) :
    Total P (Slices.perform f) fun _ => True :=
  fun t ht => ⟨trivial, h t ht⟩

/-- A loop that keeps an invariant of its own state, and goes on only with a smaller measure. -/
theorem iterate {body : α → Prog ω (α ⊕ β)} {I : α → Prop} {R : β → Prop} (μ : α → ℕ)
    (hbody : ∀ a, I a → Total P (body a) (Round μ I R a))
    {k : ℕ} {a : α} (ha : I a) (hk : μ a < k) :
    Total P (Hoare.iterate .exhausted body k a) R := by
  have hloop : Triple (fun s => I a ∧ P s) (Hoare.iterate .exhausted body k a)
      (fun b s => R b ∧ P s) fun _ _ => False := by
    refine Triple.iterate μ (fun a => Triple.of_pre fun ha => (hbody a ha).post ?_) hk
    intro r s hr
    cases r with
    | inl a' => exact ⟨hr.1.1, hr.1.2, hr.2⟩
    | inr b => exact hr
  exact hloop.pre fun s hs => ⟨ha, hs⟩

theorem run (h : Total P m Q) {s : Traced ω} (hs : P s) :
    ∃ a s', m s = .ok a s' ∧ Q a ∧ P s' := by
  have hrun := h s hs
  cases hm : m s with
  | ok a s' =>
    rw [hm] at hrun
    exact ⟨a, s', rfl, hrun⟩
  | error e s' =>
    rw [hm] at hrun
    exact hrun.elim

end Total

-- a program is looked at through these rules, never by running it
attribute [irreducible] Total

end

end Slices
