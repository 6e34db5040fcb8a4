import Replicore.Lib.Lts

/-!
# Transactions

Programs that ask a server and go on with its answers, as data: a `Prog` is a value, an error, or a
call with a continuation for every answer.  A `Server` answers the calls on states of its own, so
one program runs on different representations of the same content.

* `Prog.run` : a run, which ends with a value or an error;
* `commit` : one transaction, of which an error leaves nothing behind;
* `session` : the replies to a list of commands;
* `Simulates` : on related states, one server answers like another.  Then so do programs
  (`Simulates.run`), transactions (`Simulates.commit`) and sessions (`session_eq`).

A simulation may be limited to calls with a property; `Prog.Within` says that the calls of a run
have it.
-/

namespace Transaction

universe u

/-- Calls, and what is answered to each. -/
structure Interface where
  Call : Type u
  Answer : Call → Type u

variable {I : Interface.{u}} {ε α β σ τ : Type u}

/-- A program that calls. -/
inductive Prog (I : Interface.{u}) (ε α : Type u) : Type u
  | pure (a : α)
  | throw (e : ε)
  | call (c : I.Call) (next : I.Answer c → Prog I ε α)

/-- Answers to all calls. -/
abbrev Server (I : Interface.{u}) (ε σ : Type u) := ∀ c : I.Call, σ → Except ε (I.Answer c × σ)

namespace Prog

/-- One program after another. -/
def bind : Prog I ε α → (α → Prog I ε β) → Prog I ε β
  | pure a, f => f a
  | throw e, _ => throw e
  | call c next, f => call c fun x => (next x).bind f

instance : Monad (Prog I ε) where
  pure := pure
  bind := bind

/-- The answer to one call. -/
def ask (c : I.Call) : Prog I ε (I.Answer c) := call c pure

/-- A run on the states of a server. -/
def run (h : Server I ε σ) : Prog I ε α → σ → Except ε (α × σ)
  | pure a, s => .ok (a, s)
  | throw e, _ => .error e
  | call c next, s =>
    match h c s with
    | .ok (x, s') => (next x).run h s'
    | .error e => .error e

/-- The calls of the run are in `P`. -/
def Within (h : Server I ε σ) (P : I.Call → Prop) : Prog I ε α → σ → Prop
  | pure _, _ => True
  | throw _, _ => True
  | call c next, s =>
    P c ∧ match h c s with
      | .ok (x, s') => (next x).Within h P s'
      | .error _ => True

instance Within.decidable (h : Server I ε σ) (P : I.Call → Prop) [DecidablePred P] :
    ∀ (m : Prog I ε α) (s : σ), Decidable (m.Within h P s)
  | pure _, _ => .isTrue trivial
  | throw _, _ => .isTrue trivial
  | call c next, s =>
    match hc : h c s with
    | .ok (x, s') =>
      have := Within.decidable h P (next x) s'
      decidable_of_iff (P c ∧ (next x).Within h P s') (by rw [Within, hc])
    | .error _ => decidable_of_iff (P c) (by rw [Within, hc]; simp)

variable {h : Server I ε σ} {P : I.Call → Prop} {s s' : σ}

@[simp] theorem run_pure (a : α) : (Pure.pure a : Prog I ε α).run h s = .ok (a, s) := rfl

@[simp] theorem run_throw (e : ε) : (throw e : Prog I ε α).run h s = .error e := rfl

theorem run_bind (m : Prog I ε α) (f : α → Prog I ε β) (s : σ) :
    (m >>= f).run h s =
      match m.run h s with
      | .ok (a, s') => (f a).run h s'
      | .error e => .error e := by
  induction m generalizing s with
  | pure a => rfl
  | throw e => rfl
  | call c next ih =>
    change (call c fun x => (next x).bind f).run h s = _
    simp only [run]
    cases h c s with
    | ok x => exact ih x.1 x.2
    | error e => rfl

/-- A part that succeeds. -/
theorem run_bind_ok {m : Prog I ε α} {a : α} (hm : m.run h s = .ok (a, s'))
    (f : α → Prog I ε β) : (m >>= f).run h s = (f a).run h s' := by
  rw [run_bind, hm]

theorem run_bind_error {m : Prog I ε α} {e : ε} (hm : m.run h s = .error e)
    (f : α → Prog I ε β) : (m >>= f).run h s = .error e := by
  rw [run_bind, hm]

theorem run_ask {c : I.Call} {x : I.Answer c} (hc : h c s = .ok (x, s')) :
    (ask c : Prog I ε _).run h s = .ok (x, s') := by
  rw [ask, run, hc]
  rfl

end Prog

/-- One transaction: a program that ends with an error leaves the state as it was. -/
def commit (h : Server I ε σ) (m : Prog I ε α) (s : σ) : Except ε α × σ :=
  match m.run h s with
  | .ok (a, s') => (.ok a, s')
  | .error e => (.error e, s)

/-! ### Simulation -/

/-- Two outcomes agree: in the answer or in the error. -/
inductive Agree (R : σ → τ → Prop) : Except ε (α × σ) → Except ε (α × τ) → Prop
  | ok (a : α) {s : σ} {t : τ} (hR : R s t) : Agree R (.ok (a, s)) (.ok (a, t))
  | error (e : ε) : Agree R (.error e) (.error e)

/-- On related states, the calls in `P` are answered alike. -/
def Simulates (R : σ → τ → Prop) (P : I.Call → Prop) (h : Server I ε σ) (h' : Server I ε τ) :
    Prop :=
  ∀ c s t, P c → R s t → Agree R (h c s) (h' c t)

namespace Simulates

variable {R : σ → τ → Prop} {P : I.Call → Prop} {h : Server I ε σ} {h' : Server I ε τ} {s : σ}
  {t : τ}

/-- Programs run alike. -/
theorem run (hsim : Simulates R P h h') {m : Prog I ε α} (hm : m.Within h P s) (hR : R s t) :
    Agree R (m.run h s) (m.run h' t) := by
  induction m generalizing s t with
  | pure a => exact .ok a hR
  | throw e => exact .error e
  | call c next ih =>
    rw [Prog.Within] at hm
    obtain ⟨hP, hnext⟩ := hm
    have hcall := hsim c s t hP hR
    simp only [Prog.run]
    generalize h c s = x at hcall hnext ⊢
    generalize h' c t = y at hcall ⊢
    cases hcall with
    | ok a hR' => exact ih a hnext hR'
    | error e => exact .error e

/-- Transactions reply alike, and leave related states. -/
theorem commit (hsim : Simulates R P h h') {m : Prog I ε α} (hm : m.Within h P s) (hR : R s t) :
    (Transaction.commit h m s).1 = (Transaction.commit h' m t).1 ∧
      R (Transaction.commit h m s).2 (Transaction.commit h' m t).2 := by
  have hrun := hsim.run hm hR
  unfold Transaction.commit
  generalize m.run h s = x at hrun ⊢
  generalize m.run h' t = y at hrun ⊢
  cases hrun with
  | ok a hR' => exact ⟨rfl, hR'⟩
  | error e => exact ⟨rfl, hR⟩

end Simulates

/-! ### Sessions -/

section Session

variable {C ρ : Type*} {σ τ : Type*}

/-- The replies to a list of commands, and the state they leave. -/
def session (serve : C → σ → ρ × σ) : List C → σ → List ρ × σ
  | [], s => ([], s)
  | c :: cs, s =>
    let rest := session serve cs (serve c s).2
    ((serve c s).1 :: rest.1, rest.2)

/-- Every reply was given to a command in some state. -/
theorem exists_of_mem_session {serve : C → σ → ρ × σ} {cs : List C} {s : σ} {r : ρ}
    (h : r ∈ (session serve cs s).1) : ∃ c s', (serve c s').1 = r := by
  induction cs generalizing s with
  | nil => cases h
  | cons c cs ih =>
    obtain rfl | h := List.mem_cons.1 h
    · exact ⟨c, s, rfl⟩
    · exact ih h

/-- Two ways to serve that reply alike command by command reply alike throughout. -/
theorem session_eq {serve : C → σ → ρ × σ} {serve' : C → τ → ρ × τ} {R : σ → τ → Prop}
    {ok : σ → C → Prop} (hstep : ∀ c s t, ok s c → R s t →
      (serve c s).1 = (serve' c t).1 ∧ R (serve c s).2 (serve' c t).2)
    {cs : List C} {s : σ} {t : τ} (hok : Lts.AllOk ok (fun s c => (serve c s).2) s cs)
    (hR : R s t) :
    (session serve cs s).1 = (session serve' cs t).1 ∧
      R (session serve cs s).2 (session serve' cs t).2 := by
  induction cs generalizing s t with
  | nil => exact ⟨rfl, hR⟩
  | cons c cs ih =>
    obtain ⟨hreply, hR'⟩ := hstep c s t hok.1 hR
    obtain ⟨hreplies, hend⟩ := ih hok.2 hR'
    exact ⟨congrArg₂ List.cons hreply hreplies, hend⟩

end Session

end Transaction
