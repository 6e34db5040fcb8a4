import Mathlib.Data.List.Perm.Subperm
import Mathlib.Data.List.Perm.Basic
import Mathlib.Data.List.Nodup

/-!
# Directory trees and the loop over them

`DirTree N A E` is a directory as reading it goes: its entries in the order in which they come,
each a node with data in `A` or a directory of its own, and possibly a failure in `E`, after which
nothing more is read.  `DirTree.traverse` is the usual loop over a stack of directories still to be
read: it hands every node to `visit`, pushes every directory, and stops at the first failure.

Whatever the shape of the tree, what was handed over together with what is still on the stack is
always the same (`DirTree.pending_subdirs`).  So the loop ends within one round for each directory,
and has handed over every node exactly once, or has met a failure (`DirTree.traverse_spec`).
-/

/-- What is left to be read of a directory. -/
inductive DirTree (N A E : Type*)
  | nil
  | node (name : N) (data : A) (rest : DirTree N A E)
  | dir (name : N) (sub : DirTree N A E) (rest : DirTree N A E)
  | fail (e : E)
  deriving DecidableEq

namespace DirTree

variable {N A E σ : Type*}

/-! ### What a tree contains -/

/-- The nodes below `loc`, with their locations. -/
def nodes (loc : List N) : DirTree N A E → List (List N × A)
  | nil | fail _ => []
  | node name data rest => (loc ++ [name], data) :: nodes loc rest
  | dir name sub rest => nodes (loc ++ [name]) sub ++ nodes loc rest

/-- The nodes in the directory itself. -/
def files (loc : List N) : DirTree N A E → List (List N × A)
  | nil | fail _ => []
  | node name data rest => (loc ++ [name], data) :: files loc rest
  | dir _ _ rest => files loc rest

/-- The directories in it. -/
def subdirs (loc : List N) : DirTree N A E → List (List N × DirTree N A E)
  | nil | fail _ => []
  | node _ _ rest => subdirs loc rest
  | dir name sub rest => (loc ++ [name], sub) :: subdirs loc rest

/-- How reading the directory itself ends. -/
def failure : DirTree N A E → Option E
  | nil => none
  | fail e => some e
  | node _ _ rest | dir _ _ rest => failure rest

/-- Nothing in the tree fails to be read. -/
def Readable : DirTree N A E → Prop
  | nil => True
  | fail _ => False
  | node _ _ rest => Readable rest
  | dir _ sub rest => Readable sub ∧ Readable rest

instance decidableReadable : ∀ t : DirTree N A E, Decidable t.Readable
  | nil => .isTrue trivial
  | fail _ => .isFalse id
  | node _ _ rest => decidableReadable rest
  | dir _ sub rest =>
    have := decidableReadable sub
    have := decidableReadable rest
    inferInstanceAs (Decidable (Readable sub ∧ Readable rest))

/-- The number of directories below. -/
def dirs : DirTree N A E → ℕ
  | nil | fail _ => 0
  | node _ _ rest => dirs rest
  | dir _ sub rest => 1 + dirs sub + dirs rest

/-- The names of the entries. -/
def names : DirTree N A E → List N
  | nil | fail _ => []
  | node name _ rest | dir name _ rest => name :: names rest

/-- No directory has two entries of one name. -/
def Distinct : DirTree N A E → Prop
  | nil | fail _ => True
  | node name _ rest => name ∉ names rest ∧ Distinct rest
  | dir name sub rest => name ∉ names rest ∧ Distinct sub ∧ Distinct rest

/-- The tree without the nodes that meet `p`. -/
def erase (p : List N → A → Bool) (loc : List N) : DirTree N A E → DirTree N A E
  | nil => nil
  | fail e => fail e
  | node name data rest =>
    if p (loc ++ [name]) data then erase p loc rest else node name data (erase p loc rest)
  | dir name sub rest => dir name (erase p (loc ++ [name]) sub) (erase p loc rest)

theorem nodes_erase (p : List N → A → Bool) (loc : List N) (t : DirTree N A E) :
    nodes loc (erase p loc t) = (nodes loc t).filter fun x => !p x.1 x.2 := by
  induction t generalizing loc with
  | nil => rfl
  | fail e => rfl
  | node name data rest ih =>
    simp only [erase, nodes]
    split_ifs with h
    · simp [ih, h]
    · simp [ih, h, nodes]
  | dir name sub rest ihs ih => simp [erase, nodes, ihs, ih, List.filter_append]

theorem readable_erase {p : List N → A → Bool} {loc : List N} {t : DirTree N A E} :
    (erase p loc t).Readable ↔ t.Readable := by
  induction t generalizing loc with
  | nil => rfl
  | fail e => rfl
  | node name data rest ih =>
    simp only [erase]
    split_ifs
    · exact ih
    · exact ih
  | dir name sub rest ihs ih => exact and_congr ihs ih

/-- Every location is below the directory, by way of one of its entries. -/
theorem exists_name_of_mem_nodes {loc : List N} {t : DirTree N A E} {x : List N × A}
    (h : x ∈ nodes loc t) : ∃ name ∈ names t, ∃ rest, x.1 = loc ++ name :: rest := by
  induction t generalizing loc with
  | nil => cases h
  | fail e => cases h
  | node name data rest ih =>
    obtain rfl | h := List.mem_cons.1 h
    · exact ⟨name, List.mem_cons_self, [], rfl⟩
    · obtain ⟨n, hn, hx⟩ := ih h
      exact ⟨n, List.mem_cons_of_mem _ hn, hx⟩
  | dir name sub rest ihs ih =>
    obtain h | h := List.mem_append.1 h
    · obtain ⟨n, -, more, hx⟩ := ihs h
      exact ⟨name, List.mem_cons_self, n :: more, by rw [hx, List.append_assoc]; rfl⟩
    · obtain ⟨n, hn, hx⟩ := ih h
      exact ⟨n, List.mem_cons_of_mem _ hn, hx⟩

/-- Different nodes are at different locations. -/
theorem nodup_nodes {t : DirTree N A E} (h : t.Distinct) (loc : List N) :
    ((nodes loc t).map Prod.fst).Nodup := by
  -- an entry below one name is not below another one
  have hapart : ∀ {loc : List N} {name : N} {rest : DirTree N A E} {l more : List N},
      name ∉ names rest → l ∈ (nodes loc rest).map Prod.fst → l ≠ loc ++ name :: more := by
    intro loc name rest l more hname hl heq
    obtain ⟨x, hx, rfl⟩ := List.mem_map.1 hl
    obtain ⟨n, hn, more', hxl⟩ := exists_name_of_mem_nodes hx
    have hcons := List.append_cancel_left (hxl.symm.trans heq)
    exact hname ((List.cons.inj hcons).1 ▸ hn)
  induction t generalizing loc with
  | nil => exact List.nodup_nil
  | fail e => exact List.nodup_nil
  | node name data rest ih =>
    rw [nodes, List.map_cons, List.nodup_cons]
    exact ⟨fun hl => hapart h.1 hl rfl, ih h.2 loc⟩
  | dir name sub rest ihs ih =>
    rw [nodes, List.map_append]
    refine List.Nodup.append (ihs h.2.1 _) (ih h.2.2 loc) fun l hl hl' => ?_
    obtain ⟨x, hx, rfl⟩ := List.mem_map.1 hl
    obtain ⟨n, -, more, hxl⟩ := exists_name_of_mem_nodes hx
    rw [List.append_assoc] at hxl
    exact hapart h.1 hl' hxl

/-! ### The loop -/

/-- The directories still to be read, with their locations. -/
abbrev Stack (N A E : Type*) := List (List N × DirTree N A E)

/-- Read one directory: visit its nodes, push its directories.  What was visited before a failure
stays visited. -/
def readDir (visit : σ → List N → A → σ) (loc : List N) :
    DirTree N A E → Stack N A E → σ → Except (E × σ) (Stack N A E × σ)
  | nil, stack, s => .ok (stack, s)
  | fail e, _, s => .error (e, s)
  | node name data rest, stack, s => readDir visit loc rest stack (visit s (loc ++ [name]) data)
  | dir name sub rest, stack, s => readDir visit loc rest ((loc ++ [name], sub) :: stack) s

/-- Pop a directory and read it, until there is none or one fails; for at most so many rounds. -/
def loop (visit : σ → List N → A → σ) : ℕ → Stack N A E → σ → Option (Except (E × σ) σ)
  | _, [], s => some (.ok s)
  | 0, _ :: _, _ => none
  | k + 1, (loc, t) :: stack, s =>
    match readDir visit loc t stack s with
    | .ok (stack, s) => loop visit k stack s
    | .error e => some (.error e)

/-- Visit everything below a directory. -/
def traverse (visit : σ → List N → A → σ) (t : DirTree N A E) (s : σ) : Option (Except (E × σ) σ) :=
  loop visit (1 + t.dirs) [([], t)] s

/-- Visit these nodes, one after the other. -/
def visitAll (visit : σ → List N → A → σ) (l : List (List N × A)) (s : σ) : σ :=
  l.foldl (fun s x => visit s x.1 x.2) s

/-- What is still to be visited. -/
def pending (stack : Stack N A E) : List (List N × A) := stack.flatMap fun d => nodes d.1 d.2

/-- An upper bound of the rounds to come. -/
def weight : Stack N A E → ℕ
  | [] => 0
  | d :: stack => 1 + d.2.dirs + weight stack

theorem readDir_eq (visit : σ → List N → A → σ) (loc : List N) (t : DirTree N A E)
    (stack : Stack N A E) (s : σ) :
    readDir visit loc t stack s =
      match t.failure with
      | none => .ok ((subdirs loc t).reverse ++ stack, visitAll visit (files loc t) s)
      | some e => .error (e, visitAll visit (files loc t) s) := by
  induction t generalizing stack s with
  | nil => rfl
  | fail e => rfl
  | node name data rest ih => exact ih stack _
  | dir name sub rest ihs ih =>
    simp only [readDir, ih, failure, subdirs, files, List.reverse_cons, List.append_assoc,
      List.singleton_append]

/-- Reading a directory leaves to be visited what it does not visit. -/
theorem pending_subdirs (loc : List N) (t : DirTree N A E) (stack : Stack N A E) :
    (files loc t ++ pending ((subdirs loc t).reverse ++ stack)).Perm
      (pending ((loc, t) :: stack)) := by
  have hown : (files loc t ++ pending (subdirs loc t)).Perm (nodes loc t) := by
    induction t with
    | nil => exact .refl _
    | fail e => exact .refl _
    | node name data rest ih => exact ih.cons _
    | dir name sub rest ihs ih =>
      simp only [files, subdirs, nodes, pending, List.flatMap_cons]
      rw [← List.append_assoc]
      refine (List.perm_append_comm.append_right _).trans ?_
      rw [List.append_assoc]
      exact ih.append_left _
  simp only [pending, List.flatMap_append, List.flatMap_cons]
  rw [← List.append_assoc]
  refine List.Perm.append_right _ (.trans ?_ hown)
  exact ((List.reverse_perm _).flatMap_right _).append_left _

theorem weight_subdirs (loc : List N) (t : DirTree N A E) : weight (subdirs loc t) = t.dirs := by
  induction t with
  | nil => rfl
  | fail e => rfl
  | node name data rest ih => exact ih
  | dir name sub rest ihs ih => rw [subdirs, weight, ih, dirs]

theorem weight_append (a b : Stack N A E) : weight (a ++ b) = weight a + weight b := by
  induction a with
  | nil => simp [weight]
  | cons d a ih =>
    simp only [List.cons_append, weight, ih]
    omega

theorem weight_reverse (a : Stack N A E) : weight a.reverse = weight a := by
  induction a with
  | nil => rfl
  | cons d a ih =>
    rw [List.reverse_cons, weight_append, ih]
    simp only [weight]
    omega

theorem readable_iff {t : DirTree N A E} (loc : List N) :
    t.Readable ↔ t.failure = none ∧ ∀ d ∈ subdirs loc t, d.2.Readable := by
  induction t with
  | nil => simp [Readable, failure, subdirs]
  | fail e => simp [Readable, failure]
  | node name data rest ih => exact ih
  | dir name sub rest ihs ih =>
    simp only [Readable, failure, subdirs, List.forall_mem_cons, ih]
    tauto

/-- **The loop visits every node once, or meets a failure**, in at most as many rounds as there are
directories. -/
theorem loop_spec (visit : σ → List N → A → σ) {k : ℕ} {stack : Stack N A E} (s : σ)
    (hk : weight stack ≤ k) :
    ∃ l, ((∀ d ∈ stack, d.2.Readable) ∧ l.Perm (pending stack) ∧
        loop visit k stack s = some (.ok (visitAll visit l s))) ∨
      ((∃ d ∈ stack, ¬ d.2.Readable) ∧ l.Subperm (pending stack) ∧
        ∃ e, loop visit k stack s = some (.error (e, visitAll visit l s))) := by
  induction k generalizing stack s with
  | zero =>
    cases stack with
    | nil => exact ⟨[], .inl ⟨by simp, .refl _, rfl⟩⟩
    | cons d stack =>
      simp only [weight] at hk
      omega
  | succ k ih =>
    cases stack with
    | nil => exact ⟨[], .inl ⟨by simp, .refl _, rfl⟩⟩
    | cons d stack =>
      obtain ⟨loc, t⟩ := d
      have hperm := pending_subdirs loc t stack
      cases hfail : t.failure with
      | some e =>
        refine ⟨files loc t, .inr ⟨⟨(loc, t), List.mem_cons_self, ?_⟩, ?_, e, ?_⟩⟩
        · rw [readable_iff loc, hfail]
          simp
        · exact (List.sublist_append_left _ _).subperm.trans hperm.subperm
        · simp only [loop, readDir_eq, hfail]
      | none =>
        have hw : weight ((subdirs loc t).reverse ++ stack) ≤ k := by
          rw [weight_append, weight_reverse, weight_subdirs]
          simp only [weight] at hk
          omega
        have hloop : loop visit (k + 1) ((loc, t) :: stack) s =
            loop visit k ((subdirs loc t).reverse ++ stack) (visitAll visit (files loc t) s) := by
          simp only [loop, readDir_eq, hfail]
        have hread : (∀ d ∈ (loc, t) :: stack, d.2.Readable) ↔
            ∀ d ∈ (subdirs loc t).reverse ++ stack, d.2.Readable := by
          rw [List.forall_mem_cons, readable_iff loc, hfail]
          simp [or_imp, forall_and]
        obtain ⟨l, ⟨hr, hl, heq⟩ | ⟨hr, hl, e, heq⟩⟩ := ih (visitAll visit (files loc t) s) hw
        · refine ⟨files loc t ++ l, .inl ⟨hread.2 hr, (hl.append_left _).trans hperm, ?_⟩⟩
          rw [hloop, heq, visitAll, visitAll, visitAll, List.foldl_append]
        · refine ⟨files loc t ++ l, .inr ⟨?_, ?_, e, ?_⟩⟩
          · by_contra hall
            push Not at hall
            obtain ⟨d, hd, hnot⟩ := hr
            exact hnot (hread.1 hall d hd)
          · exact ((List.subperm_append_left _).2 hl).trans hperm.subperm
          · rw [hloop, heq, visitAll, visitAll, visitAll, List.foldl_append]

/-- **Everything below a directory is visited once, or reading fails.** -/
theorem traverse_spec (visit : σ → List N → A → σ) (t : DirTree N A E) (s : σ) :
    ∃ l, (t.Readable ∧ l.Perm (nodes [] t) ∧ traverse visit t s = some (.ok (visitAll visit l s))) ∨
      (¬ t.Readable ∧ l.Subperm (nodes [] t) ∧
        ∃ e, traverse visit t s = some (.error (e, visitAll visit l s))) := by
  have hk : weight [(([] : List N), t)] ≤ 1 + t.dirs := by simp [weight]
  obtain ⟨l, h⟩ := loop_spec visit s hk
  refine ⟨l, h.imp (fun ⟨hr, hl, heq⟩ => ⟨hr _ List.mem_cons_self, ?_, heq⟩)
    fun ⟨⟨d, hd, hr⟩, hl, heq⟩ => ⟨?_, ?_, heq⟩⟩
  · simpa [pending] using hl
  · rwa [List.mem_singleton.1 hd] at hr
  · simpa [pending] using hl

end DirTree
