import Mathlib.Data.List.Basic
import Mathlib.Data.List.Induction
import Replicore.Lib.Hoare

/-!
# Paths, symbolic links and system calls

A file system as the kernel sees it: a node for each location, and path resolution that follows
symbolic links at every component but the last one, and there if the call follows.  A call is given
a directory and names below it, and tells which locations it changed.  Permissions, quotas and the
like are not modelled: the kernel may refuse any call.

Resolution is compositional: a path ends at a name in the directory its other components resolve to
(`resolve_concat`, `exists_of_resolve_concat`), and it depends on directories and links only
(`resolve_mono`).
-/

namespace Posix

/-- Reasons for which any call may be refused. -/
inductive Refusal
  | perm
  | notsup
  | inval
  | other
  deriving DecidableEq

/-- Why a call fails. -/
inductive Errno
  | noent
  | exist
  | notdir
  | isdir
  | loop
  | refused (r : Refusal)
  deriving DecidableEq

/-- A component of a symbolic link's contents. -/
inductive Comp (N : Type)
  | up
  | name (n : N)

/-- The contents of a symbolic link. -/
structure Target (N : Type) where
  absolute : Bool
  comps : List (Comp N)

/-- What is at a location. -/
inductive Node (N D : Type)
  | dir
  | link (target : Target N)
  | other (data : D)

/-- A location: the names from the root directory, none of them followed. -/
abbrev Loc (N : Type) := List N

/-- A file system. -/
abbrev Fs (N D : Type) := Loc N → Option (Node N D)

variable {N D : Type}

/-- Resolution looks at directories and links only. -/
def Node.IsTree : Node N D → Prop
  | .dir | .link _ => True
  | .other _ => False

/-! ### Resolution -/

/-- Resolve from the directory `cur`; `cont` goes on behind a link. -/
def walkComps (fs : Fs N D) (cont : Loc N → List (Comp N) → Except Errno (Loc N)) (follow : Bool) :
    Loc N → List (Comp N) → Except Errno (Loc N)
  | cur, [] => .ok cur
  | cur, .up :: rest => walkComps fs cont follow cur.dropLast rest
  | cur, .name n :: rest =>
    match fs (cur ++ [n]) with
    | some .dir => walkComps fs cont follow (cur ++ [n]) rest
    | some (.link t) =>
      if rest.isEmpty && !follow then .ok (cur ++ [n])
      else cont (if t.absolute then [] else cur) (t.comps ++ rest)
    | some (.other _) => if rest.isEmpty then .ok (cur ++ [n]) else .error .notdir
    | none => if rest.isEmpty then .ok (cur ++ [n]) else .error .noent

/-- Resolve with at most so many links. -/
def walk (fs : Fs N D) (follow : Bool) : ℕ → Loc N → List (Comp N) → Except Errno (Loc N)
  | 0 => walkComps fs (fun _ _ => .error .loop) follow
  | k + 1 => walkComps fs (walk fs follow k) follow

/-- `MAXSYMLINKS`. -/
def maxSymlinks : ℕ := 40

/-- Where a call operates that is given these names below the directory `base`. -/
def resolve (fs : Fs N D) (follow : Bool) (base : Loc N) (names : List N) : Except Errno (Loc N) :=
  walk fs follow maxSymlinks base (names.map .name)

/-- A tree: the root is a directory, and what exists is in a directory. -/
structure WellFormed (fs : Fs N D) : Prop where
  root : fs [] = some .dir
  parent : ∀ l n, (fs (l ++ [n])).isSome → fs l = some .dir

theorem WellFormed.dropLast {fs : Fs N D} (h : WellFormed fs) {l : Loc N} (hl : fs l = some .dir) :
    fs l.dropLast = some .dir := by
  cases l using List.reverseRecOn with
  | nil => exact hl
  | append_singleton l n =>
    rw [List.dropLast_concat]
    exact h.parent l n (by rw [hl]; rfl)

section Resolve

variable {fs fs' : Fs N D} {cont cont' : Loc N → List (Comp N) → Except Errno (Loc N)}
  {base l : Loc N} {a : List (Comp N)} {n : N}

theorem isEmpty_concat {α : Type} (xs : List α) (x : α) : (xs ++ [x]).isEmpty = false := by
  cases xs <;> rfl

theorem walkComps_concat {follow : Bool}
    (hlast : ∀ t, fs (l ++ [n]) = some (.link t) → follow = false)
    (hcont : ∀ b c, cont b c = .ok l → cont' b (c ++ [.name n]) = .ok (l ++ [n]))
    (h : walkComps fs cont true base a = .ok l) (hl : fs l = some .dir) :
    walkComps fs cont' follow base (a ++ [.name n]) = .ok (l ++ [n]) := by
  induction a generalizing base with
  | nil =>
    cases h
    simp only [List.nil_append, walkComps]
    cases hn : fs (l ++ [n]) with
    | none => rfl
    | some node =>
      cases node with
      | dir => rfl
      | link t => rw [hlast t hn]; rfl
      | other d => rfl
  | cons c a ih =>
    cases c with
    | up => exact ih h
    | name m =>
      simp only [List.cons_append, walkComps] at h ⊢
      cases hm : fs (base ++ [m]) with
      | none =>
        simp only [hm] at h
        split_ifs at h
        cases h
        rw [hm] at hl
        cases hl
      | some node =>
        simp only [hm] at h ⊢
        cases node with
        | dir => exact ih h
        | link t =>
          simp only [Bool.not_true, Bool.and_false, Bool.false_eq_true, if_false] at h
          simp only [isEmpty_concat, Bool.false_and, Bool.false_eq_true, if_false]
          rw [← List.append_assoc]
          exact hcont _ _ h
        | other d =>
          dsimp only at h
          split_ifs at h
          cases h
          rw [hm] at hl
          cases hl

/-- The location of a name in a directory that a path resolves to. -/
theorem walk_concat {follow : Bool} {k : ℕ}
    (hlast : ∀ t, fs (l ++ [n]) = some (.link t) → follow = false)
    (h : walk fs true k base a = .ok l) (hl : fs l = some .dir) :
    walk fs follow k base (a ++ [.name n]) = .ok (l ++ [n]) := by
  induction k generalizing base a with
  | zero => exact walkComps_concat hlast (fun b c hc => by cases hc) h hl
  | succ k ih => exact walkComps_concat hlast (fun b c hc => ih hc) h hl

/-- What resolving a path that ends with the name `n` says about its directory. -/
def InDir (fs : Fs N D) (follow : Bool) (n : N) (loc : Loc N) (dir : Except Errno (Loc N)) : Prop :=
  ∃ l, dir = .ok l ∧ fs l = some .dir ∧
    ((∀ t, fs (l ++ [n]) = some (.link t) → follow = false) → loc = l ++ [n])

theorem inDir_of_walkComps (hwf : WellFormed fs) {follow : Bool} {loc : Loc N}
    (hcont : ∀ b c loc, fs b = some .dir → cont' b (c ++ [.name n]) = .ok loc →
      InDir fs follow n loc (cont b c))
    (hbase : fs base = some .dir) (h : walkComps fs cont' follow base (a ++ [.name n]) = .ok loc) :
    InDir fs follow n loc (walkComps fs cont true base a) := by
  induction a generalizing base with
  | nil =>
    refine ⟨base, rfl, hbase, fun hlast => ?_⟩
    simp only [List.nil_append, walkComps] at h
    cases hn : fs (base ++ [n]) with
    | none => simpa [hn, eq_comm] using h
    | some node =>
      simp only [hn] at h
      cases node with
      | dir => cases h; rfl
      | link t =>
        have hno := hlast t hn
        subst hno
        cases h
        rfl
      | other d => cases h; rfl
  | cons c a ih =>
    cases c with
    | up => exact ih (hwf.dropLast hbase) h
    | name m =>
      simp only [List.cons_append, walkComps] at h ⊢
      cases hm : fs (base ++ [m]) with
      | none => simp [hm] at h
      | some node =>
        simp only [hm] at h ⊢
        cases node with
        | dir => exact ih hm h
        | link t =>
          simp only [isEmpty_concat, Bool.false_and, Bool.false_eq_true, if_false] at h
          simp only [Bool.not_true, Bool.and_false, Bool.false_eq_true, if_false]
          rw [← List.append_assoc] at h
          refine hcont _ _ loc ?_ h
          split_ifs
          · exact hwf.root
          · exact hbase
        | other d => simp at h

theorem inDir_of_walk (hwf : WellFormed fs) {follow : Bool} {loc : Loc N} {k : ℕ}
    (hbase : fs base = some .dir) (h : walk fs follow k base (a ++ [.name n]) = .ok loc) :
    InDir fs follow n loc (walk fs true k base a) := by
  induction k generalizing base a loc with
  | zero => exact inDir_of_walkComps hwf (fun b c loc _ hc => by cases hc) hbase h
  | succ k ih => exact inDir_of_walkComps hwf (fun b c loc hb hc => ih hb hc) hbase h

theorem walkComps_parent (hwf : WellFormed fs) {follow : Bool} {loc : Loc N}
    (hcont : ∀ b c, fs b = some .dir → cont b c = .ok loc →
      (fs loc).isSome ∨ ∃ l n, loc = l ++ [n] ∧ fs l = some .dir)
    (hbase : fs base = some .dir) (h : walkComps fs cont follow base a = .ok loc) :
    (fs loc).isSome ∨ ∃ l n, loc = l ++ [n] ∧ fs l = some .dir := by
  induction a generalizing base with
  | nil =>
    cases h
    exact .inl (by rw [hbase]; rfl)
  | cons c a ih =>
    cases c with
    | up => exact ih (hwf.dropLast hbase) h
    | name m =>
      simp only [walkComps] at h
      cases hm : fs (base ++ [m]) with
      | none =>
        simp only [hm] at h
        split_ifs at h
        cases h
        exact .inr ⟨base, m, rfl, hbase⟩
      | some node =>
        simp only [hm] at h
        cases node with
        | dir => exact ih hm h
        | link t =>
          dsimp only at h
          by_cases hif : (a.isEmpty && !follow) = true
          · rw [if_pos hif] at h
            cases h
            exact .inl (by rw [hm]; rfl)
          · rw [if_neg hif] at h
            refine hcont _ _ ?_ h
            split_ifs
            · exact hwf.root
            · exact hbase
        | other d =>
          dsimp only at h
          split_ifs at h
          cases h
          exact .inl (by rw [hm]; rfl)

theorem walk_parent (hwf : WellFormed fs) {follow : Bool} {loc : Loc N} {k : ℕ}
    (hbase : fs base = some .dir) (h : walk fs follow k base a = .ok loc) :
    (fs loc).isSome ∨ ∃ l n, loc = l ++ [n] ∧ fs l = some .dir := by
  induction k generalizing base a with
  | zero => exact walkComps_parent hwf (fun b c _ hc => by cases hc) hbase h
  | succ k ih => exact walkComps_parent hwf (fun b c hb hc => ih hb hc) hbase h

theorem walkComps_mono {follow : Bool}
    (htree : ∀ l node, Node.IsTree node → fs l = some node → fs' l = some node)
    (hlast : ∀ t, fs' l = some (.link t) → fs l = some (.link t))
    (hcont : ∀ b c, cont b c = .ok l → cont' b c = .ok l)
    (h : walkComps fs cont follow base a = .ok l) : walkComps fs' cont' follow base a = .ok l := by
  induction a generalizing base with
  | nil => exact h
  | cons c a ih =>
    cases c with
    | up => exact ih h
    | name m =>
      -- where the path ends at something else than a directory or a link, it still does
      have hend : (∀ node, fs (base ++ [m]) = some node → ¬ node.IsTree) →
          (if a.isEmpty then Except.ok (base ++ [m]) else .error Errno.noent) = .ok l →
          walkComps fs' cont' follow base (.name m :: a) = .ok l := by
        intro hno hif
        split_ifs at hif with hemp
        cases hif
        obtain rfl := List.isEmpty_iff.1 hemp
        simp only [walkComps]
        cases hm : fs' (base ++ [m]) with
        | none => rfl
        | some node =>
          cases node with
          | dir => rfl
          | link t => exact absurd trivial (hno _ (hlast t hm))
          | other d => rfl
      simp only [walkComps] at h
      cases hm : fs (base ++ [m]) with
      | none =>
        simp only [hm] at h
        exact hend (fun node hnode => by rw [hm] at hnode; cases hnode) h
      | some node =>
        simp only [hm] at h
        cases node with
        | dir =>
          have hm' : fs' (base ++ [m]) = some .dir := htree _ .dir trivial hm
          simp only [walkComps, hm']
          exact ih h
        | link t =>
          have hm' : fs' (base ++ [m]) = some (.link t) := htree _ (.link t) trivial hm
          simp only [walkComps, hm']
          dsimp only at h
          by_cases hif : (a.isEmpty && !follow) = true
          · rw [if_pos hif] at h ⊢
            exact h
          · rw [if_neg hif] at h ⊢
            exact hcont _ _ h
        | other d =>
          refine hend (fun node hnode => ?_) ?_
          · rw [hm] at hnode
            cases hnode
            exact id
          · dsimp only at h
            split_ifs at h ⊢
            exact h

theorem walk_mono {follow : Bool} {k : ℕ}
    (htree : ∀ l node, Node.IsTree node → fs l = some node → fs' l = some node)
    (hlast : ∀ t, fs' l = some (.link t) → fs l = some (.link t))
    (h : walk fs follow k base a = .ok l) : walk fs' follow k base a = .ok l := by
  induction k generalizing base a with
  | zero => exact walkComps_mono htree hlast (fun b c hc => by cases hc) h
  | succ k ih => exact walkComps_mono htree hlast (fun b c hc => ih hc) h

variable {names : List N} {follow : Bool} {loc : Loc N}

/-- A name in the directory that a path resolves to, unless it is a link that is followed. -/
theorem resolve_concat (hlast : ∀ t, fs (l ++ [n]) = some (.link t) → follow = false)
    (h : resolve fs true base names = .ok l) (hl : fs l = some .dir) :
    resolve fs follow base (names ++ [n]) = .ok (l ++ [n]) := by
  rw [resolve, List.map_append]
  exact walk_concat hlast h hl

/-- A path that resolves, resolves to a name in the directory its other names resolve to, unless it
is a link that is followed. -/
theorem exists_of_resolve_concat (hwf : WellFormed fs) (hbase : fs base = some .dir)
    (h : resolve fs follow base (names ++ [n]) = .ok loc) :
    ∃ l, resolve fs true base names = .ok l ∧ fs l = some .dir ∧
      ((∀ t, fs (l ++ [n]) = some (.link t) → follow = false) → loc = l ++ [n]) := by
  rw [resolve, List.map_append] at h
  exact inDir_of_walk hwf hbase h

/-- Where a path resolves to there is something, or a directory to put it in. -/
theorem resolve_parent (hwf : WellFormed fs) (hbase : fs base = some .dir)
    (h : resolve fs follow base names = .ok loc) :
    (fs loc).isSome ∨ ∃ l n, loc = l ++ [n] ∧ fs l = some .dir :=
  walk_parent hwf hbase h

/-- A path still resolves where it did, as long as no directory and no link is lost. -/
theorem resolve_mono
    (htree : ∀ l node, Node.IsTree node → fs l = some node → fs' l = some node)
    (hlast : ∀ t, fs' l = some (.link t) → fs l = some (.link t))
    (h : resolve fs follow base names = .ok l) : resolve fs' follow base names = .ok l :=
  walk_mono htree hlast h

end Resolve

/-! ### Calls -/

/-- A change of the file system: a location and what is there afterwards. -/
abbrev Change (N D : Type) := Loc N × Option (Node N D)

/-- What a call answers: a value and the changes it made. -/
abbrev Answer (N D α : Type) := α × List (Change N D)

/-- Names below a directory, as a call is given them; a trailing slash asks for a directory. -/
structure Arg (N : Type) where
  names : List N
  slash : Bool := false

/-- One location changed. -/
def set [DecidableEq N] (fs : Fs N D) (c : Change N D) : Fs N D := fun l => if l = c.1 then c.2 else fs l

/-- `stat`: the directory that the names resolve to. -/
def dirAt (base : Loc N) (names : List N) (fs : Fs N D) : Option (Loc N) :=
  match resolve fs true base names with
  | .ok l =>
    match fs l with
    | some .dir => some l
    | _ => none
  | .error _ => none

theorem dirAt_eq_some {base l : Loc N} {names : List N} {fs : Fs N D} :
    dirAt base names fs = some l ↔ resolve fs true base names = .ok l ∧ fs l = some .dir := by
  unfold dirAt
  cases resolve fs true base names with
  | error e => simp
  | ok l' =>
    dsimp only
    cases hn : fs l' with
    | none =>
      simp only [reduceCtorEq, Except.ok.injEq, false_iff]
      rintro ⟨rfl, hl⟩
      rw [hn] at hl
      cases hl
    | some node =>
      cases node with
      | dir =>
        simp only [Option.some.injEq, Except.ok.injEq]
        exact ⟨fun h => ⟨h, h ▸ hn⟩, fun h => h.1⟩
      | link t =>
        simp only [reduceCtorEq, Except.ok.injEq, false_iff]
        rintro ⟨rfl, hl⟩
        rw [hn] at hl
        cases hl
      | other d =>
        simp only [reduceCtorEq, Except.ok.injEq, false_iff]
        rintro ⟨rfl, hl⟩
        rw [hn] at hl
        cases hl

/-- `open` for reading, and the reading. -/
def readFile (base : Loc N) (p : Arg N) (fs : Fs N D) : Except Errno (Answer N D D) := do
  let l ← resolve fs true base p.names
  match fs l with
  | some (.other d) => if p.slash then .error .notdir else .ok (d, [])
  | some .dir => .error .isdir
  | some (.link _) => .error .loop
  | none => .error .noent

/-- `open` with `O_CREAT` and `O_TRUNC`: a link is followed, also one that leads nowhere. -/
def createFile (base : Loc N) (names : List N) (trunc : Option D → D) (fs : Fs N D) :
    Except Errno (Answer N D (Loc N)) := do
  let l ← resolve fs true base names
  match fs l with
  | some (.other d) => .ok (l, [(l, some (.other (trunc (some d))))])
  | none => .ok (l, [(l, some (.other (trunc none)))])
  | some .dir => .error .isdir
  | some (.link _) => .error .loop

/-- A change through a file descriptor. -/
def changeFd (l : Loc N) (f : D → D) (fs : Fs N D) : Except Errno (Answer N D Unit) :=
  match fs l with
  | some (.other d) => .ok ((), [(l, some (.other (f d)))])
  | _ => .error .noent

/-- A change of attributes: `chmod` follows, the calls with an `l` do not, unless a slash makes
them. -/
def changeAttr (follow : Bool) (base : Loc N) (p : Arg N) (fs : Fs N D) :
    Except Errno (Answer N D Unit) := do
  let l ← resolve fs (follow || p.slash) base p.names
  match fs l with
  | some node => .ok ((), [(l, some node)])
  | none => .error .noent

/-- `mkdir`, `symlink`, `mkfifo` and `mknod`. -/
def makeNode (node : Node N D) (base : Loc N) (names : List N) (fs : Fs N D) :
    Except Errno (Answer N D Unit) := do
  let l ← resolve fs false base names
  match fs l with
  | some _ => .error .exist
  | none => .ok ((), [(l, some node)])

/-- `rename` of what is not a directory. -/
def rename [DecidableEq N] (base : Loc N) (src dst : Arg N) (fs : Fs N D) :
    Except Errno (Answer N D Unit) := do
  let l₁ ← resolve fs false base src.names
  let l₂ ← resolve fs false base dst.names
  match fs l₁, fs l₂ with
  | none, _ => .error .noent
  | some .dir, _ | _, some .dir => .error .isdir
  | some node, _ =>
    if src.slash || dst.slash then .error .notdir
    else if l₁ = l₂ then .ok ((), [])
    else .ok ((), [(l₁, none), (l₂, some node)])

/-- `unlink`. -/
def unlink (base : Loc N) (p : Arg N) (fs : Fs N D) : Except Errno (Answer N D Unit) := do
  let l ← resolve fs false base p.names
  match fs l with
  | none => .error .noent
  | some .dir => .error .isdir
  | some _ => if p.slash then .error .notdir else .ok ((), [(l, none)])

section Cases

variable {fs : Fs N D} {base : Loc N} {names : List N} {changes : List (Change N D)}

/-- The location, and what is there, decide a call. -/
theorem exists_of_resolve_bind {α : Type} {follow : Bool} {f : Loc N → Except Errno α} {x : α}
    (h : (resolve fs follow base names >>= f) = .ok x) :
    ∃ l, resolve fs follow base names = .ok l ∧ f l = .ok x := by
  cases hres : resolve fs follow base names with
  | error e => rw [hres] at h; cases h
  | ok l => rw [hres] at h; exact ⟨l, rfl, h⟩

theorem makeNode_eq_ok {node : Node N D} {u : Unit}
    (h : makeNode node base names fs = .ok (u, changes)) :
    ∃ l, resolve fs false base names = .ok l ∧ fs l = none ∧ changes = [(l, some node)] := by
  obtain ⟨l, hl, h⟩ := exists_of_resolve_bind h
  cases hn : fs l with
  | some _ => simp only [hn] at h; cases h
  | none => simp only [hn] at h; cases h; exact ⟨l, hl, hn, rfl⟩

theorem makeNode_eq_error {node : Node N D} {e : Errno}
    (h : makeNode node base names fs = .error e) :
    resolve fs false base names = .error e ∨ e = .exist := by
  unfold makeNode at h
  cases hres : resolve fs false base names with
  | error e' => rw [hres] at h; cases h; exact .inl rfl
  | ok l =>
    rw [hres] at h
    change (match fs l with
      | some _ => Except.error Errno.exist
      | none => .ok ((), [(l, some node)])) = .error e at h
    split at h
    · cases h
      exact .inr rfl
    · cases h

theorem readFile_eq_ok {p : Arg N} {d : D} (h : readFile base p fs = .ok (d, changes)) :
    ∃ l, resolve fs true base p.names = .ok l ∧ fs l = some (.other d) ∧ changes = [] := by
  obtain ⟨l, hl, h⟩ := exists_of_resolve_bind h
  cases hn : fs l with
  | none => simp only [hn] at h; cases h
  | some node =>
    cases node with
    | dir => simp only [hn] at h; cases h
    | link t => simp only [hn] at h; cases h
    | other d' =>
      simp only [hn] at h
      split_ifs at h
      cases h
      exact ⟨l, hl, hn, rfl⟩

/-- What is at a location is neither a directory nor a link. -/
def Plain (x : Option (Node N D)) : Prop := ∀ node, x = some node → ¬ node.IsTree

theorem plain_none : Plain (none : Option (Node N D)) := fun _ h => by cases h

theorem plain_other (d : D) : Plain (some (.other d : Node N D)) := fun _ h => by cases h; exact id

theorem createFile_eq_ok {trunc : Option D → D} {l : Loc N}
    (h : createFile base names trunc fs = .ok (l, changes)) :
    resolve fs true base names = .ok l ∧ Plain (fs l) ∧ ∃ d, changes = [(l, some (.other d))] := by
  obtain ⟨l', hl, h⟩ := exists_of_resolve_bind h
  cases hn : fs l' with
  | none =>
    simp only [hn] at h
    cases h
    exact ⟨hl, hn ▸ plain_none, _, rfl⟩
  | some node =>
    cases node with
    | dir => simp only [hn] at h; cases h
    | link t => simp only [hn] at h; cases h
    | other d =>
      simp only [hn] at h
      cases h
      exact ⟨hl, hn ▸ plain_other d, _, rfl⟩

theorem changeFd_eq_ok {l : Loc N} {f : D → D} {u : Unit}
    (h : changeFd l f fs = .ok (u, changes)) :
    Plain (fs l) ∧ (fs l).isSome ∧ ∃ d, changes = [(l, some (.other d))] := by
  unfold changeFd at h
  cases hn : fs l with
  | none => simp only [hn] at h; cases h
  | some node =>
    cases node with
    | dir => simp only [hn] at h; cases h
    | link t => simp only [hn] at h; cases h
    | other d =>
      simp only [hn] at h
      cases h
      exact ⟨plain_other d, rfl, _, rfl⟩

theorem changeAttr_eq_ok {follow : Bool} {p : Arg N} {u : Unit}
    (h : changeAttr follow base p fs = .ok (u, changes)) :
    ∃ l, resolve fs (follow || p.slash) base p.names = .ok l ∧ changes = [(l, fs l)] := by
  obtain ⟨l, hl, h⟩ := exists_of_resolve_bind h
  cases hn : fs l with
  | none => simp only [hn] at h; cases h
  | some node => simp only [hn] at h; cases h; exact ⟨l, hl, by rw [hn]⟩

theorem rename_eq_ok [DecidableEq N] {src dst : Arg N} {u : Unit}
    (h : rename base src dst fs = .ok (u, changes)) :
    ∃ l₁ l₂ node, resolve fs false base src.names = .ok l₁ ∧
      resolve fs false base dst.names = .ok l₂ ∧ fs l₁ = some node ∧ node ≠ .dir ∧
      fs l₂ ≠ some .dir ∧
      (l₁ = l₂ ∧ changes = [] ∨ l₁ ≠ l₂ ∧ changes = [(l₁, none), (l₂, some node)]) := by
  obtain ⟨l₁, hl₁, h⟩ := exists_of_resolve_bind h
  obtain ⟨l₂, hl₂, h⟩ := exists_of_resolve_bind h
  cases h₁ : fs l₁ with
  | none => simp only [h₁] at h; cases h
  | some node =>
    have hsplit : node ≠ .dir ∧ fs l₂ ≠ some .dir ∧
        ((if src.slash || dst.slash then .error .notdir
          else if l₁ = l₂ then .ok ((), [])
          else .ok ((), [(l₁, none), (l₂, some node)])) = Except.ok (ε := Errno) (u, changes)) := by
      cases node with
      | dir => simp [h₁] at h
      | link t =>
        cases h₂ : fs l₂ with
        | none => simpa [h₁, h₂] using h
        | some node₂ => cases node₂ <;> simp_all
      | other d =>
        cases h₂ : fs l₂ with
        | none => simpa [h₁, h₂] using h
        | some node₂ => cases node₂ <;> simp_all
    obtain ⟨hdir₁, hdir₂, h⟩ := hsplit
    refine ⟨l₁, l₂, node, hl₁, hl₂, h₁, hdir₁, hdir₂, ?_⟩
    split_ifs at h with hslash heq
    · cases h
      exact .inl ⟨heq, rfl⟩
    · cases h
      exact .inr ⟨heq, rfl⟩

theorem unlink_eq_ok {p : Arg N} {u : Unit} (h : unlink base p fs = .ok (u, changes)) :
    ∃ l, resolve fs false base p.names = .ok l ∧ (fs l).isSome ∧ fs l ≠ some .dir ∧
      changes = [(l, none)] := by
  obtain ⟨l, hl, h⟩ := exists_of_resolve_bind h
  cases hn : fs l with
  | none => simp only [hn] at h; cases h
  | some node =>
    cases node with
    | dir => simp only [hn] at h; cases h
    | link t =>
      simp only [hn] at h
      split_ifs at h
      cases h
      exact ⟨l, hl, by simp [hn], by simp [hn], rfl⟩
    | other d =>
      simp only [hn] at h
      split_ifs at h
      cases h
      exact ⟨l, hl, by simp [hn], by simp [hn], rfl⟩

end Cases

/-- The file system, and what was changed so far. -/
structure World (N D : Type) where
  fs : Fs N D
  /-- The locations that were created, replaced, renamed, changed or removed. -/
  touched : List (Loc N) := []
  /-- The number of calls so far. -/
  calls : ℕ := 0

/-- One call.  The kernel may refuse any. -/
def call [DecidableEq N] {α : Type} (refuse : ℕ → Option Refusal)
    (f : Fs N D → Except Errno (Answer N D α)) :
    EStateM Errno (World N D) α := fun w =>
  match refuse w.calls with
  | some r => .error (.refused r) { w with calls := w.calls + 1 }
  | none =>
    match f w.fs with
    | .error e => .error e { w with calls := w.calls + 1 }
    | .ok (a, changes) =>
      .ok a { fs := changes.foldl set w.fs, touched := w.touched ++ changes.map Prod.fst,
              calls := w.calls + 1 }

end Posix
