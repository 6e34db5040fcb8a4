import Replicore.Lib.Posix

/-!
# Staying below a directory

Programs whose calls change only what is below a directory `root`.  `Held root A` says that the file
system satisfies `A` and that everything touched so far is below `root`; a call keeps that when the
locations it changes are (`held_call`).

A call with a name in a directory changes a location in the directory that the path resolves to, so
what has to be known is where the directory part of a path leads (`Opened`), and that this does not
change on the way (`Opened.set`).  `createDirAll` makes missing directories below the deepest one
that exists (`createDirAll_spec`).
-/

namespace Posix

variable {N D : Type}

/-- Strictly below. -/
def Below (root l : Loc N) : Prop := root <+: l ∧ l ≠ root

theorem below_concat {root l : Loc N} (h : root <+: l) (n : N) : Below root (l ++ [n]) := by
  refine ⟨h.trans (List.prefix_append _ _), fun heq => ?_⟩
  have hlen := h.length_le
  rw [← heq, List.length_append, List.length_singleton] at hlen
  omega

/-- The file system satisfies `A`, and everything touched is below `root`. -/
def Held (root : Loc N) (A : Fs N D → Prop) (w : World N D) : Prop :=
  A w.fs ∧ ∀ l ∈ w.touched, Below root l

section Held

variable [DecidableEq N] {α : Type} {root : Loc N} {A : Fs N D → Prop} {B : α → Fs N D → Prop}
  {E : Errno → Fs N D → Prop} {refuse : ℕ → Option Refusal}
  {f : Fs N D → Except Errno (Answer N D α)}

/-- A call that changes only what is below `root`. -/
theorem held_call (hrefused : ∀ fs r, A fs → E (.refused r) fs)
    (herror : ∀ fs e, A fs → f fs = .error e → E e fs)
    (hok : ∀ fs a changes, A fs → f fs = .ok (a, changes) →
      B a (changes.foldl set fs) ∧ ∀ c ∈ changes, Below root c.1) :
    Hoare.Triple (Held root A) (call refuse f) (fun a => Held root (B a))
      fun e => Held root (E e) := by
  rintro w ⟨hA, htouched⟩
  unfold call
  cases refuse w.calls with
  | some r => exact ⟨hrefused _ r hA, htouched⟩
  | none =>
    cases hf : f w.fs with
    | error e => exact ⟨herror _ e hA hf, htouched⟩
    | ok x =>
      obtain ⟨a, changes⟩ := x
      obtain ⟨hB, hbelow⟩ := hok _ a changes hA hf
      refine ⟨hB, fun l hl => ?_⟩
      obtain hl | hl := List.mem_append.1 hl
      · exact htouched l hl
      · obtain ⟨c, hc, rfl⟩ := List.mem_map.1 hl
        exact hbelow c hc

/-- A call that keeps an assertion, whatever it answers. -/
theorem held_call_of_keeps {I : Fs N D → Prop}
    (hok : ∀ fs a changes, I fs → f fs = .ok (a, changes) →
      I (changes.foldl set fs) ∧ ∀ c ∈ changes, Below root c.1) :
    Hoare.Keeps (Held root I) (call refuse f) :=
  held_call (fun _ _ h => h) (fun _ _ h _ => h) hok

end Held

section Set

variable {fs : Fs N D} {root l : Loc N} {names : List N} {n : N}

/-- A tree in which `root` is a directory. -/
structure Sound (root : Loc N) (fs : Fs N D) : Prop where
  wf : WellFormed fs
  dir : fs root = some .dir

/-- There is something at the location, or a directory to put it in. -/
def Placed (fs : Fs N D) (loc : Loc N) : Prop :=
  (fs loc).isSome ∨ ∃ l n, loc = l ++ [n] ∧ fs l = some .dir

/-- The names lead to the directory `l`, which is `root` or below it. -/
structure Opened (root : Loc N) (names : List N) (l : Loc N) (fs : Fs N D) : Prop
    extends Sound root fs where
  resolves : resolve fs true root names = .ok l
  isDir : fs l = some .dir
  inside : root <+: l

/-- A name in the directory. -/
theorem Opened.resolve_concat (h : Opened root names l fs) :
    resolve fs false root (names ++ [n]) = .ok (l ++ [n]) :=
  Posix.resolve_concat (fun _ _ => rfl) h.resolves h.isDir

theorem Opened.eq_concat (h : Opened root names l fs) {loc : Loc N}
    (hloc : resolve fs false root (names ++ [n]) = .ok loc) : loc = l ++ [n] :=
  Except.ok.inj (hloc.symm.trans h.resolve_concat)

theorem Opened.placed (h : Opened root names l fs) : Placed fs (l ++ [n]) :=
  .inr ⟨l, n, rfl, h.isDir⟩

variable [DecidableEq N] {c : Change N D}

theorem set_self (fs : Fs N D) (c : Change N D) : set fs c c.1 = c.2 := if_pos rfl

theorem set_of_ne (fs : Fs N D) (h : l ≠ c.1) : set fs c l = fs l := if_neg h

/-- A change below `root` that puts nothing where there is no directory, and nothing in the place of
a directory. -/
theorem Sound.set (h : Sound root fs) (hbelow : Below root c.1)
    (hplaced : c.2.isSome → Placed fs c.1) (hdir : fs c.1 = some .dir → c.2 = some .dir) :
    Sound root (set fs c) := by
  have hroot : root ≠ c.1 := Ne.symm hbelow.2
  refine ⟨⟨?_, fun l n hn => ?_⟩, ?_⟩
  · have hnil : [] ≠ c.1 := by
      intro heq
      have := hbelow.1
      rw [← heq, List.prefix_nil] at this
      exact hroot (this.trans heq)
    rw [set_of_ne fs hnil]
    exact h.wf.root
  · by_cases heq : l ++ [n] = c.1
    · have hne : l ≠ c.1 := fun hl => by simp [hl] at heq
      rw [set_of_ne fs hne]
      rw [heq, set_self] at hn
      obtain hsome | ⟨l', n', hl', hdir'⟩ := hplaced hn
      · exact h.wf.parent l n (heq ▸ hsome)
      · obtain ⟨rfl, -⟩ := List.append_inj' (heq.trans hl') rfl
        exact hdir'
    · rw [set_of_ne fs heq] at hn
      have hl := h.wf.parent l n hn
      by_cases hlc : l = c.1
      · subst hlc
        rw [set_self]
        exact hdir hl
      · rw [set_of_ne fs hlc]
        exact hl
  · rw [set_of_ne fs hroot]
    exact h.dir

/-- What is neither a directory nor a link may change. -/
theorem Opened.set (h : Opened root names l fs) (hplain : Plain (fs c.1)) (hbelow : Below root c.1)
    (hplaced : c.2.isSome → Placed fs c.1) : Opened root names l (Posix.set fs c) := by
  have hdir : fs c.1 = some .dir → c.2 = some .dir := fun hd => absurd trivial (hplain _ hd)
  have htree : ∀ loc node, Node.IsTree node → fs loc = some node →
      Posix.set fs c loc = some node := by
    intro loc node ht hloc
    rw [set_of_ne fs (by rintro rfl; exact hplain _ hloc ht)]
    exact hloc
  have hl := htree l .dir trivial h.isDir
  refine ⟨h.toSound.set hbelow hplaced hdir, resolve_mono htree (fun t ht => ?_) h.resolves, hl,
    h.inside⟩
  rw [hl] at ht
  cases ht

/-- A new directory is empty. -/
theorem Opened.mkdir (h : Opened root names l fs) (hn : fs (l ++ [n]) = none) :
    Opened root (names ++ [n]) (l ++ [n]) (Posix.set fs (l ++ [n], some .dir)) ∧
      ∀ m, Posix.set fs (l ++ [n], some .dir) (l ++ [n] ++ [m]) = none := by
  have hplain : Plain (fs (l ++ [n])) := hn ▸ plain_none
  have hset := h.set (c := (l ++ [n], some .dir)) hplain (below_concat h.inside n) fun _ => h.placed
  have hself : Posix.set fs (l ++ [n], some .dir) (l ++ [n]) = some .dir := set_self fs _
  refine ⟨⟨hset.toSound, ?_, hself, h.inside.trans (List.prefix_append _ _)⟩, fun m => ?_⟩
  · refine Posix.resolve_concat (fun t ht => ?_) hset.resolves hset.isDir
    rw [hself] at ht
    cases ht
  · rw [set_of_ne fs (by simp)]
    by_contra hsome
    have hparent := h.wf.parent (l ++ [n]) m (Option.isSome_iff_ne_none.2 hsome)
    rw [hn] at hparent
    cases hparent

end Set

/-! ### Making directories -/

section CreateDirAll

/-- The directory exists, or else this is the error. -/
def requireDir (base : Loc N) (names : List N) (e : Errno) : EStateM Errno (World N D) Unit :=
  fun w => if (dirAt base names w.fs).isSome then .ok () w else .error e w

/-- `create_dir_all` below an existing directory; the names in reverse. -/
def createDirAll [DecidableEq N] (refuse : ℕ → Option Refusal) (base : Loc N) :
    List N → EStateM Errno (World N D) Unit
  | [] => requireDir base [] .noent
  | n :: up => do
    let names := (n :: up).reverse
    match ← Hoare.attempt (call refuse (makeNode .dir base names)) with
    | .ok () => pure ()
    | .error .noent => do
      createDirAll refuse base up
      match ← Hoare.attempt (call refuse (makeNode .dir base names)) with
      | .ok () => pure ()
      | .error e => requireDir base names e
    | .error e => requireDir base names e

/-- The deepest directory on the way that exists; the names in reverse. -/
def deepest (base : Loc N) (fs : Fs N D) : List N → Loc N
  | [] => base
  | n :: up =>
    match dirAt base (n :: up).reverse fs with
    | some l => l
    | none => deepest base fs up

variable {fs : Fs N D} {root l : Loc N} {rev : List N} {n : N}

theorem deepest_of_dirAt (h : dirAt root rev.reverse fs = some l) : deepest root fs rev = l := by
  cases rev with
  | nil =>
    have hl := (dirAt_eq_some.1 h).1
    exact Except.ok.inj hl
  | cons n up => rw [deepest, h]

theorem opened_of_dirAt (hs : Sound root fs) (hin : root <+: deepest root fs rev)
    (h : dirAt root rev.reverse fs = some l) : Opened root rev.reverse l fs := by
  obtain ⟨hres, hl⟩ := dirAt_eq_some.1 h
  exact ⟨hs, hres, hl, deepest_of_dirAt h ▸ hin⟩

/-- A directory that does not exist is not resolved. -/
theorem dirAt_concat_eq_none {names : List N} (hs : Sound root fs)
    (h : ∀ l, dirAt root names fs = some l → fs (l ++ [n]) = none) :
    dirAt root (names ++ [n]) fs = none := by
  by_contra hne
  obtain ⟨loc, hloc⟩ := Option.ne_none_iff_exists'.1 hne
  obtain ⟨hres, hdir⟩ := dirAt_eq_some.1 hloc
  obtain ⟨l, hl, hldir, hlast⟩ := exists_of_resolve_concat hs.wf hs.dir hres
  have hnone := h l (dirAt_eq_some.2 ⟨hl, hldir⟩)
  rw [hlast (fun t ht => by rw [hnone] at ht; cases ht), hnone] at hdir
  cases hdir

/-- Nothing is lost. -/
def Grown (fs fs' : Fs N D) : Prop := ∀ l node, fs l = some node → fs' l = some node

/-- What `create_dir_all` leaves behind when it ends well: the directory, as it was or empty. -/
def Made (root : Loc N) (names : List N) (fs₀ fs : Fs N D) : Prop :=
  Grown fs₀ fs ∧ ∃ l, Opened root names l fs ∧ (fs = fs₀ ∨ ∀ n, fs (l ++ [n]) = none)

theorem made_of_dirAt {fs₀ : Fs N D} (hs : Sound root fs₀) (hin : root <+: deepest root fs₀ rev)
    (h : dirAt root rev.reverse fs₀ = some l) : Made root rev.reverse fs₀ fs₀ :=
  ⟨fun _ _ h => h, l, opened_of_dirAt hs hin h, .inl rfl⟩

theorem requireDir_spec {names : List N} {e : Errno} {A : Fs N D → Prop} {B : Fs N D → Prop}
    (h : ∀ fs l, A fs → dirAt root names fs = some l → B fs) :
    Hoare.Triple (Held root A) (requireDir root names e) (fun _ => Held root B)
      fun _ => Held root A := by
  rintro w ⟨hA, htouched⟩
  unfold requireDir
  split_ifs with hdir
  · obtain ⟨l, hl⟩ := Option.isSome_iff_exists.1 hdir
    exact ⟨h _ l hA hl, htouched⟩
  · exact ⟨hA, htouched⟩

variable [DecidableEq N]

theorem Grown.set {fs₀ : Fs N D} (h : Grown fs₀ fs) {c : Change N D} (hc : fs c.1 = none) :
    Grown fs₀ (Posix.set fs c) := by
  intro l node hl
  have hfs := h l node hl
  rw [set_of_ne fs (by rintro rfl; rw [hc] at hfs; cases hfs)]
  exact hfs

theorem made_of_mkdir {names : List N} {fs₀ : Fs N D} (hgrown : Grown fs₀ fs)
    (h : Opened root names l fs) (hn : fs (l ++ [n]) = none) :
    Made root (names ++ [n]) fs₀ (Posix.set fs (l ++ [n], some .dir)) := by
  obtain ⟨hopened, hempty⟩ := h.mkdir hn
  exact ⟨hgrown.set hn, l ++ [n], hopened, .inr hempty⟩

variable {refuse : ℕ → Option Refusal}

/-- One `mkdir`: the directory, or nothing; and `noent` means that it is not there. -/
theorem mkdir_spec {names : List N} {fs₀ : Fs N D} (hs : Sound root fs) (hgrown : Grown fs₀ fs)
    (hin : ∀ l, dirAt root names fs = some l → fs (l ++ [n]) = none → root <+: l) :
    Hoare.Triple (Held root (· = fs)) (call refuse (makeNode .dir root (names ++ [n])))
      (fun _ => Held root (Made root (names ++ [n]) fs₀))
      fun e => Held root fun fs' => fs' = fs ∧ (e = .noent → dirAt root (names ++ [n]) fs = none) := by
  refine held_call ?_ ?_ ?_
  · rintro _ r rfl
    exact ⟨rfl, fun h => (by cases h)⟩
  · rintro fs' e rfl herr
    refine ⟨rfl, fun hnoent => ?_⟩
    subst hnoent
    by_contra hne
    obtain ⟨loc, hloc⟩ := Option.ne_none_iff_exists'.1 hne
    obtain ⟨l, hl, hdir, -⟩ := exists_of_resolve_concat hs.wf hs.dir (dirAt_eq_some.1 hloc).1
    have hres : resolve fs' false root (names ++ [n]) = .ok (l ++ [n]) :=
      resolve_concat (fun _ _ => rfl) hl hdir
    obtain herr | herr := makeNode_eq_error herr
    · rw [hres] at herr
      cases herr
    · cases herr
  · rintro _ u changes rfl hok
    obtain ⟨loc, hloc, hnone, rfl⟩ := makeNode_eq_ok hok
    obtain ⟨l, hl, hdir, hlast⟩ := exists_of_resolve_concat hs.wf hs.dir hloc
    obtain rfl := hlast fun _ _ => rfl
    have hopened : Opened root names l _ :=
      ⟨hs, hl, hdir, hin l (dirAt_eq_some.2 ⟨hl, hdir⟩) hnone⟩
    refine ⟨made_of_mkdir hgrown hopened hnone, fun c hc => ?_⟩
    obtain rfl := List.mem_singleton.1 hc
    exact below_concat hopened.inside n

/-- The directories are made below the deepest one that exists, so `root` must not be left there. -/
theorem createDirAll_spec {fs₀ : Fs N D} (hs : Sound root fs₀)
    (hin : root <+: deepest root fs₀ rev) :
    Hoare.Triple (Held root (· = fs₀)) (createDirAll refuse root rev)
      (fun _ => Held root (Made root rev.reverse fs₀)) fun _ => Held root (Sound root) := by
  induction rev with
  | nil =>
    refine (requireDir_spec (B := Made root [] fs₀) ?_).conseq (fun _ h => h) (fun _ _ h => h) ?_
    · rintro _ l rfl hl
      exact made_of_dirAt hs hin (show dirAt root [].reverse _ = some l from hl)
    · rintro _ w ⟨hfs, htouched⟩
      exact ⟨hfs ▸ hs, htouched⟩
  | cons n up ih =>
    have hnames : (n :: up).reverse = up.reverse ++ [n] := List.reverse_cons
    -- the directory above is the deepest one, if this one is missing
    have hup : dirAt root (up.reverse ++ [n]) fs₀ = none → root <+: deepest root fs₀ up := by
      intro hnone
      rwa [deepest, hnames, hnone] at hin
    have hfirst : ∀ l, dirAt root up.reverse fs₀ = some l → fs₀ (l ++ [n]) = none →
        root <+: l := by
      intro l hl hn
      have hnone : dirAt root (up.reverse ++ [n]) fs₀ = none :=
        dirAt_concat_eq_none hs fun l' hl' => by
          cases hl.symm.trans hl'
          exact hn
      exact deepest_of_dirAt hl ▸ hup hnone
    unfold createDirAll
    rw [hnames]
    refine (mkdir_spec hs (fun _ _ h => h) hfirst).attempt.bind fun r => ?_
    cases r with
    | ok _ => exact fun w hw => hw
    | error e =>
      have hdone : Hoare.Triple (Held root (· = fs₀)) (requireDir root (up.reverse ++ [n]) e)
          (fun _ => Held root (Made root (up.reverse ++ [n]) fs₀)) fun _ => Held root (Sound root) := by
        refine (requireDir_spec ?_).conseq (fun _ h => h) (fun _ _ h => h) ?_
        · rintro _ l rfl hl
          rw [← hnames] at hl ⊢
          exact made_of_dirAt hs hin hl
        · rintro _ w ⟨hfs, htouched⟩
          exact ⟨hfs ▸ hs, htouched⟩
      cases e with
      | noent =>
        rintro w ⟨⟨hfs, hnoent⟩, htouched⟩
        have hnone := hnoent rfl
        refine ((ih (hup hnone)).bind fun _ => ?_) w ⟨hfs, htouched⟩
        rintro w' ⟨⟨hgrown, l, hopened, hfresh⟩, htouched'⟩
        -- the directory is still missing
        have hnone' : dirAt root (up.reverse ++ [n]) w'.fs = none := by
          obtain hsame | hempty := hfresh
          · rw [hsame]
            exact hnone
          · refine dirAt_concat_eq_none hopened.toSound fun l' hl' => ?_
            cases Except.ok.inj (hopened.resolves.symm.trans (dirAt_eq_some.1 hl').1)
            exact hempty n
        have hinside : ∀ l', dirAt root up.reverse w'.fs = some l' → w'.fs (l' ++ [n]) = none →
            root <+: l' := by
          intro l' hl' _
          cases Except.ok.inj (hopened.resolves.symm.trans (dirAt_eq_some.1 hl').1)
          exact hopened.inside
        refine ((mkdir_spec hopened.toSound hgrown hinside).attempt.bind fun r => ?_) w'
          ⟨rfl, htouched'⟩
        cases r with
        | ok _ => exact fun w hw => hw
        | error e =>
          refine (requireDir_spec (A := (· = w'.fs)) ?_).conseq (fun w hw => ⟨hw.1.1, hw.2⟩)
            (fun _ _ h => h) ?_
          · rintro _ l' rfl hl'
            rw [hnone'] at hl'
            cases hl'
          · rintro _ w ⟨hfs', ht⟩
            exact ⟨hfs' ▸ hopened.toSound, ht⟩
      | exist => exact hdone.pre fun w ⟨hfs, ht⟩ => ⟨hfs.1, ht⟩
      | notdir => exact hdone.pre fun w ⟨hfs, ht⟩ => ⟨hfs.1, ht⟩
      | isdir => exact hdone.pre fun w ⟨hfs, ht⟩ => ⟨hfs.1, ht⟩
      | loop => exact hdone.pre fun w ⟨hfs, ht⟩ => ⟨hfs.1, ht⟩
      | refused r => exact hdone.pre fun w ⟨hfs, ht⟩ => ⟨hfs.1, ht⟩

end CreateDirAll

/-! ### The calls -/

section Calls

variable [DecidableEq N] {root l : Loc N} {I : Fs N D → Prop} {refuse : ℕ → Option Refusal}
  {dirs : List N} {n : N}

theorem set_eq_self (fs : Fs N D) (l : Loc N) : Posix.set fs (l, fs l) = fs := by
  funext l'
  by_cases hl : l' = l
  · subst hl
    exact set_self fs (l', fs l')
  · exact set_of_ne fs hl

theorem keeps_changeAttr {follow : Bool} {p : Arg N}
    (hbelow : ∀ fs loc, I fs → resolve fs (follow || p.slash) root p.names = .ok loc →
      Below root loc) :
    Hoare.Keeps (Held root I) (call refuse (changeAttr follow root p)) := by
  refine held_call_of_keeps fun fs u changes hI hok => ?_
  obtain ⟨loc, hloc, rfl⟩ := changeAttr_eq_ok hok
  refine ⟨?_, fun c hc => ?_⟩
  · rw [List.foldl_cons, List.foldl_nil, set_eq_self]
    exact hI
  · obtain rfl := List.mem_singleton.1 hc
    exact hbelow fs loc hI hloc

/-- A change of a name in a directory, under another name in the same directory. -/
theorem unlink_spec :
    Hoare.Triple (Held (D := D) root (Opened root dirs l))
      (call refuse (unlink root { names := dirs ++ [n] })) (fun _ => Held root (Sound root))
      fun _ => Held root (Sound root) := by
  refine held_call (fun fs r h => h.toSound) (fun fs e h _ => h.toSound)
    fun fs u changes h hok => ?_
  obtain ⟨loc, hloc, -, hdir, rfl⟩ := unlink_eq_ok hok
  obtain rfl := h.eq_concat hloc
  refine ⟨?_, fun c hc => ?_⟩
  · exact h.toSound.set (below_concat h.inside n) (fun hnone => by cases hnone)
      fun hd => absurd hd hdir
  · obtain rfl := List.mem_singleton.1 hc
    exact below_concat h.inside n

/-- What is moved is at a name in one directory and ends at a name in the other. -/
theorem rename_changes {fs : Fs N D} {a b : Loc N} {srcDirs destDirs : List N}
    {n m : N} {src dest : Arg N} {changes : List (Change N D)} {u : Unit}
    (hsrc : Opened root srcDirs a fs) (hdest : Opened root destDirs b fs)
    (hn : src.names = srcDirs ++ [n]) (hm : dest.names = destDirs ++ [m])
    (hok : rename root src dest fs = .ok (u, changes)) :
    (∀ c ∈ changes, Below root c.1) ∧ Sound root (changes.foldl Posix.set fs) ∧
      ∃ node, fs (a ++ [n]) = some node ∧ changes.foldl Posix.set fs (b ++ [m]) = some node ∧
        ∀ loc, loc ≠ b ++ [m] → changes.foldl Posix.set fs loc = none ∨
          changes.foldl Posix.set fs loc = fs loc := by
  obtain ⟨l₁, l₂, node, hl₁, hl₂, hnode, hdir₁, hdir₂, hcases⟩ := rename_eq_ok hok
  rw [hn] at hl₁
  rw [hm] at hl₂
  obtain rfl := hsrc.eq_concat hl₁
  obtain rfl := hdest.eq_concat hl₂
  have hbelow₁ := below_concat hsrc.inside n
  have hbelow₂ := below_concat hdest.inside m
  obtain ⟨heq, rfl⟩ | ⟨hne, rfl⟩ := hcases
  · exact ⟨fun c hc => (by cases hc), hsrc.toSound, node, hnode, heq ▸ hnode,
      fun loc _ => .inr rfl⟩
  · simp only [List.foldl_cons, List.foldl_nil]
    have hs₁ : Sound root (Posix.set fs (a ++ [n], none)) :=
      hsrc.toSound.set hbelow₁ (fun hnone => by cases hnone) fun hd => by
        rw [hnode] at hd
        cases hd
        exact absurd rfl hdir₁
    have hl₂ : Posix.set fs (a ++ [n], none) (b ++ [m]) = fs (b ++ [m]) := set_of_ne fs hne.symm
    have hb : Posix.set fs (a ++ [n], none) b = some .dir := by
      rw [set_of_ne fs (c := (a ++ [n], none)) (l := b)]
      · exact hdest.isDir
      · rintro rfl
        rw [hdest.isDir] at hnode
        cases hnode
        exact hdir₁ rfl
    refine ⟨fun c hc => ?_, hs₁.set hbelow₂ (fun _ => .inr ⟨b, m, rfl, hb⟩) fun hd => ?_, node, hnode,
      set_self _ (b ++ [m], some node), fun loc hloc => ?_⟩
    · simp only [List.mem_cons, List.not_mem_nil, or_false] at hc
      obtain rfl | rfl := hc
      · exact hbelow₁
      · exact hbelow₂
    · exact absurd (hl₂ ▸ hd) hdir₂
    · rw [set_of_ne _ hloc]
      by_cases hl : loc = a ++ [n]
      · subst hl
        exact .inl (set_self fs _)
      · exact .inr (set_of_ne fs hl)

end Calls

end Posix
