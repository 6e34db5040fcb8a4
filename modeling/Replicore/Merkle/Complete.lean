import Replicore.Merkle.Agree
import Replicore.Merkle.Pull

/-!
# What a pull brings over

After a pull that skips no leaf, the puller has a row at or above every row of the responder that
has a leaf of its own.  A row with other rows below its path has none: the entry of its name became
that of the directory, and no hash and no leaf tells of it.  The puller is left with whatever it
had there.
-/

namespace Replicore

open Bytes Hier MerkleTree

/-! ### Rows as listed -/

/-- Rows as `all_files` returns them: sorted by path, with non-empty components. -/
structure WellListed (rows : List FileRow) : Prop where
  proper : ∀ r ∈ rows, Proper '/' r.path
  sorted : rows.Pairwise fun a b => a.path < b.path
  fits : ∀ r ∈ rows, r.vv.FitsU64

theorem wellListed_allFiles {st : Store}
    (h : ∀ r ∈ st.allFiles, Proper '/' r.path ∧ r.vv.FitsU64) : WellListed st.allFiles where
  proper r hr := (h r hr).1
  sorted := List.pairwise_map.2 st.files.sorted
  fits r hr := (h r hr).2

theorem covers_allFiles {st : Store} {r : FileRow} (hr : r ∈ st.allFiles) :
    st.Covers r.path r.vv := by
  obtain ⟨⟨p, row⟩, he, rfl⟩ := List.mem_map.1 hr
  exact ⟨row, OrdMap.mem_entries.1 he, le_rfl⟩

section

variable [Blake3]

/-- The bytes of two leaves at one path end with their vectors. -/
theorem vv_eq_of_leafBytes {r r' : FileRow} (hp : r'.path = r.path) (hr : r.vv.FitsU64)
    (hr' : r'.vv.FitsU64) (h : leafBytes r = leafBytes r') : r.vv = r'.vv := by
  unfold leafBytes at h
  rw [hp] at h
  have h1 := List.append_cancel_left h
  simp only [List.cons.injEq, true_and] at h1
  obtain ⟨-, h2⟩ := List.append_inj h1.2 (by simp [Hash.bytes])
  obtain ⟨-, h3⟩ := List.append_inj h2 (by simp [NodeId.bytes])
  obtain ⟨-, h4⟩ := List.append_inj h3 (by simp [Hash.bytes])
  exact VersionVector.serialize_inj hr hr' h4

/-! ### No two nodes have one hash -/

/-- The listings of a tree. -/
def MerkleTree.listings (t : MerkleTree) : List Children := t.dirs.entries.map Prod.snd

/-- Collision-freeness on the nodes of two trees: nodes with equal hashes are leaves of the same
bytes, or directories of the same children. -/
structure NodesApart (rows rows' : List FileRow) : Prop where
  leaf : ∀ r ∈ rows, ∀ r' ∈ rows', leafHash r = leafHash r' → leafBytes r = leafBytes r'
  dir : ∀ c ∈ (build rows).listings, ∀ c' ∈ (build rows').listings,
    hashChildren c = hashChildren c' → c = c'
  leaf_dir : ∀ r ∈ rows, ∀ c ∈ (build rows').listings, leafHash r ≠ hashChildren c
  dir_leaf : ∀ r ∈ rows', ∀ c ∈ (build rows).listings, leafHash r ≠ hashChildren c

theorem mem_listings {rows : List FileRow} {t : MerkleTree} (h : Listed rows t.dirs) {d : Path}
    (hd : IsDir rows d) : childrenOf t.dirs d ∈ t.listings := by
  obtain ⟨c, hc⟩ := Option.isSome_iff_exists.1 ((h.dir d).2 hd)
  have hmem : (d, c) ∈ t.dirs.entries := OrdMap.mem_entries.2 hc
  rw [childrenOf, hc]
  exact List.mem_map_of_mem (f := Prod.snd) hmem

/-! ### A row that has a leaf -/

namespace IsTree

variable {rows : List FileRow} {t : MerkleTree}

theorem eq_of_path (h : IsTree rows t) {r r' : FileRow} (hr : r ∈ rows) (hr' : r' ∈ rows)
    (hp : r.path = r'.path) : r = r' :=
  Option.some_injective _ (((h.leaves _ r).2 ⟨hr, hp⟩).symm.trans ((h.leaves _ r').2 ⟨hr', rfl⟩))

/-- Its entry is that of its leaf. -/
theorem look_leaf (h : IsTree rows t) {r : FileRow} (hr : r ∈ rows) (hleaf : ¬ IsDir rows r.path)
    {d n : Path} (hn : IsName '/' n) (hp : r.path = joinPrefix d n) :
    t.dirs.look d n = some (leafHash r, false) := by
  have hsplit : splitParent r.path = (d, n) := hp ▸ Hier.split_join hn
  obtain ⟨⟨x, b⟩, hx⟩ := Option.isSome_iff_exists.1 (h.row r hr)
  rw [hsplit] at hx
  have hb : b = false := by
    rw [hp] at hleaf
    exact Bool.eq_false_iff.2 fun hb => hleaf ((h.isDir d n x b hx).1 hb)
  subst hb
  obtain ⟨r', hr', hp', rfl⟩ := h.leaf d n x hx
  rw [h.eq_of_path hr' hr (hp'.trans hp.symm)] at hx
  exact hx

/-- The entry of a directory has the hash of its children. -/
theorem look_dir (h : IsTree rows t) {d n : Path} (hn : IsName '/' n)
    (hdir : IsDir rows (joinPrefix d n)) :
    t.dirs.look d n = some (hashChildren (childrenOf t.dirs (joinPrefix d n)), true) := by
  have hsplit : splitParent (joinPrefix d n) = (d, n) := Hier.split_join hn
  have hhash := h.hashed _ (join_ne_nil hn) hdir
  rw [Hashed, hsplit] at hhash
  exact hhash

end IsTree

theorem WellListed.isTree {rows : List FileRow} (h : WellListed rows) : IsTree rows (build rows) :=
  isTree_build h.proper h.sorted

/-- A row of the responder that the puller had when the pull began. -/
def Had (rows' : List FileRow) (r : FileRow) : Prop := ∃ r' ∈ rows', r'.path = r.path ∧ r'.vv = r.vv

section

variable {rows rows' : List FileRow} (hrows : WellListed rows) (hrows' : WellListed rows')
  (hapart : NodesApart rows rows')

include hrows hrows' hapart

/-- Equal leaves. -/
theorem had_of_leaf {r : FileRow} (hr : r ∈ rows) {d n : Path} (hp : r.path = joinPrefix d n)
    (hlook : (build rows').dirs.look d n = some (leafHash r, false)) : Had rows' r := by
  have ht' := hrows'.isTree
  obtain ⟨r', hr', hp', hhash⟩ := ht'.leaf d n _ hlook
  have hpath : r'.path = r.path := hp'.trans hp.symm
  refine ⟨r', hr', hpath, ?_⟩
  exact (vv_eq_of_leafBytes hpath (hrows.fits r hr) (hrows'.fits r' hr')
    (hapart.leaf r hr r' hr' hhash)).symm

/-- Below directories of equal hashes, the puller had every row that has a leaf. -/
theorem had_of_hash_eq {d : Path} (hd : IsDir rows d) (hd' : IsDir rows' d)
    (heq : hashChildren (childrenOf (build rows).dirs d) =
      hashChildren (childrenOf (build rows').dirs d))
    {r : FileRow} (hr : r ∈ rows) (hleaf : ¬ IsDir rows r.path) (hu : Under '/' d r.path) :
    Had rows' r := by
  have ht := hrows.isTree
  have ht' := hrows'.isTree
  have hp := hrows.proper r hr
  -- from one directory to the next on the way to the row
  induction hk : r.path.length - d.length using Nat.strong_induction_on generalizing d with
  | _ k ih =>
    have hsame : ∀ n, (build rows).dirs.look d n = (build rows').dirs.look d n := by
      intro n
      rw [look_eq_childrenOf, look_eq_childrenOf, hapart.dir _ (mem_listings ht.toListed hd) _
        (mem_listings ht'.toListed hd') heq]
    obtain ⟨n, hn, hpath | hbelow⟩ := hu.exists_child hp
    · refine had_of_leaf hrows hrows' hapart hr hpath ?_
      rw [← hsame, ht.look_leaf hr hleaf hn hpath]
    · have hdir : IsDir rows (joinPrefix d n) := .inr ⟨r, hr, hbelow⟩
      have hlook := (hsame n).symm.trans (ht.look_dir hn hdir)
      have hdir' : IsDir rows' (joinPrefix d n) := (ht'.isDir d n _ true hlook).1 rfl
      have hhash : hashChildren (childrenOf (build rows).dirs (joinPrefix d n)) =
          hashChildren (childrenOf (build rows').dirs (joinPrefix d n)) := by
        rw [ht'.look_dir hn hdir', Option.some.injEq, Prod.mk.injEq] at hlook
        exact hlook.1.symm
      have hlt : d.length < (joinPrefix d n).length := by
        refine Hier.under_join.length_lt ?_
        exact ((hd.properDir hrows.proper).join hn).ne_nil
      have hlt' : (joinPrefix d n).length < r.path.length := hbelow.length_lt hp.ne_nil
      exact ih (r.path.length - (joinPrefix d n).length) (by omega) hdir hdir' hhash hbelow rfl

/-- An entry that is pruned: the puller had every row with a leaf that is behind it. -/
theorem had_of_pruned {d n : Path} {x : Hash × Bool} (hlook : (build rows).dirs.look d n = some x)
    (hpruned : ((childrenOf (build rows').dirs d).get? n).map Prod.fst = some x.1) {r : FileRow}
    (hr : r ∈ rows) (hleaf : ¬ IsDir rows r.path)
    (hor : r.path = joinPrefix d n ∨ Under '/' (joinPrefix d n) r.path) : Had rows' r := by
  have ht := hrows.isTree
  have ht' := hrows'.isTree
  have hn : IsName '/' n := ht.name d n x hlook
  rw [← look_eq_childrenOf] at hpruned
  obtain ⟨⟨y, b⟩, hlook', hy⟩ := Option.map_eq_some_iff.1 hpruned
  change y = x.1 at hy
  rcases hor with hp | hbelow
  · rw [ht.look_leaf hr hleaf hn hp, Option.some.injEq] at hlook
    subst hlook
    cases b with
    | false =>
      rw [hy] at hlook'
      exact had_of_leaf hrows hrows' hapart hr hp hlook'
    | true =>
      -- a directory with the hash of a leaf
      have hdir' : IsDir rows' (joinPrefix d n) := (ht'.isDir d n y true hlook').1 rfl
      rw [ht'.look_dir hn hdir', Option.some.injEq, Prod.mk.injEq] at hlook'
      exact absurd (hy.symm.trans hlook'.1.symm)
        (hapart.leaf_dir r hr _ (mem_listings ht'.toListed hdir'))
  · have hdir : IsDir rows (joinPrefix d n) := .inr ⟨r, hr, hbelow⟩
    rw [ht.look_dir hn hdir, Option.some.injEq] at hlook
    subst hlook
    cases b with
    | false =>
      obtain ⟨r', hr', -, hhash⟩ := ht'.leaf d n y hlook'
      exact absurd (hhash.symm.trans hy)
        (hapart.dir_leaf r' hr' _ (mem_listings ht.toListed hdir))
    | true =>
      have hdir' : IsDir rows' (joinPrefix d n) := (ht'.isDir d n y true hlook').1 rfl
      rw [ht'.look_dir hn hdir', Option.some.injEq, Prod.mk.injEq] at hlook'
      exact had_of_hash_eq hrows hrows' hapart hdir hdir' (hy.symm.trans hlook'.1.symm) hr hleaf
        hbelow

end

/-! ### The descent -/

/-- The puller's side of a pull: rows only grow, skips are counted, and a row of the responder
without a leaf leaves the puller's row at its path alone, unless conflict copies are named like
it. -/
structure PullFrame (rows : List FileRow) (s s' : Puller) : Prop where
  grow : Store.RowsGrow (fun _ => True) s.store s'.store
  skips : s.skips ≤ s'.skips
  frame : ∀ p, IsDir rows p → ¬ IsCopyName p → s'.store.files.get? p = s.store.files.get? p

theorem PullFrame.refl (rows : List FileRow) (s : Puller) : PullFrame rows s s :=
  ⟨Store.RowsGrow.of_files_eq rfl, le_rfl, fun _ _ _ => rfl⟩

theorem PullFrame.trans {rows : List FileRow} {s s' s'' : Puller} (h : PullFrame rows s s')
    (h' : PullFrame rows s' s'') : PullFrame rows s s'' :=
  ⟨h.grow.trans h'.grow, h.skips.trans h'.skips,
    fun p hp hcp => (h'.frame p hp hcp).trans (h.frame p hp hcp)⟩

/-- What has become of a child: it was pruned, or it is queued, or it was handled. -/
def ChildDone (loc remote : MerkleTree) (d : Path) (queue : List Path) (s : Puller)
    (child : Path × Hash × Bool) : Prop :=
  ((childrenOf loc.dirs d).get? child.1).map Prod.fst = some child.2.1 ∨
    (child.2.2 = true ∧ joinPrefix d child.1 ∈ queue) ∨
    (child.2.2 = false ∧ ∀ r, remote.leaves.get? (joinPrefix d child.1) = some r →
      s.store.Covers (joinPrefix d child.1) r.vv)

section

variable {rows rows' : List FileRow} (hrows : WellListed rows)

include hrows

/-- The children of one directory. -/
theorem visitChildren_spec {loc : MerkleTree} {d : Path} {queue queue' : List Path}
    {s s' : Puller} (h : (childrenOf (build rows).dirs d).entries.foldlM
      (visitChild loc (build rows) d) (queue, s) = .ok (queue', s')) :
    PullFrame rows s s' ∧ (∀ q ∈ queue, q ∈ queue') ∧
      (∀ q ∈ queue', q ∈ queue ∨ IsDir rows q) ∧
      (s'.skips = s.skips → ∀ child ∈ (childrenOf (build rows).dirs d).entries,
        ChildDone loc (build rows) d queue' s' child) := by
  have ht := hrows.isTree
  refine Result.foldlM_invariant h (I := fun seen acc => PullFrame rows s acc.2 ∧
    (∀ q ∈ queue, q ∈ acc.1) ∧ (∀ q ∈ acc.1, q ∈ queue ∨ IsDir rows q) ∧
    (acc.2.skips = s.skips → ∀ child ∈ seen, ChildDone loc (build rows) d acc.1 acc.2 child)) ?_ ?_
  · exact ⟨PullFrame.refl rows s, fun _ hq => hq, fun _ hq => .inl hq, by simp⟩
  · rintro seen ⟨n, hash, b⟩ ⟨q₁, s₁⟩ ⟨q₂, s₂⟩ hmem ⟨hframe, hsub, hdirs, hdone⟩ hvisit
    have hlook : (build rows).dirs.look d n = some (hash, b) := by
      rw [look_eq_childrenOf]
      exact OrdMap.mem_entries.1 hmem
    -- what was done for the children before stays done
    have hmore : ∀ {qs : List Path} {x : Puller}, (∀ q ∈ q₁, q ∈ qs) →
        Store.RowsGrow (fun _ => True) s₁.store x.store → s₁.skips = s.skips →
        ∀ child ∈ seen, ChildDone loc (build rows) d qs x child := by
      intro qs x hqs hgrow hskips child hchild
      rcases hdone hskips child hchild with hp | ⟨hb, hq⟩ | ⟨hb, hc⟩
      · exact .inl hp
      · exact .inr (.inl ⟨hb, hqs _ hq⟩)
      · exact .inr (.inr ⟨hb, fun r hr => hgrow.covers (hc r hr)⟩)
    have hall : ∀ {qs : List Path} {x : Puller}, (∀ q ∈ q₁, q ∈ qs) →
        Store.RowsGrow (fun _ => True) s₁.store x.store → s₁.skips = s.skips →
        ChildDone loc (build rows) d qs x (n, hash, b) →
        ∀ child ∈ seen ++ [(n, hash, b)], ChildDone loc (build rows) d qs x child := by
      intro qs x hqs hgrow hskips hlast child hchild
      rcases List.mem_append.1 hchild with hchild | hchild
      · exact hmore hqs hgrow hskips child hchild
      · rw [List.mem_singleton.1 hchild]
        exact hlast
    unfold visitChild at hvisit
    split_ifs at hvisit with hpruned hb
    · cases hvisit
      exact ⟨hframe, hsub, hdirs, fun hskips => hall (fun _ hq => hq)
        (Store.RowsGrow.of_files_eq rfl) hskips (.inl hpruned)⟩
    · cases hvisit
      refine ⟨hframe, fun q hq => List.mem_cons_of_mem _ (hsub q hq), fun q hq => ?_,
        fun hskips => hall (fun _ hq => List.mem_cons_of_mem _ hq)
          (Store.RowsGrow.of_files_eq rfl) hskips (.inr (.inl ⟨hb, List.mem_cons_self⟩))⟩
      rcases List.mem_cons.1 hq with rfl | hq
      · exact .inr ((ht.isDir d n hash b hlook).1 hb)
      · exact hdirs q hq
    · obtain ⟨s₃, hleaf, hvisit⟩ := Result.exists_of_bind_eq_ok hvisit
      cases hvisit
      obtain ⟨hstep, hle, hcover⟩ := handleLeaf_spec hleaf
      refine ⟨hframe.trans ⟨hstep.grow, hle, fun p hp hcp => hstep.frame p ?_ hcp⟩, hsub, hdirs,
        fun hskips => ?_⟩
      · -- a leaf is handled only where there is no directory
        rintro rfl
        exact hb ((ht.isDir d n hash b hlook).2 hp)
      · have h1 : s.skips ≤ s₁.skips := hframe.skips
        have h2 : s₁.skips ≤ s₂.skips := hle
        change s₂.skips = s.skips at hskips
        have hsame : s₂.skips = s₁.skips := by omega
        refine hall (fun _ hq => hq) hstep.grow (by omega) (.inr (.inr ⟨?_, fun r hr => ?_⟩))
        · simpa using hb
        · exact hcover hsame r hr

variable (hrows' : WellListed rows') (hapart : NodesApart rows rows')

include hrows' hapart

/-- The descent, from any queue of directories. -/
theorem pullLoop_spec {fuel : ℕ} {queue : List Path} {s s' : Puller}
    (h : pullLoop (build rows') (build rows) fuel queue s = some (.ok s'))
    (hqueue : ∀ d ∈ queue, IsDir rows d) :
    PullFrame rows s s' ∧ (s'.skips = s.skips → (∀ r' ∈ rows', s.store.Covers r'.path r'.vv) →
      (∀ r ∈ rows, ¬ IsDir rows r.path →
        s.store.Covers r.path r.vv ∨ ∃ d ∈ queue, Under '/' d r.path) →
      ∀ r ∈ rows, ¬ IsDir rows r.path → s'.store.Covers r.path r.vv) := by
  have ht := hrows.isTree
  induction fuel generalizing queue s with
  | zero =>
    cases queue with
    | nil =>
      cases h
      refine ⟨PullFrame.refl rows s', fun _ _ hpending r hr hleaf => ?_⟩
      exact (hpending r hr hleaf).resolve_right (by simp)
    | cons d queue => cases h
  | succ k ih =>
    cases queue with
    | nil =>
      cases h
      refine ⟨PullFrame.refl rows s', fun _ _ hpending r hr hleaf => ?_⟩
      exact (hpending r hr hleaf).resolve_right (by simp)
    | cons d queue =>
      unfold pullLoop at h
      split at h
      · cases h
      · rename_i queue' s₁ hvisit
        obtain ⟨hframe, hsub, hdirs, hdone⟩ := visitChildren_spec hrows hvisit
        obtain ⟨hframe', hrest⟩ := ih h fun q hq =>
          (hdirs q hq).elim (fun hq => hqueue q (List.mem_cons_of_mem _ hq)) id
        have hstart : PullFrame rows s s₁ := ⟨hframe.grow, hframe.skips, hframe.frame⟩
        refine ⟨hstart.trans hframe', fun hskips hhad hpending => ?_⟩
        have h1 := hstart.skips
        have h2 := hframe'.skips
        have hgrow := hstart.grow
        refine hrest (by omega) (fun r' hr' => hgrow.covers (hhad r' hr')) fun r hr hleaf => ?_
        rcases hpending r hr hleaf with hc | ⟨d', hd', hu⟩
        · exact .inl (hgrow.covers hc)
        · rcases List.mem_cons.1 hd' with rfl | hd'
          · -- the row is behind one of the children that were visited
            obtain ⟨n, hn, hor⟩ := hu.exists_child (hrows.proper r hr)
            have hentry : ∃ x, (build rows).dirs.look d' n = some x := by
              rcases hor with hp | hbelow
              · exact ⟨_, ht.look_leaf hr hleaf hn hp⟩
              · exact ⟨_, ht.look_dir hn (.inr ⟨r, hr, hbelow⟩)⟩
            obtain ⟨x, hlook⟩ := hentry
            have hmem : (n, x) ∈ (childrenOf (build rows).dirs d').entries := by
              rw [look_eq_childrenOf] at hlook
              exact OrdMap.mem_entries.2 hlook
            have hskip₁ : s₁.skips = s.skips := by omega
            rcases hdone hskip₁ (n, x) hmem with hpruned | ⟨hb, hq⟩ | ⟨hb, hc⟩
            · obtain ⟨r', hr', hp', hvv⟩ :=
                had_of_pruned hrows hrows' hapart hlook hpruned hr hleaf hor
              have hcover := hgrow.covers (hhad r' hr')
              rw [hp', hvv] at hcover
              exact .inl hcover
            · refine .inr ⟨_, hq, ?_⟩
              rcases hor with hp | hbelow
              · have hdir := (ht.isDir d' n x.1 x.2 hlook).1 hb
                exact absurd (hp ▸ hdir) hleaf
              · exact hbelow
            · rcases hor with hp | hbelow
              · have hcover := hc r ((ht.leaves _ r).2 ⟨hr, hp⟩)
                change s₁.store.Covers (joinPrefix d' n) r.vv at hcover
                rw [show joinPrefix d' n = r.path from hp.symm] at hcover
                exact .inl hcover
              · have hdir : IsDir rows (joinPrefix d' n) := .inr ⟨r, hr, hbelow⟩
                have hb' := (ht.isDir d' n x.1 x.2 hlook).2 hdir
                exact absurd (hb.symm.trans hb') (by simp)
          · exact .inr ⟨d', hsub d' hd', hu⟩

end

/-! ### Completeness -/

/-- The puller covers every row of the responder. -/
def PulledAll (rows : List FileRow) (st : Store) : Prop := ∀ r ∈ rows, st.Covers r.path r.vv

/-- Before the pull, the puller covers every row of the responder that has other rows below its
path. -/
def CoversShadowed (rows : List FileRow) (st : Store) : Prop :=
  ∀ r ∈ rows, (∃ r' ∈ rows, Under '/' r.path r'.path) → st.Covers r.path r.vv

end

section Example

attribute [local instance] Blake3.polynomial

/-- The tombstone of `a`. -/
def deletedA : FileRow where
  path := ['a']
  contentHash := none
  mode := 0
  size := 0
  tombstone := true
  vv := VersionVector.fromIter [(1, 2)]
  uuid := some 7
  metadata := none

/-- A file in the directory `a`. -/
def fileB : FileRow where
  path := ['a', '/', 'b']
  contentHash := some 4
  mode := 420
  size := 1
  tombstone := false
  vv := VersionVector.fromIter [(1, 1)]
  uuid := some 8
  metadata := none

/-- `a` was deleted, and is a directory now. -/
def fileBecameDir : List FileRow := [deletedA, fileB]

theorem wellListed_fileBecameDir : WellListed fileBecameDir := by
  have ha : IsName '/' ['a'] := ⟨by decide, by decide⟩
  have hb : IsName '/' ['b'] := ⟨by decide, by decide⟩
  refine ⟨fun r hr => ?_, by decide, fun r hr => ?_⟩
  · simp only [fileBecameDir, List.mem_cons, List.not_mem_nil, or_false] at hr
    rcases hr with rfl | rfl
    · exact .name ha
    · exact .sub (.name ha) hb
  · have hfits : ∀ r ∈ fileBecameDir, ∀ e ∈ r.vv.map.entries, e.2 < u64Bound := by decide
    exact hfits r hr

/-- The end of a pull of these rows. -/
def pullDir (st : Store) : Option Puller :=
  (reconcilePull 3 (build st.allFiles) (build fileBecameDir) st).bind Except.toOption

theorem reconcilePull_of_pullDir {st : Store} {s' : Puller} (h : pullDir st = some s') :
    reconcilePull 3 (build st.allFiles) (build fileBecameDir) st = some (.ok s') := by
  obtain ⟨x, hx, hs⟩ := Option.bind_eq_some_iff.1 h
  cases x with
  | error e => cases hs
  | ok y =>
    cases hs
    exact hx

/-- A store with the tombstone of `a`, and nothing else. -/
def knowsDeletion : Store := ({} : Store).upsertFile deletedA

end Example

end Replicore
