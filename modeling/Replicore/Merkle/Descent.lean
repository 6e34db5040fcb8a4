import Mathlib.Data.List.Dedup
import Replicore.Merkle.Complete
import Replicore.Merkle.Session

/-!
# What a descent enters

A pull from an honest responder asks for the listing of a directory at most once, and beside the
root only for directories with a row below on which the two sides differ; the leaves it compares
are at or above such rows (`Descending`).  So the number of listings is bounded by the directories
above the rows that differ (`pull_enters_differing`).

The pruning needs no assumption on the hash for this: where the rows below agree, the hashes are
equal because the trees are.
-/

namespace Replicore

open Hoare MerkleTree
open Hier (IsName Proper Under)

/-- Rows sorted by path, with non-empty components. -/
structure SortedRows (rows : List FileRow) : Prop where
  proper : ∀ r ∈ rows, Proper '/' r.path
  sorted : rows.Pairwise fun a b => a.path < b.path

theorem SortedRows.distinct {rows : List FileRow} (h : SortedRows rows) :
    (rows.map FileRow.path).Nodup :=
  List.pairwise_map.2 (h.sorted.imp fun hlt => hlt.ne)

/-- The lists differ at the path. -/
def Differ (rows rows' : List FileRow) (p : Path) : Prop := dataAt rows p ≠ dataAt rows' p

/-- The directories above a path, without the root. -/
def dirsAbove (q : Path) : List Path := q.inits.filter fun p => p ≠ [] ∧ Under '/' p q

/-- The paths of the rows that differ. -/
def differing (rows rows' : List FileRow) : List Path :=
  ((rows ++ rows').map FileRow.path).filter fun q => dataAt rows q ≠ dataAt rows' q

/-- The directories above the rows that differ. -/
def dirsAboveDiffering (rows rows' : List FileRow) : List Path :=
  ((differing rows rows').flatMap dirsAbove).dedup

theorem mem_dirsAboveDiffering {rows rows' : List FileRow} {p q : Path} (hp : p ≠ [])
    (hu : Under '/' p q) (hdiffer : Differ rows rows' q) : p ∈ dirsAboveDiffering rows rows' := by
  rw [dirsAboveDiffering, List.mem_dedup]
  have hq : q ∈ (rows ++ rows').map FileRow.path := by
    by_contra hnot
    have hnone : ∀ {s : List FileRow}, (∀ r ∈ s, r ∈ rows ++ rows') → dataAt s q = none :=
      fun hs => dataAt_eq_none.2 fun r hr hpath => hnot (hpath ▸ List.mem_map_of_mem (hs r hr))
    exact hdiffer ((hnone fun _ => List.mem_append_left _).trans
      (hnone fun _ => List.mem_append_right _).symm)
  have hprefix : p <+: q := by
    obtain ⟨rest, rfl⟩ := hu.resolve_left hp
    exact List.prefix_append _ _
  refine List.mem_flatMap.2 ⟨q, List.mem_filter.2 ⟨hq, decide_eq_true hdiffer⟩, ?_⟩
  exact List.mem_filter.2 ⟨(List.mem_inits _ _).2 hprefix, decide_eq_true ⟨hp, hu⟩⟩

section

variable [Blake3]

section

variable {rows rows' : List FileRow} (hrows : SortedRows rows) (hrows' : SortedRows rows')

include hrows hrows'

/-- Where the rows below agree, the trees list the same children. -/
theorem childrenOf_eq_of_agree {d : Path} (hagree : ∀ q, Under '/' d q → ¬ Differ rows rows' q) :
    childrenOf (build rows).dirs d = childrenOf (build rows').dirs d := by
  have hdata : ∀ q, Under '/' d q → dataAt rows q = dataAt rows' q :=
    fun q hq => not_not.1 (hagree q hq)
  have hbelow : ∀ p, Under '/' d p → (HasBelow rows p ↔ HasBelow rows' p) :=
    fun p hp => hasBelow_congr fun q hu => hdata q (hp.trans hu)
  refine (isBuilt_build hrows.proper).childrenOf_congr (isBuilt_build hrows'.proper) hrows.proper
    hrows'.proper hrows.distinct hrows'.distinct (fun p hp _ => ?_) fun p hp hne hb => ?_
  · simp only [leafAt, hbelow p hp, hdata p hp]
  · exact iff_of_false (not_endsAt_of_isDir hrows.proper hrows.sorted hne (.inr hb))
      (not_endsAt_of_isDir hrows'.proper hrows'.sorted hne (.inr ((hbelow p hp).1 hb)))

/-- A child that is not pruned: a row at or below it differs, below it if it is a directory. -/
theorem exists_differ {d n : Path} {x : Hash × Bool}
    (hx : (build rows).dirs.look d n = some x) (hnot : ¬ isPruned (build rows') d (n, x)) :
    ∃ q, (Under '/' (joinPrefix d n) q ∨ x.2 = false ∧ q = joinPrefix d n) ∧
      Differ rows rows' q := by
  have h := isBuilt_build hrows.proper
  have h' := isBuilt_build hrows'.proper
  have hn := h.name d n x hx
  by_contra hnone
  push Not at hnone
  have hagree : ∀ q, Under '/' (joinPrefix d n) q → ¬ Differ rows rows' q :=
    fun q hq => hnone q (.inl hq)
  have hbelow : HasBelow rows (joinPrefix d n) ↔ HasBelow rows' (joinPrefix d n) :=
    hasBelow_congr fun q hu => not_not.1 (hagree q hu)
  refine hnot ?_
  unfold isPruned
  rw [← look_eq_childrenOf]
  obtain ⟨hb, hdir⟩ | ⟨hb, r, hr, hp, hleaf⟩ := h.look_cases hx
  · rw [h'.look_of_hasBelow hn (hbelow.1 hb), hdir, childrenOf_eq_of_agree hrows hrows' hagree]
    rfl
  · have hsame : dataAt rows (joinPrefix d n) = dataAt rows' (joinPrefix d n) :=
      not_not.1 (hnone _ (.inr ⟨by rw [hleaf], rfl⟩))
    have hdata := dataAt_of_mem hrows.distinct hr
    rw [hp, hsame] at hdata
    obtain ⟨r', hr', hp', hdata'⟩ := exists_of_dataAt hdata
    rw [h'.look_of_row hrows'.distinct hn hr' hp' (mt hbelow.2 hb), hleaf, leafHash, leafHash,
      leafBytes_congr (hp'.trans hp.symm) hdata']
    rfl

end

/-! ### The run -/

/-- A descent on its way: what was asked for and what is queued. -/
structure Descending (rows rows' : List FileRow) (queue : List Path) (asked : Asked) : Prop where
  nodup : (queue ++ asked.listings).Nodup
  parent : ∀ p ∈ queue ++ asked.listings, p ≠ [] → (splitParent p).1 ∈ asked.listings
  dir : ∀ p ∈ queue ++ asked.listings, IsDir rows p
  differ : ∀ p ∈ queue ++ asked.listings, p ≠ [] → ∃ q, Under '/' p q ∧ Differ rows rows' q
  leaf : ∀ p ∈ asked.leaves, ∃ q, (q = p ∨ Under '/' p q) ∧ Differ rows rows' q

omit [Blake3] in
theorem Descending.init (rows rows' : List FileRow) : Descending rows rows' [[]] {} where
  nodup := List.nodup_singleton []
  parent _ hp hne := absurd (List.mem_singleton.1 hp) hne
  dir _ hp := .inl (List.mem_singleton.1 hp)
  differ _ hp hne := absurd (List.mem_singleton.1 hp) hne
  leaf _ hp := absurd hp List.not_mem_nil

theorem treeReqs_handleLeaf {remote : MerkleTree} {path : Path} {s s' : Puller}
    (h : handleLeaf remote path s = .ok s') : s'.report.treeReqs = s.report.treeReqs := by
  unfold handleLeaf at h
  dsimp only at h
  split at h
  · cases h; rfl
  · split at h
    · cases h; rfl
    · cases h; rfl
    · split at h <;> cases h <;> rfl
    · split at h
      · cases h; rfl
      · cases h; rfl
      · cases h; rfl
      · split_ifs at h
        cases h; rfl

section

variable {rows rows' : List FileRow} (hrows : SortedRows rows) (hrows' : SortedRows rows')

include hrows hrows'

/-- One child of a directory that is being listed. -/
theorem visitChildFrom_spec {d : Path} {listings : List Path}
    {seen rest : List (Path × Hash × Bool)} {child : Path × Hash × Bool} {acc : List Path × Puller}
    {n : ℕ} (hd : d ∉ listings)
    (hold : ∀ p ∈ listings, p ≠ [] → (splitParent p).1 ∈ listings)
    (hxs : seen ++ child :: rest = (childrenOf (build rows).dirs d).entries) :
    Triple (fun t => Descending rows rows' acc.1 t ∧ t.listings = d :: listings ∧
        (∀ p ∈ acc.1, (splitParent p).1 = d → ∃ e ∈ seen, p = joinPrefix d e.1) ∧
        acc.2.report.treeReqs = n)
      (visitChildFrom (honest (build rows)) (build rows') d acc child)
      (fun acc t => Descending rows rows' acc.1 t ∧ t.listings = d :: listings ∧
        (∀ p ∈ acc.1, (splitParent p).1 = d → ∃ e ∈ seen ++ [child], p = joinPrefix d e.1) ∧
        acc.2.report.treeReqs = n)
      fun _ t => ∃ queue, Descending rows rows' queue t ∧ t.listings = d :: listings := by
  have h := isBuilt_build hrows.proper
  obtain ⟨name, x⟩ := child
  have hentry : ∀ e ∈ seen ++ (name, x) :: rest, (build rows).dirs.look d e.1 = some e.2 := by
    intro e he
    rw [look_eq_childrenOf]
    exact OrdMap.mem_entries.1 (hxs ▸ he)
  have hlook := hentry (name, x) (by simp)
  have hsplit := h.split_eq hlook
  have hne : joinPrefix d name ≠ [] := join_ne_nil (h.name d name x hlook)
  unfold visitChildFrom
  by_cases hpruned : isPruned (build rows') d (name, x)
  · rw [if_pos hpruned]
    rintro t ⟨hdesc, hlist, hqueue, hreqs⟩
    refine ⟨hdesc, hlist, fun p hp hup => ?_, hreqs⟩
    obtain ⟨e, he, hpath⟩ := hqueue p hp hup
    exact ⟨e, List.mem_append_left _ he, hpath⟩
  · rw [if_neg hpruned]
    obtain ⟨q, hor, hdiffer⟩ := exists_differ hrows hrows' hlook hpruned
    split_ifs with hb
    · rintro t ⟨hdesc, hlist, hqueue, hreqs⟩
      have hu : Under '/' (joinPrefix d name) q :=
        hor.resolve_right fun hfalse => Bool.false_ne_true (hfalse.1.symm.trans hb)
      have hbelow : HasBelow rows (joinPrefix d name) := by
        obtain ⟨hbelow, -⟩ | ⟨-, r, -, -, hleaf⟩ := h.look_cases hlook
        · exact hbelow
        · rw [hleaf] at hb
          cases hb
      -- the names of a directory are distinct, and its listing is asked for only now
      have hfresh : joinPrefix d name ∉ acc.1 ++ t.listings := by
        intro hmem
        rcases List.mem_append.1 hmem with hmem | hmem
        · obtain ⟨e, he, hpath⟩ := hqueue _ hmem (congrArg Prod.fst hsplit)
          have hname : name = e.1 := congrArg Prod.snd (hsplit.symm.trans
            ((congrArg splitParent hpath).trans (h.split_eq (hentry e (by simp [he])))))
          have hsorted := (childrenOf (build rows).dirs d).sorted
          rw [← hxs, List.pairwise_append] at hsorted
          exact (hsorted.2.2 e he (name, x) (by simp)).ne hname.symm
        · rw [hlist] at hmem
          rcases List.mem_cons.1 hmem with heq | hmem
          · have hlt : d.length < (joinPrefix d name).length := Hier.under_join.length_lt hne
            rw [heq] at hlt
            exact lt_irrefl _ hlt
          · have hup := hold _ hmem hne
            rw [hsplit] at hup
            exact hd hup
      refine ⟨⟨List.nodup_cons.2 ⟨hfresh, hdesc.nodup⟩, fun p hp hpne => ?_, fun p hp => ?_,
        fun p hp hpne => ?_, hdesc.leaf⟩, hlist, fun p hp hup => ?_, hreqs⟩
      · rcases List.mem_cons.1 hp with rfl | hp
        · rw [hsplit, hlist]
          exact List.mem_cons_self
        · exact hdesc.parent p hp hpne
      · rcases List.mem_cons.1 hp with rfl | hp
        · exact .inr hbelow
        · exact hdesc.dir p hp
      · rcases List.mem_cons.1 hp with rfl | hp
        · exact ⟨q, hu, hdiffer⟩
        · exact hdesc.differ p hp hpne
      · rcases List.mem_cons.1 hp with rfl | hp
        · exact ⟨(name, x), by simp, rfl⟩
        · obtain ⟨e, he, hpath⟩ := hqueue p hp hup
          exact ⟨e, List.mem_append_left _ he, hpath⟩
    · refine Triple.bind (Triple.pre (triple_handleLeaf _ _ fun t =>
        (Descending rows rows' acc.1 t ∧ t.listings = d :: listings ∧
          (∀ p ∈ acc.1, (splitParent p).1 = d → ∃ e ∈ seen, p = joinPrefix d e.1)) ∧
          acc.2.report.treeReqs = n) ?_ |>.conseq (fun _ ht => ht) (fun _ _ ht => ht)
          fun _ t ht => ⟨acc.1, ht.1.1, ht.1.2.1⟩) fun s => ?_
      · rintro t ⟨hdesc, hlist, hqueue, hreqs⟩
        refine ⟨⟨⟨hdesc.nodup, hdesc.parent, hdesc.dir, hdesc.differ, fun p hp => ?_⟩, hlist,
          hqueue⟩, hreqs⟩
        rcases List.mem_cons.1 hp with rfl | hp
        · exact ⟨q, hor.symm.imp_left And.right, hdiffer⟩
        · exact hdesc.leaf p hp
      · rintro t ⟨hrun, ⟨hdesc, hlist, hqueue⟩, hreqs⟩
        refine ⟨hdesc, hlist, fun p hp hup => ?_, (treeReqs_handleLeaf hrun).trans hreqs⟩
        obtain ⟨e, he, hpath⟩ := hqueue p hp hup
        exact ⟨e, List.mem_append_left _ he, hpath⟩

/-- One round of the descent. -/
theorem visitDir_spec (d : Path) (queue : List Path) (s : Puller) (listings : List Path) :
    Triple (fun t => Descending rows rows' (d :: queue) t ∧ t.listings = listings ∧
        s.report.treeReqs = listings.length)
      (visitDir (honest (build rows)) (build rows') d queue s)
      (fun acc t => Descending rows rows' acc.1 t ∧ t.listings = d :: listings ∧
        acc.2.report.treeReqs = listings.length + 1)
      fun _ t => ∃ queue, Descending rows rows' queue t ∧ t.listings = d :: listings := by
  rintro t ⟨ht, rfl, hreqs⟩
  have hd := (List.nodup_cons.1 ht.nodup).1
  have hd' : d ∉ t.listings := fun hmem => hd (List.mem_append_right _ hmem)
  have hold : ∀ p ∈ t.listings, p ≠ [] → (splitParent p).1 ∈ t.listings :=
    fun p hp => ht.parent p (List.mem_append_right _ hp)
  have hloop := Triple.foldlM
    (I := fun seen acc t' => Descending rows rows' acc.1 t' ∧ t'.listings = d :: t.listings ∧
      (∀ p ∈ acc.1, (splitParent p).1 = d → ∃ e ∈ seen, p = joinPrefix d e.1) ∧
      acc.2.report.treeReqs = t.listings.length + 1)
    (b := (queue, { s with report.treeReqs := s.report.treeReqs + 1 }))
    fun seen x rest acc hxs => visitChildFrom_spec hrows hrows' hd' hold hxs
  refine hloop.post (fun acc t' h => ⟨h.1, h.2.1, h.2.2.2⟩)
    { t with listings := d :: t.listings } ⟨?_, rfl, fun p hp hup => ?_, by rw [hreqs]⟩
  · -- the directory goes from the queue to what was asked for
    have hmem : ∀ p, p ∈ queue ++ d :: t.listings → p ∈ d :: queue ++ t.listings := by
      intro p hp
      simp only [List.mem_append, List.mem_cons] at hp ⊢
      tauto
    refine ⟨List.nodup_middle.2 ht.nodup, fun p hp hne => ?_, fun p hp => ht.dir p (hmem p hp),
      fun p hp => ht.differ p (hmem p hp), ht.leaf⟩
    exact List.mem_cons_of_mem _ (ht.parent p (hmem p hp) hne)
  · have hne : p ≠ [] := by
      rintro rfl
      obtain rfl : [] = d := hup
      exact hd (List.mem_append_left _ hp)
    have hparent := ht.parent p (by simp [hp]) hne
    rw [hup] at hparent
    exact absurd hparent hd'

/-- The descent, from any queue. -/
theorem descend_spec {k : ℕ} {queue : List Path} {s : Puller} {t : Asked}
    {run : EStateM.Result ReconcileError Asked Puller}
    (h : descend (honest (build rows)) (build rows') k queue s t = some run)
    (ht : Descending rows rows' queue t) (hreqs : s.report.treeReqs = t.listings.length) :
    (∃ queue', Descending rows rows' queue' (final run)) ∧ t.listings <:+ (final run).listings ∧
      (queue ≠ [] → (final run).listings ≠ []) ∧
      ∀ s', outcome run = .ok s' → s'.report.treeReqs = (final run).listings.length := by
  induction k generalizing queue s t with
  | zero =>
    cases queue with
    | nil =>
      cases h
      exact ⟨⟨[], ht⟩, List.suffix_rfl, absurd rfl, fun s' hs' => by cases hs'; exact hreqs⟩
    | cons d queue => cases h
  | succ k ih =>
    cases queue with
    | nil =>
      cases h
      exact ⟨⟨[], ht⟩, List.suffix_rfl, absurd rfl, fun s' hs' => by cases hs'; exact hreqs⟩
    | cons d queue =>
      have hround := visitDir_spec hrows hrows' d queue s t.listings t ⟨ht, rfl, hreqs⟩
      unfold descend at h
      cases hrun : visitDir (honest (build rows)) (build rows') d queue s t with
      | error e t' =>
        rw [hrun] at h hround
        cases h
        obtain ⟨queue', hdesc, hlist⟩ := hround
        refine ⟨⟨queue', hdesc⟩, hlist ▸ List.suffix_cons _ _, fun _ => ?_, fun s' hs' => by cases hs'⟩
        exact hlist ▸ List.cons_ne_nil _ _
      | ok acc t' =>
        rw [hrun] at h hround
        obtain ⟨hdesc, hlist, hreqs'⟩ := hround
        obtain ⟨hend, hsuffix, -, hok⟩ := ih h hdesc (by rw [hreqs', hlist, List.length_cons])
        rw [hlist] at hsuffix
        refine ⟨hend, (List.suffix_cons _ _).trans hsuffix, fun _ hnil => ?_, hok⟩
        rw [hnil] at hsuffix
        exact absurd (List.suffix_nil.1 hsuffix) (List.cons_ne_nil _ _)

/-- A round for each directory is enough. -/
theorem isSome_descend {k : ℕ} {queue : List Path} {s : Puller} {t : Asked}
    (ht : Descending rows rows' queue t) (hreqs : s.report.treeReqs = t.listings.length)
    (hfuel : (build rows).dirs.keys.length ≤ t.listings.length + k) :
    (descend (honest (build rows)) (build rows') k queue s t).isSome := by
  induction k generalizing queue s t with
  | zero =>
    cases queue with
    | nil => rfl
    | cons d queue =>
      -- all directories have been listed, and one more is queued
      have hsub : d :: queue ++ t.listings ⊆ (build rows).dirs.keys := fun p hp =>
        OrdMap.mem_keys.2 (((isBuilt_build hrows.proper).dir p).2 (ht.dir p hp))
      have hle := (List.subperm_of_subset ht.nodup hsub).length_le
      simp only [List.cons_append, List.length_cons, List.length_append] at hle
      omega
  | succ k ih =>
    cases queue with
    | nil => rfl
    | cons d queue =>
      have hround := visitDir_spec hrows hrows' d queue s t.listings t ⟨ht, rfl, hreqs⟩
      unfold descend
      cases hrun : visitDir (honest (build rows)) (build rows') d queue s t with
      | error e t' => rfl
      | ok acc t' =>
        rw [hrun] at hround
        obtain ⟨hdesc, hlist, hreqs'⟩ := hround
        refine ih hdesc (by rw [hreqs', hlist, List.length_cons]) ?_
        rw [hlist, List.length_cons]
        omega

/-- **A descent enters only what differs.**  A pull ends, once there is a round for each directory.
It asks for no listing twice, for that of a directory other than the root only if there is a row
below on which the sides differ, and compares a leaf only if there is one at or below it; and it
asks for none exactly if the roots are equal. -/
theorem pull_enters_differing (st : Store) :
    (∀ fuel, (build rows).dirs.keys.length ≤ fuel →
      (pullFrom (honest (build rows)) (build rows') fuel st {}).isSome) ∧
    ∀ fuel run, pullFrom (honest (build rows)) (build rows') fuel st {} = some run →
      reconcilePull fuel (build rows') (build rows) st = some (outcome run) ∧
      (final run).listings.Nodup ∧
      (∀ p ∈ (final run).listings, p ≠ [] → ∃ q, Under '/' p q ∧ Differ rows rows' q) ∧
      (∀ p ∈ (final run).leaves, ∃ q, (q = p ∨ Under '/' p q) ∧ Differ rows rows' q) ∧
      (∀ s, outcome run = .ok s → s.report.treeReqs = (final run).listings.length) ∧
      ((final run).listings = [] ↔ (build rows).root = (build rows').root) ∧
      (final run).listings.length ≤ 1 + (dirsAboveDiffering rows rows').length := by
  have hpull : ∀ fuel, pullFrom (honest (build rows)) (build rows') fuel st {} =
      if (build rows).root = (build rows').root then some (.ok { store := st } {})
      else descend (honest (build rows)) (build rows') fuel [[]] { store := st } {} := fun _ => rfl
  have hinit : Descending rows rows' [[]] {} := Descending.init rows rows'
  refine ⟨fun fuel hfuel => ?_, fun fuel run hrun => ?_⟩
  · rw [hpull]
    split_ifs
    · rfl
    · exact isSome_descend hrows hrows' hinit rfl (by simpa using hfuel)
  · have herase : (pullFrom (honest (build rows)) (build rows') fuel st {}).map outcome = _ :=
      outcome_pullFrom_honest fuel st {}
    rw [hrun] at herase
    refine ⟨herase.symm, ?_⟩
    rw [hpull] at hrun
    split_ifs at hrun with hroot
    · cases hrun
      exact ⟨List.nodup_nil, by simp [final], by simp [final], fun s hs => by cases hs; rfl,
        iff_of_true rfl hroot, by simp [final]⟩
    · obtain ⟨⟨queue, hdesc⟩, -, hsome, hok⟩ := descend_spec hrows hrows' hrun hinit rfl
      have hnodup : (final run).listings.Nodup := hdesc.nodup.of_append_right
      have hdiffer : ∀ p ∈ (final run).listings, p ≠ [] →
          ∃ q, Under '/' p q ∧ Differ rows rows' q :=
        fun p hp => hdesc.differ p (List.mem_append_right _ hp)
      refine ⟨hnodup, hdiffer, hdesc.leaf, hok, iff_of_false (hsome (by simp)) hroot,
        ?_⟩
      · have hsub : (final run).listings ⊆ [] :: dirsAboveDiffering rows rows' := by
          intro p hp
          by_cases hne : p = []
          · exact hne ▸ List.mem_cons_self
          · obtain ⟨q, hu, hq⟩ := hdiffer p hp hne
            exact List.mem_cons_of_mem _ (mem_dirsAboveDiffering hne hu hq)
        have hle := (List.subperm_of_subset hnodup hsub).length_le
        rw [List.length_cons] at hle
        omega

end

end

section Example

attribute [local instance] Blake3.polynomial

theorem sortedRows_fileBecameDir : SortedRows fileBecameDir :=
  ⟨wellListed_fileBecameDir.proper, wellListed_fileBecameDir.sorted⟩

theorem sortedRows_nil : SortedRows [] := ⟨by simp, List.Pairwise.nil⟩

/-- Two rows in one directory and a puller without rows: the root and the directory are listed. -/
theorem pull_enters_differing_dir :
    ∃ run, pullFrom (honest (build fileBecameDir)) (build []) 2 {} {} = some run ∧
      (final run).listings = [['a'], []] ∧
      (final run).listings.length ≤ 1 + (dirsAboveDiffering fileBecameDir []).length := by
  have hspec := pull_enters_differing sortedRows_fileBecameDir sortedRows_nil {}
  have hkeys : (build fileBecameDir).dirs.keys.length ≤ 2 := by decide +kernel
  obtain ⟨run, hrun⟩ := Option.isSome_iff_exists.1 (hspec.1 2 hkeys)
  obtain ⟨-, -, -, -, -, -, hle⟩ := hspec.2 2 run hrun
  have hlist : ∀ run ∈ pullFrom (honest (build fileBecameDir)) (build []) 2 {} {},
      (final run).listings = [['a'], []] := by decide +kernel
  exact ⟨run, hrun, hlist run hrun, hle⟩

end Example

end Replicore
