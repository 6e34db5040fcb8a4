import Replicore.Lib.Result
import Replicore.Merkle.Tree
import Replicore.Proto.Framing
import Replicore.Store.Resolve

/-!
# The pull

`reconcile_pull` of `merkle.rs`, against an honest responder that answers from its tree.  The puller
descends into the directories whose hashes differ from its own and handles each leaf that differs:
`decide`, then `reconcile_upsert` or the `resolve_rows` loop.  Fetching and staging content touches
no row; here these steps succeed.

What one leaf leaves behind is said once (`handleLeaf_spec`): rows only grow, no row changes but the
leaf's own and conflict copies, and unless the leaf is counted as skipped, its row covers the
remote one.
-/

namespace Replicore

/-- Counters of a session. -/
structure ReconcileReport where
  treeReqs : ℕ := 0
  leavesCompared : ℕ := 0
  applied : ℕ := 0
  resolvedConflicts : ℕ := 0
  /-- Concurrent leaves that were not resolved. -/
  skippedConcurrent : ℕ := 0
  /-- Leaves that can not be materialized. -/
  skippedDamaged : ℕ := 0
  deriving DecidableEq

/-- The puller during a session. -/
structure Puller where
  store : Store
  report : ReconcileReport := {}

/-- Why a session, or a leaf, fails. -/
inductive ReconcileError
  | proto (e : ProtoError)
  | store (e : StoreError)
  | violation (what : String)

namespace ReconcileError

/-- Retrying the session cannot fix the leaf: skip it, keep the session. -/
def isSkippable : ReconcileError → Bool
  | proto _ | store _ => false
  | violation _ => true

end ReconcileError

/-- How a leaf that was decided `apply` ended. -/
inductive LeafOutcome
  | applied
  | resolved
  | skipped
  deriving DecidableEq

/-- A regular file; without metadata a row counts as one. -/
def Row.isRegular (r : Row) : Bool :=
  match r.metadata with
  | some m => m.kind = .regular
  | none => true

/-- Leaves skipped so far. -/
def Puller.skips (s : Puller) : ℕ := s.report.skippedConcurrent + s.report.skippedDamaged

section

variable [Blake3]

/-- The rounds of a resolution, and whether it was committed. -/
def resolveLeafRounds (path : Path) (remote : Version) :
    ℕ → Store → List PlannedRow → Except StoreError (Bool × Store)
  | 0, st, _ => .ok (false, st)
  | n + 1, st, staged =>
    match st.resolveRows path remote staged with
    | .error e => .error e
    | .ok (.resolved, st') => .ok (true, st')
    | .ok (.notConcurrent _, st') => .ok (false, st')
    | .ok (.unresolvable, st') => .ok (false, st')
    | .ok (.stale plan, st') => resolveLeafRounds path remote n st' plan

/-- The conflict-resolution loop, reconcile flavor. -/
def resolveConcurrentLeaf (path : Path) (rleaf : Row) (st : Store) :
    Except StoreError (Bool × Store) :=
  resolveLeafRounds path (Version.fromRow rleaf) 4 st []

/-- What `reconcile_upsert` is given for a leaf. -/
def leafRow (path : Path) (rleaf : Row) : ReconciledRow :=
  if rleaf.tombstone then { rleaf with path, contentHash := none, size := 0, metadata := none }
  else { rleaf with path }

/-- Take over a leaf that was decided `apply`. -/
def applyRemoteLeaf (path : Path) (rleaf : Row) (st : Store) :
    Except ReconcileError (LeafOutcome × Store) :=
  if rleaf.tombstone = false ∧ rleaf.isRegular ∧ rleaf.contentHash = none then
    .error (.violation "regular leaf without content hash")
  else
    let (effective, st') := st.reconcileUpsert (leafRow path rleaf)
    if effective = .apply then .ok (.applied, st')
    else if effective = .concurrent then
      match resolveConcurrentLeaf path rleaf st' with
      | .error e => .error (.store e)
      | .ok (true, st'') => .ok (.resolved, st'')
      | .ok (false, st'') => .ok (.skipped, st'')
    else .ok (.skipped, st')

/-- Handle one differing leaf of the responder. -/
def handleLeaf (remote : MerkleTree) (path : Path) (s : Puller) : Except ReconcileError Puller :=
  let s := { s with report.leavesCompared := s.report.leavesCompared + 1 }
  match remote.leaves.get? path with
  | none => .ok s
  | some rleaf =>
    match Decision.decide (s.store.loadFile path) rleaf.vv with
    | .ignore | .quarantined => .ok s
    | .concurrent =>
      match resolveConcurrentLeaf path rleaf.toRow s.store with
      | .error e => .error (.store e)
      | .ok (true, st) =>
        .ok { s with store := st, report.resolvedConflicts := s.report.resolvedConflicts + 1 }
      | .ok (false, st) =>
        .ok { s with store := st, report.skippedConcurrent := s.report.skippedConcurrent + 1 }
    | .apply =>
      match applyRemoteLeaf path rleaf.toRow s.store with
      | .ok (.applied, st) =>
        .ok { s with store := st, report.applied := s.report.applied + 1 }
      | .ok (.resolved, st) =>
        .ok { s with store := st, report.resolvedConflicts := s.report.resolvedConflicts + 1 }
      | .ok (.skipped, st) =>
        .ok { s with store := st, report.skippedConcurrent := s.report.skippedConcurrent + 1 }
      | .error e =>
        if e.isSkippable then
          .ok { s with report.skippedDamaged := s.report.skippedDamaged + 1 }
        else .error e

/-- One child of a remote directory: pruned, queued or handled. -/
def visitChild (loc remote : MerkleTree) (dir : Path) (acc : List Path × Puller)
    (child : Path × Hash × Bool) : Except ReconcileError (List Path × Puller) :=
  if ((MerkleTree.childrenOf loc.dirs dir).get? child.1).map Prod.fst = some child.2.1 then .ok acc
  else if child.2.2 then .ok (joinPrefix dir child.1 :: acc.1, acc.2)
  else do
    let s ← handleLeaf remote (joinPrefix dir child.1) acc.2
    .ok (acc.1, s)

/-- The descent.  The queue is a stack, its top first; `none` when the fuel runs out. -/
def pullLoop (loc remote : MerkleTree) :
    ℕ → List Path → Puller → Option (Except ReconcileError Puller)
  | _, [], s => some (.ok s)
  | 0, _ :: _, _ => none
  | k + 1, dir :: queue, s =>
    match (MerkleTree.childrenOf remote.dirs dir).entries.foldlM (visitChild loc remote dir)
        (queue, { s with report.treeReqs := s.report.treeReqs + 1 }) with
    | .error e => some (.error e)
    | .ok (queue', s') => pullLoop loc remote k queue' s'

/-- The pull driver. -/
def reconcilePull (fuel : ℕ) (loc remote : MerkleTree) (st : Store) :
    Option (Except ReconcileError Puller) :=
  if remote.root = loc.root then some (.ok { store := st })
  else pullLoop loc remote fuel [[]] { store := st }

end

/-! ### What a leaf leaves behind -/

/-- There is a row at the path, at or above the vector. -/
def Store.Covers (st : Store) (p : Path) (vv : VersionVector) : Prop :=
  ∃ r, st.files.get? p = some r ∧ vv ≤ r.vv

theorem Store.RowsGrow.covers {Q : VersionVector → Prop} {st st' : Store}
    (h : Store.RowsGrow Q st st') {p : Path} {vv : VersionVector} (hc : st.Covers p vv) :
    st'.Covers p vv := by
  obtain ⟨r, hr, hle⟩ := hc
  obtain ⟨r', hr', rfl | ⟨hlt, -⟩⟩ := h p r hr
  · exact ⟨r', hr', hle⟩
  · exact ⟨r', hr', hle.trans hlt.le⟩

variable [Blake3]

/-- From `st` to `st'` rows only grow, and beside the row at `path` only those at conflict-copy
names change. -/
structure LeafFrame (path : Path) (st st' : Store) : Prop where
  grow : Store.RowsGrow (fun _ => True) st st'
  frame : ∀ q, q ≠ path → ¬ IsCopyName q → st'.files.get? q = st.files.get? q

namespace LeafFrame

variable {path : Path} {st st' st'' : Store}

theorem refl (path : Path) (st : Store) : LeafFrame path st st :=
  ⟨Store.RowsGrow.of_files_eq rfl, fun _ _ _ => rfl⟩

theorem trans (h : LeafFrame path st st') (h' : LeafFrame path st' st'') :
    LeafFrame path st st'' :=
  ⟨h.grow.trans h'.grow, fun q hq hcp => (h'.frame q hq hcp).trans (h.frame q hq hcp)⟩

end LeafFrame

/-- One round of a resolution. -/
theorem resolveRows_leaf {st st' : Store} {path : Path} {remote : Version}
    {staged : List PlannedRow} {out : ResolveOutcome}
    (h : st.resolveRows path remote staged = .ok (out, st')) :
    LeafFrame path st st' ∧ (out = .resolved → st'.Covers path remote.vv) := by
  refine ⟨⟨Store.rowsGrow_resolveRows h, fun q hq hcp => ?_⟩, fun hout => ?_⟩
  · rcases Store.resolveRows_cases h with ⟨-, rfl⟩ | ⟨-, hconc, localRow, hloc, hplan, rfl⟩
    · rfl
    · have hres := Store.resolved_of_plan hconc
        (Option.bind_eq_some_iff.2 ⟨localRow, hloc, hplan⟩)
      exact (hres.vvAt_other hq).resolve_right fun hother => hcp hother.1
  · rcases Store.resolveRows_cases h with ⟨hne, -⟩ | ⟨-, hconc, localRow, hloc, hplan, rfl⟩
    · exact absurd hout hne
    · have hres := Store.resolved_of_plan hconc
        (Option.bind_eq_some_iff.2 ⟨localRow, hloc, hplan⟩)
      obtain ⟨loc, winner, losers, copies, -, -, -, -, hrow, -⟩ := hres.spec
      exact ⟨_, hrow, le_mergeAll (Store.remote_mem_candidates st path remote loc _)⟩

theorem resolveLeafRounds_spec {path : Path} {remote : Version} {k : ℕ} {st st' : Store}
    {staged : List PlannedRow} {b : Bool}
    (h : resolveLeafRounds path remote k st staged = .ok (b, st')) :
    LeafFrame path st st' ∧ (b = true → st'.Covers path remote.vv) := by
  induction k generalizing st staged with
  | zero =>
    cases h
    exact ⟨LeafFrame.refl path _, by simp⟩
  | succ k ih =>
    unfold resolveLeafRounds at h
    split at h
    · cases h
    · rename_i hres
      cases h
      obtain ⟨hframe, hcover⟩ := resolveRows_leaf hres
      exact ⟨hframe, fun _ => hcover rfl⟩
    · rename_i hres
      cases h
      exact ⟨(resolveRows_leaf hres).1, by simp⟩
    · rename_i hres
      cases h
      exact ⟨(resolveRows_leaf hres).1, by simp⟩
    · rename_i hres
      obtain ⟨hframe, hcover⟩ := ih h
      exact ⟨(resolveRows_leaf hres).1.trans hframe, hcover⟩

theorem reconcileUpsert_leaf (path : Path) (rleaf : Row) (st : Store) :
    LeafFrame path st (st.reconcileUpsert (leafRow path rleaf)).2 ∧
      ((st.reconcileUpsert (leafRow path rleaf)).1 = .apply →
        (st.reconcileUpsert (leafRow path rleaf)).2.Covers path rleaf.vv) := by
  have hpath : (leafRow path rleaf).path = path := by
    unfold leafRow
    split_ifs <;> rfl
  have hvv : (leafRow path rleaf).vv = rleaf.vv := by
    unfold leafRow
    split_ifs <;> rfl
  refine ⟨⟨(Store.rowsGrow_reconcileUpsert st _).mono fun _ _ => trivial, fun q hq _ => ?_⟩,
    fun happly => ?_⟩
  · rcases Store.reconcileUpsert_files st (leafRow path rleaf) with heq | ⟨-, heq⟩
    · rw [heq]
    · rw [heq, Store.upsertFile_files, OrdMap.get?_insert_of_ne]
      rw [hpath]
      exact hq.symm
  · unfold Store.reconcileUpsert at happly ⊢
    dsimp only at happly ⊢
    split_ifs at happly ⊢ with hd
    · refine ⟨{ (leafRow path rleaf).toRow with
        vv := st.mergedVv (leafRow path rleaf).path (leafRow path rleaf).vv }, ?_, ?_⟩
      · rw [Store.upsertFile_files, OrdMap.get?_insert, if_pos hpath]
      · dsimp only
        rw [Store.mergedVv_eq, hvv]
        exact VersionVector.le_merge_right _ _
    · exact absurd happly hd

theorem applyRemoteLeaf_spec {path : Path} {rleaf : Row} {st st' : Store} {out : LeafOutcome}
    (h : applyRemoteLeaf path rleaf st = .ok (out, st')) :
    LeafFrame path st st' ∧ (out ≠ .skipped → st'.Covers path rleaf.vv) := by
  obtain ⟨hframe, hcover⟩ := reconcileUpsert_leaf path rleaf st
  unfold applyRemoteLeaf at h
  dsimp only at h
  split_ifs at h with hviol happly hconc
  · cases h
    exact ⟨hframe, fun _ => hcover happly⟩
  · split at h
    · cases h
    · rename_i hres
      cases h
      obtain ⟨hframe', hcover'⟩ := resolveLeafRounds_spec hres
      exact ⟨hframe.trans hframe', fun _ => hcover' rfl⟩
    · rename_i hres
      cases h
      exact ⟨hframe.trans (resolveLeafRounds_spec hres).1, by simp⟩
  · cases h
    exact ⟨hframe, by simp⟩

/-- What handling a leaf leaves behind. -/
theorem handleLeaf_spec {remote : MerkleTree} {path : Path} {s s' : Puller}
    (h : handleLeaf remote path s = .ok s') :
    LeafFrame path s.store s'.store ∧ s.skips ≤ s'.skips ∧
      (s'.skips = s.skips → ∀ r, remote.leaves.get? path = some r →
        s'.store.Covers path r.vv) := by
  unfold handleLeaf at h
  dsimp only at h
  cases hleaf : remote.leaves.get? path with
  | none =>
    rw [hleaf] at h
    cases h
    exact ⟨LeafFrame.refl _ _, le_rfl, by simp⟩
  | some r =>
    rw [hleaf] at h
    dsimp only at h
    simp only [Option.some.injEq, forall_eq']
    split at h
    · rename_i hd
      cases h
      obtain ⟨row, hrow, hle⟩ := Store.decide_eq_ignore.1 hd
      exact ⟨LeafFrame.refl _ _, le_rfl, fun _ => ⟨row, hrow, hle⟩⟩
    · rename_i hd
      exfalso
      revert hd
      unfold Decision.decide
      split
      · simp
      · split <;> simp
    · split at h
      · cases h
      · rename_i hres
        cases h
        obtain ⟨hframe, hcover⟩ := resolveLeafRounds_spec hres
        exact ⟨hframe, le_rfl, fun _ => hcover rfl⟩
      · rename_i hres
        cases h
        refine ⟨(resolveLeafRounds_spec hres).1, ?_, fun heq => ?_⟩
        · simp only [Puller.skips]
          omega
        · simp only [Puller.skips] at heq
          omega
    · split at h
      · rename_i hrun
        cases h
        obtain ⟨hframe, hcover⟩ := applyRemoteLeaf_spec hrun
        exact ⟨hframe, le_rfl, fun _ => hcover (by simp)⟩
      · rename_i hrun
        cases h
        obtain ⟨hframe, hcover⟩ := applyRemoteLeaf_spec hrun
        exact ⟨hframe, le_rfl, fun _ => hcover (by simp)⟩
      · rename_i hrun
        cases h
        refine ⟨(applyRemoteLeaf_spec hrun).1, ?_, fun heq => ?_⟩
        · simp only [Puller.skips]
          omega
        · simp only [Puller.skips] at heq
          omega
      · split_ifs at h
        cases h
        refine ⟨LeafFrame.refl _ _, ?_, fun heq => ?_⟩
        · simp only [Puller.skips]
          omega
        · simp only [Puller.skips] at heq
          omega

end Replicore
