import Mathlib.Data.List.Dedup
import Replicore.Merkle.Complete
import Replicore.Store.Cursors
import Replicore.Stream.NoGap

/-!
# The join handoff

A session begins with a pull of the responder's rows and then streams its ops from the frontier that
was read with the rows (`snapshot_for_join`).  Rows arrive without their ops, so the jump of the
cursor is sound only if the effect of every own op of the responder is in some row of the snapshot.
It is, in every run (`ownCovered_reach`): an own op is written together with rows at its paths, and
no command takes a row below a vector it covers (`covers_exec`).
-/

namespace Replicore

namespace Store

/-- The rows at the paths of an op are at or above the op. -/
structure CoversOp (st : Store) (o : OpRecord) : Prop where
  path : st.Covers o.path o.vv
  pathOld : ∀ p, o.pathOld = some p → st.Covers p o.vv

/-- A redelivery of an op that is covered decides `Ignore`. -/
theorem CoversOp.decide_eq_ignore {st : Store} {o : OpRecord} (h : st.CoversOp o) :
    Decision.decide (st.loadFile o.path) o.vv = .ignore :=
  Store.decide_eq_ignore.2 h.path

theorem covers_upsertFile_self (st : Store) (row : FileRow) :
    (st.upsertFile row).Covers row.path row.vv :=
  ⟨row.toRow, by simp, le_rfl⟩

/-- A row may be replaced by one that is at or above it. -/
theorem Covers.upsertFile {st : Store} {p : Path} {vv : VersionVector} (h : st.Covers p vv)
    {row : FileRow} (hle : st.vvAt row.path ≤ row.vv) : (st.upsertFile row).Covers p vv := by
  obtain ⟨r, hr, hvv⟩ := h
  by_cases hp : row.path = p
  · subst hp
    rw [vvAt_eq hr] at hle
    exact ⟨row.toRow, by simp, hvv.trans hle⟩
  · refine ⟨r, ?_, hvv⟩
    rw [upsertFile_files, OrdMap.get?_insert_of_ne _ _ hp, hr]

theorem Covers.congr {st st' : Store} {p : Path} {vv : VersionVector} (h : st.Covers p vv)
    (hfiles : st'.files = st.files) : st'.Covers p vv := by
  unfold Covers at h ⊢
  rwa [hfiles]

/-- The number of own ops that a local command gives its row is not at `u64::MAX`. -/
def CountsOn (me : NodeId) (st : Store) : Command → Prop
  | .appendLocal change => (st.vvAt change.path).get me + 1 < u64Bound
  | .appendLocalRename old new =>
    (st.vvAt old).get me + 1 < u64Bound ∧ (st.vvAt new).get me + 1 < u64Bound
  | _ => True

instance (me : NodeId) (st : Store) : DecidablePred (CountsOn me st)
  | .appendLocal change => inferInstanceAs (Decidable ((st.vvAt change.path).get me + 1 < u64Bound))
  | .appendLocalRename old new =>
    inferInstanceAs (Decidable ((st.vvAt old).get me + 1 < u64Bound ∧
      (st.vvAt new).get me + 1 < u64Bound))
  | .applyRemote .. | .reconcileUpsert .. | .resolveRows .. => .isTrue trivial

theorem mem_ownOps {me : NodeId} {st : Store} {o : OpRecord} :
    o ∈ st.ownOps me ↔ o ∈ st.oplog ∧ o.origin = me := by
  simp [ownOps]

section

variable [Blake3] {me : NodeId} {st : Store}

theorem vvAt_le_localOp {change : LocalChange} (h : st.CountsOn me (.appendLocal change)) :
    st.vvAt change.path ≤ (localOp me st change).vv := by
  simp only [localOp, loadRow_vv]
  exact (VersionVector.lt_increment h).le

theorem vvAt_le_renameOp {old new : Path} (h : st.CountsOn me (.appendLocalRename old new))
    {src : FileRow} (hsrc : st.loadRow old = some src) :
    st.vvAt old ≤ (renameOp me st old new src).vv ∧
      st.vvAt new ≤ (renameOp me st old new src).vv :=
  (vvAt_lt_renameOp h.1 h.2 hsrc).imp le_of_lt le_of_lt

/-- No command that counts on takes a row below a vector it covers. -/
theorem covers_exec {cmd : Command} (hcount : st.CountsOn me cmd) {p : Path} {vv : VersionVector}
    (h : st.Covers p vv) : (st.exec me cmd).Covers p vv := by
  cases cmd with
  | appendLocal change =>
    cases hrun : st.appendLocal me change with
    | error e => simpa only [exec, commit, hrun] using h
    | ok x =>
      simp only [exec, commit, hrun]
      obtain ⟨-, heq, -⟩ | ⟨-, -, -, hfiles, -, -, -⟩ := appendLocal_cases hrun
      · rwa [heq]
      · have hup : (st.upsertFile (localRow (localOp me st change))).Covers p vv :=
          h.upsertFile (vvAt_le_localOp hcount)
        exact hup.congr hfiles
  | appendLocalRename old new =>
    obtain hnone | ⟨src, hsrc, -, hne, hrun⟩ := appendLocalRename_cases me st old new
    · simpa only [exec, hnone] using h
    · simp only [exec, hrun]
      obtain ⟨hold, hnew⟩ := vvAt_le_renameOp hcount hsrc
      have hins : (st.insertOp (renameOp me st old new src)).Covers p vv := h.congr (by simp)
      refine (hins.upsertFile ?_).upsertFile ?_
      · exact (vvAt_congr (by rw [insertOp_files])).le.trans hold
      · -- the target is another path, so its row is still the one before the command
        refine (vvAt_congr ?_).le.trans hnew
        change ((st.insertOp _).files.insert old _).get? new = _
        rw [OrdMap.get?_insert_of_ne _ _ hne, insertOp_files]
        rfl
  | applyRemote op d =>
    cases hrun : st.applyRemote op d with
    | error e => simpa only [exec, commit, hrun] using h
    | ok x => simpa only [exec, commit, hrun] using (rowsGrow_applyRemote hrun).covers h
  | reconcileUpsert row => exact (rowsGrow_reconcileUpsert st row).covers h
  | resolveRows path remote staged order =>
    cases hrun : st.resolveRows path remote staged order with
    | error e => simpa only [exec, commit, hrun] using h
    | ok x => simpa only [exec, commit, hrun] using (rowsGrow_resolveRows hrun).covers h

theorem CoversOp.exec {o : OpRecord} (h : st.CoversOp o) {cmd : Command}
    (hcount : st.CountsOn me cmd) : (st.exec me cmd).CoversOp o :=
  ⟨covers_exec hcount h.path, fun p hp => covers_exec hcount (h.pathOld p hp)⟩

/-- The op that a local command returns is covered after the command. -/
theorem coversOp_emitted {cmd : Command} {o : OpRecord} (h : cmd.emitted me st = some o) :
    (st.exec me cmd).CoversOp o := by
  cases cmd with
  | appendLocal change =>
    cases hrun : st.appendLocal me change with
    | error e => simp [Command.emitted, hrun] at h
    | ok x =>
      obtain ⟨o', st'⟩ := x
      simp only [Command.emitted, hrun] at h
      simp only [exec, commit, hrun]
      obtain ⟨hnone, -, -⟩ | ⟨hsome, -, -, hfiles, -, -, -⟩ := appendLocal_cases hrun
      · cases hnone.symm.trans h
      · cases hsome.symm.trans h
        refine ⟨?_, fun p hp => ?_⟩
        · exact (covers_upsertFile_self st (localRow (localOp me st change))).congr hfiles
        · cases hp
  | appendLocalRename old new =>
    obtain hnone | ⟨src, -, -, hne, hrun⟩ := appendLocalRename_cases me st old new
    · simp [Command.emitted, hnone] at h
    · simp only [Command.emitted, hrun, Option.some.injEq] at h
      simp only [exec, hrun]
      subst h
      refine ⟨covers_upsertFile_self _ (localRow (renameOp me st old new src)), fun p hp => ?_⟩
      cases hp
      refine ⟨(sourceRow old (renameOp me st old new src).vv
        (renameOp me st old new src).uuid).toRow, ?_, le_rfl⟩
      change (((st.insertOp _).files.insert old _).insert new _).get? old = _
      rw [OrdMap.get?_insert_of_ne _ _ (Ne.symm hne)]
      exact OrdMap.get?_insert_self _ _ _
  | applyRemote op d => cases h
  | reconcileUpsert row => cases h
  | resolveRows path remote staged order => cases h

/-- The runs of the store of node `me`: any command the wire admits. -/
def admitted (me : NodeId) : Lts Store Command := Lts.ofFun (fun _ cmd => cmd.Admitted me) (exec me)

/-- Every own op is covered. -/
def OwnCovered (me : NodeId) (st : Store) : Prop := ∀ o ∈ st.ownOps me, st.CoversOp o

/-- An own op after a command was there before, or the command returned it. -/
theorem mem_ownOps_exec {cmd : Command} (hadm : cmd.Admitted me) {o : OpRecord}
    (ho : o ∈ (st.exec me cmd).ownOps me) :
    o ∈ st.ownOps me ∨ cmd.emitted me st = some o ∧ o.originSeq = st.latestOriginSeq me + 1 := by
  obtain ⟨ho, horigin⟩ := mem_ownOps.1 ho
  have hins : ∀ op, o ∈ (st.insertOp op).oplog → o ∈ st.oplog ∨ o = op := by
    intro op h
    unfold insertOp at h
    split_ifs at h
    · exact .inl h
    · simpa using h
  obtain ⟨hlog, -, -⟩ | ⟨op, hem, -, hseq, -, hlog, -⟩ | ⟨op, hrec, -, hlog, -⟩ :=
    exec_log me st cmd
  · rw [hlog] at ho
    exact .inl (mem_ownOps.2 ⟨ho, horigin⟩)
  · rw [hlog] at ho
    obtain ho | rfl := hins op ho
    · exact .inl (mem_ownOps.2 ⟨ho, horigin⟩)
    · exact .inr ⟨hem, hseq⟩
  · rw [hlog] at ho
    obtain ho | rfl := hins op ho
    · exact .inl (mem_ownOps.2 ⟨ho, horigin⟩)
    · exact absurd horigin (hadm o hrec)

theorem OwnCovered.exec (h : OwnCovered me st) {cmd : Command} (hadm : cmd.Admitted me)
    (hcount : st.CountsOn me cmd) :
    OwnCovered me (st.exec me cmd) := by
  intro o ho
  obtain ho | ⟨hem, -⟩ := mem_ownOps_exec hadm ho
  · exact (h o ho).exec hcount
  · exact coversOp_emitted hem

/-- In every run that counts on, every own op is covered. -/
theorem ownCovered_reach (h : ((admitted me).restrict (CountsOn me)).Reach {} st) :
    OwnCovered me st := by
  refine h.invariant (fun o ho => (by cases ho)) fun s cmd s' _ hs hstep => ?_
  obtain ⟨hcount, hadm, rfl⟩ := hstep
  exact hs.exec hadm hcount

/-- What is appended after a moment is numbered past the latest op of that moment. -/
theorem mem_ownOps_later {st' : Store} (h : (admitted me).Reach st st') :
    st.latestOriginSeq me ≤ st'.latestOriginSeq me ∧ ∀ o ∈ st'.ownOps me,
      o ∈ st.ownOps me ∨ st.latestOriginSeq me < o.originSeq := by
  refine h.invariant (I := fun s => st.latestOriginSeq me ≤ s.latestOriginSeq me ∧
    ∀ o ∈ s.ownOps me, o ∈ st.ownOps me ∨ st.latestOriginSeq me < o.originSeq)
    ⟨le_rfl, fun o ho => .inl ho⟩ fun s cmd s' _ hs hstep => ?_
  obtain ⟨hadm, rfl⟩ := hstep
  refine ⟨hs.1.trans (latestOriginSeq_le_exec hadm), fun o ho => ?_⟩
  obtain ho | ⟨-, hseq⟩ := mem_ownOps_exec hadm ho
  · exact hs.2 o ho
  · have := hs.1
    exact .inr (by omega)

end

/-- On a page that is long enough, every own op past the cursor is returned. -/
theorem mem_opsSince_of_lt {st : Store} {me : NodeId} {o : OpRecord} (ho : o ∈ st.ownOps me) {a : ℤ}
    (h : a < o.originSeq) {limit : ℕ} (hlimit : (st.ownOps me).length ≤ limit) :
    o ∈ st.opsSince me a limit := by
  have hpage : ((st.oplog.filter fun o => o.origin = me ∧ a < o.originSeq).insertionSort
      fun a b => a.originSeq ≤ b.originSeq).length ≤ limit := by
    rw [List.length_insertionSort]
    refine le_trans (List.Sublist.length_le ?_) hlimit
    exact List.monotone_filter_right _ fun o ho => by simp_all
  rw [opsSince, List.take_of_length_le hpage, List.mem_insertionSort]
  obtain ⟨ho, horigin⟩ := mem_ownOps.1 ho
  exact List.mem_filter.2 ⟨ho, by simp [horigin, h]⟩

end Store

/-! ### The handoff -/

/-- The full index and the op frontier of every origin, read in one turn of the store. -/
structure JoinSnapshot where
  rows : List FileRow
  frontier : List (NodeId × ℤ)

/-- The origins of the ops as a grouping query returns them: first those that `order` lists. -/
def Store.scanOrigins (st : Store) (order : List NodeId) : List NodeId :=
  (st.oplog.map (·.origin)).dedup.insertionSort fun a b => order.idxOf a ≤ order.idxOf b

theorem Store.mem_scanOrigins {st : Store} {order : List NodeId} {origin : NodeId} :
    origin ∈ st.scanOrigins order ↔ ∃ o ∈ st.oplog, o.origin = origin := by
  rw [scanOrigins, List.mem_insertionSort, List.mem_dedup, List.mem_map]

/-- `snapshot_for_join`. -/
def Store.snapshotForJoin (st : Store) (order : List NodeId := []) : JoinSnapshot where
  rows := st.allFiles
  frontier := (st.scanOrigins order).map fun origin => (origin, st.latestOriginSeq origin)

/-- The frontier's value for a peer, zero if the peer is not in it. -/
def JoinSnapshot.peerFrontier (snap : JoinSnapshot) (peer : NodeId) : ℤ :=
  ((snap.frontier.find? fun e => e.1 = peer).map Prod.snd).getD 0

theorem peerFrontier_snapshotForJoin (st : Store) (order : List NodeId) (peer : NodeId) :
    (st.snapshotForJoin order).peerFrontier peer = st.latestOriginSeq peer := by
  unfold JoinSnapshot.peerFrontier
  cases hfind : (st.snapshotForJoin order).frontier.find? fun e => e.1 = peer with
  | some e =>
    have hpeer : e.1 = peer := by simpa using List.find?_some hfind
    obtain ⟨origin, -, rfl⟩ := List.mem_map.1 (List.mem_of_find?_eq_some hfind)
    subst hpeer
    rfl
  | none =>
    -- no op of this origin was ever recorded
    have hno : ∀ o ∈ st.oplog, o.origin ≠ peer := by
      intro o ho horigin
      have hmem : (peer, st.latestOriginSeq peer) ∈ (st.snapshotForJoin order).frontier :=
        List.mem_map.2 ⟨peer, Store.mem_scanOrigins.2 ⟨o, ho, horigin⟩, rfl⟩
      simpa using List.find?_eq_none.1 hfind _ hmem
    obtain hzero | ⟨o, ho, horigin, -⟩ := Store.latestOriginSeq_mem st peer
    · exact hzero.symm
    · exact absurd horigin (hno o ho)

/-- The end of the gate: the cursor the live stream resumes from, and the store with the cursor
advanced to it.  `resumeFrom` is the cursor at the beginning of the session. -/
def joinHandoff (peer : NodeId) (snap : JoinSnapshot) (resumeFrom : ℤ) (st : Store) : ℤ × Store :=
  let newCursor := max (snap.peerFrontier peer) resumeFrom
  (newCursor, if resumeFrom < newCursor then st.advanceRecvCursor peer peer newCursor else st)

theorem joinHandoff_files (peer : NodeId) (snap : JoinSnapshot) (resumeFrom : ℤ) (st : Store) :
    (joinHandoff peer snap resumeFrom st).2.files = st.files := by
  unfold joinHandoff
  dsimp only
  split_ifs <;> rfl

section

variable [Blake3]

theorem leaves_hashUp (leaves : OrdMap Path FileRow) (ps : List Path) (dirs : Dirs) :
    (MerkleTree.hashUp leaves ps dirs).leaves = leaves := by
  induction ps generalizing dirs with
  | nil => rfl
  | cons p ps ih =>
    simp only [MerkleTree.hashUp]
    split_ifs
    · rfl
    · exact ih _

/-- Every row of a snapshot is a leaf of the tree that is built from it. -/
theorem leaf_of_mem_allFiles {st : Store} {r : FileRow} (hr : r ∈ st.allFiles) :
    (MerkleTree.build st.allFiles).leaves.get? r.path = some r := by
  unfold MerkleTree.build
  rw [leaves_hashUp]
  exact (leaves_foldl (List.pairwise_map.2 st.files.sorted) r.path r).2 ⟨hr, rfl⟩

/-- The puller handles the leaves at these paths, in this order. -/
def handleLeaves (remote : MerkleTree) (paths : List Path) (s : Puller) :
    Except ReconcileError Puller :=
  paths.foldlM (fun s path => handleLeaf remote path s) s

/-- Without a skip every leaf that was handled is covered at the end. -/
theorem handleLeaves_spec {remote : MerkleTree} {paths : List Path} {s s' : Puller}
    (h : handleLeaves remote paths s = .ok s') :
    Store.RowsGrow (fun _ => True) s.store s'.store ∧ s.skips ≤ s'.skips ∧
      (s'.skips = s.skips → ∀ p ∈ paths, ∀ r, remote.leaves.get? p = some r →
        s'.store.Covers p r.vv) := by
  induction paths generalizing s with
  | nil =>
    cases h
    exact ⟨Store.RowsGrow.of_files_eq rfl, le_rfl, fun _ p hp => (by cases hp)⟩
  | cons path paths ih =>
    rw [handleLeaves, List.foldlM_cons] at h
    obtain ⟨s₁, hleaf, hrest⟩ := Result.exists_of_bind_eq_ok h
    obtain ⟨hframe, hle, hcover⟩ := handleLeaf_spec hleaf
    obtain ⟨hgrow', hle', hcover'⟩ := ih hrest
    refine ⟨hframe.grow.trans hgrow', hle.trans hle', fun hskips p hp r hr => ?_⟩
    obtain rfl | hp := List.mem_cons.1 hp
    · exact hgrow'.covers (hcover (by omega) r hr)
    · exact hcover' (by omega) p hp r hr

/-- **The join handoff loses nothing**, as long as no own counter of the responder wraps around.
The puller takes in every row of the snapshot without a skip, and its cursor is advanced to the
frontier's value, whatever the responder appended after the snapshot.  Then every own op of the
responder up to that value is covered, and every own op past the cursor is returned by `ops_since`
from the cursor.  (A puller that was past the frontier already keeps its cursor.) -/
theorem join_handoff_loses_nothing {peer : NodeId} {st st' : Store}
    (hrun : ((Store.admitted peer).restrict (Store.CountsOn peer)).Reach {} st)
    (hlater : (Store.admitted peer).Reach st st') {paths : List Path}
    (hpaths : ∀ r ∈ st.snapshotForJoin.rows, r.path ∈ paths) {s s' : Puller}
    (hpull : handleLeaves (MerkleTree.build st.snapshotForJoin.rows) paths s = .ok s')
    (hskips : s'.skips = s.skips) (resumeFrom : ℤ) (order : List NodeId) :
    let frontier := (st.snapshotForJoin order).peerFrontier peer
    let handoff := joinHandoff peer (st.snapshotForJoin order) resumeFrom s'.store
    (resumeFrom ≤ frontier → handoff.1 = frontier) ∧
      ∀ o ∈ st'.ownOps peer,
        (o.originSeq ≤ frontier → handoff.2.CoversOp o ∧
          Decision.decide (handoff.2.loadFile o.path) o.vv = .ignore) ∧
        (handoff.1 < o.originSeq → ∀ limit, (st'.ownOps peer).length ≤ limit →
          o ∈ st'.opsSince peer handoff.1 limit) := by
  intro frontier handoff
  refine ⟨fun hle => max_eq_left hle, fun o ho => ⟨fun hseq => ?_, fun hlt limit hlimit => ?_⟩⟩
  · -- the op was there at the snapshot, so a row of the snapshot covers it at each of its paths
    have hold : o ∈ st.ownOps peer := by
      refine ((Store.mem_ownOps_later hlater).2 o ho).resolve_right ?_
      have hfrontier : frontier = st.latestOriginSeq peer :=
        peerFrontier_snapshotForJoin st order peer
      omega
    obtain ⟨-, -, hcover⟩ := handleLeaves_spec hpull
    have hrow : ∀ p, st.Covers p o.vv → s'.store.Covers p o.vv := by
      rintro p ⟨r, hr, hle⟩
      have hmem : (⟨r, p⟩ : FileRow) ∈ st.allFiles :=
        List.mem_map.2 ⟨(p, r), OrdMap.mem_entries.2 hr, rfl⟩
      obtain ⟨r', hr', hle'⟩ := hcover hskips p (hpaths _ hmem) _ (leaf_of_mem_allFiles hmem)
      exact ⟨r', hr', hle.trans hle'⟩
    have hcovered := Store.ownCovered_reach hrun o hold
    have hfiles := joinHandoff_files peer (st.snapshotForJoin order) resumeFrom s'.store
    have hop : handoff.2.CoversOp o :=
      ⟨(hrow _ hcovered.path).congr hfiles, fun p hp => (hrow p (hcovered.pathOld p hp)).congr hfiles⟩
    exact ⟨hop, hop.decide_eq_ignore⟩
  · exact Store.mem_opsSince_of_lt ho hlt hlimit

end

section Example

attribute [local instance] Blake3.polynomial

open Store

/-- Node 2 wrote `f` over node 1's write, with the given count for node 1. -/
def overF (count : ℕ) : OpRecord :=
  { foreignF with vv := VersionVector.fromIter [(1, count), (2, 1)] }

/-- Node 1 writes `f`, takes in the op of node 2 and writes `f` again. -/
def writeOverWrite (count : ℕ) : List Command :=
  [.appendLocal writeF, .applyRemote (overF count) .apply,
    .appendLocal { writeF with contentHash := some 8 }]

/-- `u64::MAX`. -/
def maxCount : ℕ := 2 ^ 64 - 1

/-- The store of node 1 after that. -/
def responder (count : ℕ) : Store := (writeOverWrite count).foldl (exec 1) {}

/-- An empty node takes in the rows of the responder. -/
def joiner (count : ℕ) : Except ReconcileError Puller :=
  handleLeaves (MerkleTree.build (responder count).snapshotForJoin.rows) [['f']] { store := {} }

theorem admitted_overF (count : ℕ) : Command.Admitted 1 (.applyRemote (overF count) .apply) := by
  rintro op ⟨⟩
  show (2 : NodeId) ≠ 1
  decide

theorem admitted_appendLocal (me : NodeId) (change : LocalChange) :
    Command.Admitted me (.appendLocal change) := by
  rintro op ⟨⟩

theorem joiner_eq_ok {count : ℕ} {P : Puller → Bool} (h : (joiner count).toOption.any P) :
    ∃ s', joiner count = .ok s' ∧ P s' := by
  cases hj : joiner count with
  | error e => rw [hj] at h; cases h
  | ok s' =>
    rw [hj] at h
    exact ⟨s', rfl, h⟩

theorem join_handoff_loses_nothing_over_write :
    ∃ s', joiner 1 = .ok s' ∧ ∃ o ∈ (responder 1).ownOps 1, o.originSeq = 1 ∧
      (joinHandoff 1 (responder 1).snapshotForJoin 0 s'.store).2.CoversOp o := by
  have hjoin : (joiner 1).toOption.any fun s' => s'.skips = 0 := by decide +kernel
  obtain ⟨s', hrun, hskips⟩ := joiner_eq_ok hjoin
  have hreach : ((admitted 1).restrict (CountsOn 1)).Reach {} (responder 1) := by
    rw [admitted, Lts.restrict_ofFun]
    exact .of_foldl .init ⟨⟨by decide +kernel, admitted_appendLocal _ _⟩,
      ⟨by decide +kernel, admitted_overF 1⟩, ⟨by decide +kernel, admitted_appendLocal _ _⟩, trivial⟩
  have hpaths : ∀ r ∈ (responder 1).snapshotForJoin.rows, r.path ∈ [['f']] := by decide +kernel
  have hmem : localOp 1 {} writeF ∈ (responder 1).ownOps 1 := by decide +kernel
  obtain ⟨-, hops⟩ := join_handoff_loses_nothing hreach .init hpaths hrun
    (of_decide_eq_true hskips) 0 []
  exact ⟨s', hrun, _, hmem, by decide +kernel, ((hops _ hmem).1 (by decide +kernel)).1⟩

/-- **An op that no row covers**: node 2's op brings the count `u64::MAX` for node 1, and node 1's
next write wraps it around.  The joiner's cursor passes node 1's first op, and its row is not at or
above it. -/
theorem join_handoff_loses_wrapped_op :
    ∃ st s', (admitted 1).Reach {} st ∧ (∀ r ∈ st.snapshotForJoin.rows, r.path ∈ [['f']]) ∧
      handleLeaves (MerkleTree.build st.snapshotForJoin.rows) [['f']] { store := {} } = .ok s' ∧
      s'.skips = 0 ∧ ∃ o ∈ st.ownOps 1,
        o.originSeq ≤ (joinHandoff 1 st.snapshotForJoin 0 s'.store).1 ∧
        ¬ (joinHandoff 1 st.snapshotForJoin 0 s'.store).2.Covers o.path o.vv ∧
        Decision.decide ((joinHandoff 1 st.snapshotForJoin 0 s'.store).2.loadFile o.path) o.vv ≠
          .ignore := by
  let o := localOp 1 {} writeF
  let handoff : Puller → ℤ × Store := fun s' =>
    joinHandoff 1 (responder maxCount).snapshotForJoin 0 s'.store
  have hjoin : (joiner maxCount).toOption.any fun s' =>
      s'.skips = 0 ∧ o.originSeq ≤ (handoff s').1 ∧
        Decision.decide ((handoff s').2.loadFile o.path) o.vv ≠ .ignore := by
    decide +kernel
  obtain ⟨s', hrun, hs'⟩ := joiner_eq_ok hjoin
  obtain ⟨hskips, hseq, hignore⟩ := of_decide_eq_true hs'
  refine ⟨responder maxCount, s', ?_, by decide +kernel, hrun, hskips, o, by decide +kernel, hseq,
    fun hcover => hignore (Store.decide_eq_ignore.2 hcover), hignore⟩
  exact .of_foldl .init
    ⟨admitted_appendLocal _ _, admitted_overF maxCount, admitted_appendLocal _ _, trivial⟩

end Example

end Replicore
