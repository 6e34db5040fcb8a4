import Replicore.Store.Commands

/-!
# What each command touches

Frame lemmas of the store commands: which tables a primitive leaves alone, what it does to the rest,
and, for each command, the one shape its result can have.  Everything proved about the store later
goes through these lemmas; no later proof unfolds a command.
-/

namespace Replicore

namespace Store

/-! ### Primitives -/

section Primitives

variable (st : Store) (op : OpRecord) (row : FileRow) (h : Hash) (m : Manifest)
variable (peer origin : NodeId) (n : ℤ)

@[simp] theorem insertOp_files : (st.insertOp op).files = st.files := by
  unfold insertOp; split_ifs <;> rfl

@[simp] theorem insertOp_applied : (st.insertOp op).applied = st.applied := by
  unfold insertOp; split_ifs <;> rfl

@[simp] theorem insertOp_peerCursors : (st.insertOp op).peerCursors = st.peerCursors := by
  unfold insertOp; split_ifs <;> rfl

@[simp] theorem upsertFile_files :
    (st.upsertFile row).files = st.files.insert row.path row.toRow := rfl

@[simp] theorem upsertFile_oplog : (st.upsertFile row).oplog = st.oplog := rfl

@[simp] theorem upsertFile_applied : (st.upsertFile row).applied = st.applied := rfl

@[simp] theorem upsertFile_peerCursors : (st.upsertFile row).peerCursors = st.peerCursors := rfl

@[simp] theorem markApplied_files : (st.markApplied h).files = st.files := by
  unfold markApplied; split_ifs <;> rfl

@[simp] theorem markApplied_oplog : (st.markApplied h).oplog = st.oplog := by
  unfold markApplied; split_ifs <;> rfl

@[simp] theorem markApplied_peerCursors : (st.markApplied h).peerCursors = st.peerCursors := by
  unfold markApplied; split_ifs <;> rfl

@[simp] theorem advanceRecvCursor_files :
    (st.advanceRecvCursor peer origin n).files = st.files := rfl

@[simp] theorem advanceRecvCursor_oplog :
    (st.advanceRecvCursor peer origin n).oplog = st.oplog := rfl

@[simp] theorem advanceRecvCursor_applied :
    (st.advanceRecvCursor peer origin n).applied = st.applied := rfl

@[simp] theorem putManifest_files : (st.putManifest m).files = st.files := rfl

@[simp] theorem putManifest_oplog : (st.putManifest m).oplog = st.oplog := rfl

@[simp] theorem putManifest_applied : (st.putManifest m).applied = st.applied := rfl

@[simp] theorem putManifest_peerCursors : (st.putManifest m).peerCursors = st.peerCursors := rfl

theorem mem_insertOp {o : OpRecord} :
    o ∈ (st.insertOp op).oplog ↔
      o ∈ st.oplog ∨ o = op ∧ ∀ o' ∈ st.oplog, o'.opId ≠ op.opId := by
  unfold insertOp
  split_ifs with hany
  · simp only [List.any_eq_true, decide_eq_true_eq] at hany
    obtain ⟨o', ho', hid⟩ := hany
    exact ⟨Or.inl, fun h => h.elim id fun h => absurd hid (h.2 o' ho')⟩
  · simp only [List.any_eq_true, decide_eq_true_eq, not_exists, not_and] at hany
    simp only [List.mem_append, List.mem_singleton]
    exact ⟨fun h => h.imp_right fun h => ⟨h, hany⟩, fun h => h.imp_right And.left⟩

theorem mem_markApplied {i : Hash} : i ∈ (st.markApplied h).applied ↔ i ∈ st.applied ∨ i = h := by
  unfold markApplied
  split_ifs with hm
  · exact ⟨Or.inl, fun hi => hi.elim id fun hi => hi ▸ hm⟩
  · simp

theorem recvCursor_advanceRecvCursor (q : NodeId) :
    (st.advanceRecvCursor peer peer n).recvCursor q =
      if peer = q then max (st.recvCursor q) n else st.recvCursor q := by
  simp only [recvCursor, cursorRow, advanceRecvCursor, OrdMap.getD, OrdMap.get?_insert]
  by_cases hq : peer = q
  · simp [hq]
  · simp [hq]

theorem recvCursor_congr {st st' : Store} (h : st'.peerCursors = st.peerCursors) (q : NodeId) :
    st'.recvCursor q = st.recvCursor q := by
  rw [recvCursor, cursorRow, h]
  rfl

@[simp] theorem advanceAck_oplog : (st.advanceAck peer origin n).oplog = st.oplog := rfl

end Primitives

/-! ### Reading a row -/

theorem loadFile_eq (st : Store) (p : Path) :
    st.loadFile p = (st.files.get? p).map fun r =>
      { vv := r.vv, tombstone := r.tombstone, contentHash := r.contentHash, mode := r.mode } := rfl

theorem decide_eq_apply {st : Store} {p : Path} {vv : VersionVector} :
    Decision.decide (st.loadFile p) vv = .apply ↔ ∀ r, st.files.get? p = some r → r.vv < vv := by
  rw [Decision.decide_eq_apply, loadFile_eq]
  cases st.files.get? p <;> simp

theorem decide_eq_ignore {st : Store} {p : Path} {vv : VersionVector} :
    Decision.decide (st.loadFile p) vv = .ignore ↔ ∃ r, st.files.get? p = some r ∧ vv ≤ r.vv := by
  rw [Decision.decide_eq_ignore, loadFile_eq]
  cases st.files.get? p <;> simp

theorem decide_eq_concurrent {st : Store} {p : Path} {vv : VersionVector} :
    Decision.decide (st.loadFile p) vv = .concurrent ↔
      ∃ r, st.files.get? p = some r ∧ ¬ vv ≤ r.vv ∧ ¬ r.vv ≤ vv := by
  rw [Decision.decide_eq_concurrent, loadFile_eq]
  cases st.files.get? p <;> simp

/-- The vector of the row at a path, the empty vector where there is none. -/
def vvAt (st : Store) (p : Path) : VersionVector :=
  ((st.files.get? p).map (·.vv)).getD VersionVector.new

theorem vvAt_eq {st : Store} {p : Path} {r : Row} (h : st.files.get? p = some r) :
    st.vvAt p = r.vv := by
  simp [vvAt, h]

theorem vvAt_eq_new {st : Store} {p : Path} (h : st.files.get? p = none) :
    st.vvAt p = VersionVector.new := by
  simp [vvAt, h]

theorem mergedVv_eq (st : Store) (p : Path) (vv : VersionVector) :
    st.mergedVv p vv = (st.vvAt p).merge vv := by
  simp only [mergedVv, loadFile_eq, vvAt, Option.map_map, Function.comp_def]

theorem loadRow_eq_some {st : Store} {p : Path} {r : FileRow} :
    st.loadRow p = some r ↔ st.files.get? p = some r.toRow ∧ r.path = p := by
  rw [loadRow, Option.map_eq_some_iff]
  constructor
  · rintro ⟨x, hx, rfl⟩
    exact ⟨hx, rfl⟩
  · rintro ⟨hx, rfl⟩
    exact ⟨r.toRow, hx, rfl⟩

theorem loadRow_eq_none {st : Store} {p : Path} :
    st.loadRow p = none ↔ st.files.get? p = none := by
  rw [loadRow, Option.map_eq_none_iff]

theorem loadRow_vv (st : Store) (p : Path) :
    ((st.loadRow p).map (·.vv)).getD VersionVector.new = st.vvAt p := by
  simp only [loadRow, vvAt, Option.map_map, Function.comp_def]

/-- Committing a list of rows is an update of the table, row by row. -/
theorem foldl_upsertFile_files (rows : List FileRow) (st : Store) :
    (rows.foldl upsertFile st).files = st.files.upsertAll (rows.map fun r => (r.path, r.toRow)) := by
  induction rows generalizing st with
  | nil => rfl
  | cons r rows ih => simp only [List.foldl_cons, ih, upsertFile_files, List.map_cons,
      OrdMap.upsertAll_cons]

/-- Committing rows changes no other table. -/
theorem foldl_upsertFile_eq (rows : List FileRow) (st : Store) :
    rows.foldl upsertFile st = { st with files := (rows.foldl upsertFile st).files } := by
  induction rows generalizing st with
  | nil => rfl
  | cons row rows ih => rw [List.foldl_cons, ih (st.upsertFile row), upsertFile]

theorem foldl_upsertFile_oplog (rows : List FileRow) (st : Store) :
    (rows.foldl upsertFile st).oplog = st.oplog := by
  rw [foldl_upsertFile_eq]

theorem foldl_upsertFile_peerCursors (rows : List FileRow) (st : Store) :
    (rows.foldl upsertFile st).peerCursors = st.peerCursors := by
  rw [foldl_upsertFile_eq]

theorem foldl_upsertFile_applied (rows : List FileRow) (st : Store) :
    (rows.foldl upsertFile st).applied = st.applied := by
  rw [foldl_upsertFile_eq]

/-! ### Results of the commands -/

section

variable [Blake3]

/-- A local change fails, or is a no-op, or appends one op and writes the row of its path. -/
theorem appendLocal_cases {nodeId : NodeId} {st st' : Store} {change : LocalChange}
    {o : Option OpRecord} (h : st.appendLocal nodeId change = .ok (o, st')) :
    (o = none ∧ st' = st ∧ isNoOp (st.loadRow change.path) change = true) ∨
    (o = some (localOp nodeId st change) ∧ change.opType ≠ .rename ∧
      isNoOp (st.loadRow change.path) change = false ∧
      st'.files = st.files.insert change.path (localRow (localOp nodeId st change)).toRow ∧
      st'.oplog = (st.insertOp (localOp nodeId st change)).oplog ∧
      st'.applied = st.applied ∧ st'.peerCursors = st.peerCursors) := by
  unfold appendLocal at h
  split_ifs at h with hren hno
  · cases h
    exact .inl ⟨rfl, rfl, hno⟩
  · dsimp only at h
    split at h
    · cases h
      exact .inr ⟨rfl, hren, by simpa using hno, by simp [localRow, localOp], rfl, by simp, by simp⟩
    · split_ifs at h with hm
      cases h
      exact .inr ⟨rfl, hren, by simpa using hno, by simp [localRow, localOp], rfl, by simp, by simp⟩

/-- A local rename is a no-op, or appends one op and writes the rows of its two paths. -/
theorem appendLocalRename_cases (nodeId : NodeId) (st : Store) (old new : Path) :
    st.appendLocalRename nodeId old new = (none, st) ∨
    ∃ src, st.loadRow old = some src ∧ src.tombstone = false ∧ old ≠ new ∧
      st.appendLocalRename nodeId old new = (some (renameOp nodeId st old new src),
        ((st.insertOp (renameOp nodeId st old new src)).upsertFile
          (sourceRow old (renameOp nodeId st old new src).vv
            (renameOp nodeId st old new src).uuid)).upsertFile
          (localRow (renameOp nodeId st old new src))) := by
  unfold appendLocalRename
  split_ifs with hne
  · exact .inl rfl
  · cases hsrc : st.loadRow old with
    | none => exact .inl rfl
    | some src =>
      dsimp only
      split_ifs with htomb
      · exact .inl rfl
      · exact .inr ⟨src, rfl, by simpa using htomb, hne, rfl⟩

/-- A resolution changes nothing, or commits the plan derived from the current tables. -/
theorem resolveRows_cases {st st' : Store} {path : Path} {remote : Version}
    {staged : List PlannedRow} {order : List Hash} {out : ResolveOutcome}
    (h : st.resolveRows path remote staged order = .ok (out, st')) :
    (out ≠ .resolved ∧ st' = st) ∨
    (out = .resolved ∧ Decision.decide (st.loadFile path) remote.vv = .concurrent ∧
      ∃ localRow, st.loadRow path = some localRow ∧
        planCandidates path (st.candidates path remote localRow order) st.lookupVersion =
          some staged ∧
        st' = staged.foldl upsertFile st) := by
  unfold resolveRows at h
  dsimp only at h
  split_ifs at h with hdec
  · cases h
    exact .inl ⟨by simp, rfl⟩
  · cases hrow : st.loadRow path with
    | none => simp only [hrow] at h; cases h
    | some localRow =>
      simp only [hrow] at h
      cases hplan : planCandidates path (st.candidates path remote localRow order)
          st.lookupVersion with
      | none =>
        simp only [hplan] at h
        cases h
        exact .inl ⟨by simp, rfl⟩
      | some derived =>
        simp only [hplan] at h
        split_ifs at h with hst
        · cases h
          exact .inl ⟨by simp, rfl⟩
        · simp only [ne_eq, not_not] at hst hdec
          subst hst
          cases h
          exact .inr ⟨rfl, hdec, localRow, rfl, hplan, rfl⟩

end

/-- A remote op's effect at its path: nothing, or the row it dominates is replaced. -/
theorem applyPrimary_cases (st : Store) (op : OpRecord) (d : Decision) :
    ((st.applyPrimary op d).2 = st ∧
      (d = .apply → ¬ ∀ r, st.files.get? op.path = some r → r.vv < op.vv)) ∨
    (d = .apply ∧ (st.applyPrimary op d).1 = .apply ∧
      (∀ r, st.files.get? op.path = some r → r.vv < op.vv) ∧
      (st.applyPrimary op d).2 =
        st.upsertFile (appliedRow op ((st.vvAt op.path).merge op.vv))) := by
  unfold applyPrimary
  dsimp only
  split_ifs with hd he
  · exact .inr ⟨hd, he, decide_eq_apply.1 he, by rw [mergedVv_eq]⟩
  · exact .inl ⟨rfl, fun _ h => he (decide_eq_apply.2 h)⟩
  · exact .inl ⟨rfl, fun h => absurd h hd⟩

/-- A remote rename's effect at its source: nothing, or the row it dominates becomes a tombstone. -/
theorem applySource_cases {st st' : Store} {op : OpRecord} (h : st.applySource op = .ok st') :
    (st' = st ∧ ∀ p, op.opType = .rename → op.pathOld = some p →
      ¬ ∀ r, st.files.get? p = some r → r.vv < op.vv) ∨
    ∃ p, op.opType = .rename ∧ op.pathOld = some p ∧
      (∀ r, st.files.get? p = some r → r.vv < op.vv) ∧
      st' = st.upsertFile (sourceRow p ((st.vvAt p).merge op.vv) op.uuid) := by
  unfold applySource at h
  split_ifs at h with hren
  · cases hold : op.pathOld with
    | none => simp only [hold] at h; cases h
    | some p =>
      simp only [hold] at h
      split_ifs at h with hd
      · cases h
        exact .inr ⟨p, hren, rfl, decide_eq_apply.1 hd, by rw [mergedVv_eq]⟩
      · cases h
        refine .inl ⟨rfl, fun q _ hq hall => hd (decide_eq_apply.2 ?_)⟩
        cases hq
        exact hall
  · cases h
    exact .inl ⟨rfl, fun _ hr => absurd hr hren⟩

@[simp] theorem applyPrimary_oplog (st : Store) (op : OpRecord) (d : Decision) :
    (st.applyPrimary op d).2.oplog = st.oplog := by
  rcases applyPrimary_cases st op d with ⟨h, -⟩ | ⟨-, -, -, h⟩ <;> rw [h]; rfl

@[simp] theorem applyPrimary_applied (st : Store) (op : OpRecord) (d : Decision) :
    (st.applyPrimary op d).2.applied = st.applied := by
  rcases applyPrimary_cases st op d with ⟨h, -⟩ | ⟨-, -, -, h⟩ <;> rw [h]; rfl

@[simp] theorem applyPrimary_peerCursors (st : Store) (op : OpRecord) (d : Decision) :
    (st.applyPrimary op d).2.peerCursors = st.peerCursors := by
  rcases applyPrimary_cases st op d with ⟨h, -⟩ | ⟨-, -, -, h⟩ <;> rw [h]; rfl

theorem applySource_oplog {st st' : Store} {op : OpRecord} (h : st.applySource op = .ok st') :
    st'.oplog = st.oplog := by
  rcases applySource_cases h with ⟨rfl, -⟩ | ⟨p, -, -, -, rfl⟩ <;> rfl

theorem applySource_applied {st st' : Store} {op : OpRecord} (h : st.applySource op = .ok st') :
    st'.applied = st.applied := by
  rcases applySource_cases h with ⟨rfl, -⟩ | ⟨p, -, -, -, rfl⟩ <;> rfl

theorem applySource_peerCursors {st st' : Store} {op : OpRecord}
    (h : st.applySource op = .ok st') : st'.peerCursors = st.peerCursors := by
  rcases applySource_cases h with ⟨rfl, -⟩ | ⟨p, -, -, -, rfl⟩ <;> rfl

/-- A remote op is a redelivery and only moves the cursor, or it is recorded after its two
path-effects. -/
theorem applyRemote_cases {st st' : Store} {op : OpRecord} {d e : Decision}
    (h : st.applyRemote op d = .ok (e, st')) :
    (op.opId ∈ st.applied ∧ e = d ∧
      st' = st.advanceRecvCursor op.origin op.origin op.originSeq) ∨
    (op.opId ∉ st.applied ∧ ∃ st₂,
      ((st.insertOp op).applyPrimary op d).2.applySource op = .ok st₂ ∧
      e = ((st.insertOp op).applyPrimary op d).1 ∧
      st' = (st₂.markApplied op.opId).advanceRecvCursor op.origin op.origin op.originSeq) := by
  unfold applyRemote at h
  split_ifs at h with happ
  · cases h
    exact .inl ⟨by simpa [hasApplied] using happ, rfl, rfl⟩
  · dsimp only at h
    cases hsrc : ((st.insertOp op).applyPrimary op d).2.applySource op with
    | error err => simp only [hsrc] at h; cases h
    | ok st₂ =>
      simp only [hsrc] at h
      cases h
      exact .inr ⟨by simpa [hasApplied] using happ, st₂, rfl, rfl, rfl⟩

end Store

end Replicore
