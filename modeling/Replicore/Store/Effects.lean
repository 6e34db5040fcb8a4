import Replicore.Store.OpLog

/-!
# The effect of an op at a path

An op affects its path, and a rename also its source.  `effectRow op p vv` is the row it leaves at
an affected path; `Store.applyRemote` writes it where the op dominates and nothing elsewhere
(`Store.applyRemote_files`), and the local commands write it at every path their op affects
(`Store.appendLocal_files`, `Store.appendLocalRename_files`).
-/

namespace Replicore

/-- An op as the local commands build it: exactly a rename has a source, another path than its
target. -/
def OpRecord.WellFormed (o : OpRecord) : Prop :=
  (o.opType = .rename ∧ ∃ old, o.pathOld = some old ∧ old ≠ o.path) ∨
    (o.opType ≠ .rename ∧ o.pathOld = none)

instance (o : OpRecord) : Decidable o.WellFormed :=
  decidable_of_iff
    ((o.opType = .rename ∧ o.pathOld.isSome ∧ o.pathOld ≠ some o.path) ∨
      (o.opType ≠ .rename ∧ o.pathOld = none)) <| by
    unfold OpRecord.WellFormed
    cases o.pathOld <;> simp

theorem OpRecord.affects_iff {o : OpRecord} {p : Path} :
    o.Affects p ↔ o.path = p ∨ o.path ≠ p ∧ o.pathOld = some p := by
  unfold OpRecord.Affects
  tauto

/-- The row an op leaves at a path it affects, under the vector `vv`. -/
def effectRow (op : OpRecord) (p : Path) (vv : VersionVector) : Row :=
  if op.path = p then (Store.appliedRow op vv).toRow else (Store.sourceRow p vv op.uuid).toRow

@[simp] theorem effectRow_vv (op : OpRecord) (p : Path) (vv : VersionVector) :
    (effectRow op p vv).vv = vv := by
  unfold effectRow
  split_ifs
  · exact Store.appliedRow_vv op vv
  · rfl

namespace Store

/-- The op takes effect at `p` when it is recorded under the decision `d`: it affects `p` (its own
path only if it was decided `apply`), and dominates the row there. -/
def TakesEffect (st : Store) (op : OpRecord) (d : Decision) (p : Path) : Prop :=
  (op.path = p ∧ d = .apply ∨ op.path ≠ p ∧ op.pathOld = some p) ∧
    ∀ r, st.files.get? p = some r → r.vv < op.vv

theorem vvAt_congr {st st' : Store} {p : Path} (h : st'.files.get? p = st.files.get? p) :
    st'.vvAt p = st.vvAt p := by
  rw [vvAt, h]
  rfl

theorem vvAt_le_of_lt {st : Store} {p : Path} {vv : VersionVector}
    (h : ∀ r, st.files.get? p = some r → r.vv < vv) : st.vvAt p ≤ vv := by
  cases hr : st.files.get? p with
  | none => rw [vvAt_eq_new hr]; exact VersionVector.new_le vv
  | some r => rw [vvAt_eq hr]; exact (h r hr).le

/-- The primary effect. -/
theorem applyPrimary_files (st : Store) (op : OpRecord) (d : Decision) (p : Path) :
    (op.path = p → st.TakesEffect op d p →
      (st.applyPrimary op d).2.files.get? p = some (effectRow op p ((st.vvAt p).merge op.vv))) ∧
    ((op.path ≠ p ∨ ¬ st.TakesEffect op d p) →
      (st.applyPrimary op d).2.files.get? p = st.files.get? p) := by
  rcases applyPrimary_cases st op d with ⟨heq, hnot⟩ | ⟨hd, -, hdom, heq⟩
  · rw [heq]
    refine ⟨?_, fun _ => rfl⟩
    rintro rfl ⟨hd | hd, hdom⟩
    · exact absurd hdom (hnot hd.2)
    · exact absurd rfl hd.1
  · rw [heq]
    constructor
    · rintro rfl -
      simp [effectRow]
    · rintro (hp | hnot)
      · rw [upsertFile_files, OrdMap.get?_insert_of_ne]
        rwa [appliedRow_path]
      · by_cases hp : op.path = p
        · subst hp
          exact absurd ⟨.inl ⟨rfl, hd⟩, hdom⟩ hnot
        · rw [upsertFile_files, OrdMap.get?_insert_of_ne]
          rwa [appliedRow_path]

/-- The source effect of a rename. -/
theorem applySource_files {st st' : Store} {op : OpRecord} (hwf : op.WellFormed)
    (h : st.applySource op = .ok st') (d : Decision) (p : Path) :
    (op.path ≠ p → st.TakesEffect op d p →
      st'.files.get? p = some (effectRow op p ((st.vvAt p).merge op.vv))) ∧
    ((op.path = p ∨ ¬ st.TakesEffect op d p) → st'.files.get? p = st.files.get? p) := by
  rcases applySource_cases h with ⟨rfl, hnot⟩ | ⟨old, hren, hold, hdom, rfl⟩
  · refine ⟨fun hp ht => ?_, fun _ => rfl⟩
    have hold : op.pathOld = some p := ht.1.resolve_left (fun h => hp h.1) |>.2
    have hren : op.opType = .rename := by
      rcases hwf with ⟨hren, -⟩ | ⟨-, hnone⟩
      · exact hren
      · rw [hnone] at hold
        cases hold
    exact absurd ht.2 (hnot p hren hold)
  · have hne : old ≠ op.path := by
      rcases hwf with ⟨-, q, hq, hqne⟩ | ⟨-, hnone⟩
      · rw [hold] at hq
        cases hq
        exact hqne
      · rw [hold] at hnone
        cases hnone
    constructor
    · intro hp ht
      have hpold : op.pathOld = some p := ht.1.resolve_left (fun h => hp h.1) |>.2
      rw [hold] at hpold
      cases hpold
      rw [upsertFile_files]
      simp [effectRow, hp, sourceRow]
    · intro hcase
      rw [upsertFile_files, OrdMap.get?_insert_of_ne]
      rintro rfl
      rcases hcase with hp | hnot
      · exact hne hp.symm
      · exact hnot ⟨.inr ⟨hne.symm, hold⟩, hdom⟩

theorem TakesEffect.congr {st st' : Store} {op : OpRecord} {d : Decision} {p : Path}
    (h : st'.files.get? p = st.files.get? p) : st'.TakesEffect op d p ↔ st.TakesEffect op d p := by
  unfold TakesEffect
  rw [h]

/-- Recording an op that was not recorded yet: it succeeds, its row stands at every path where it
takes effect, and no other row changes. -/
theorem applyRemote_files {st : Store} {op : OpRecord} (hwf : op.WellFormed)
    (hnew : op.opId ∉ st.applied) (d : Decision) :
    ∃ e st', st.applyRemote op d = .ok (e, st') ∧
      st'.oplog = (st.insertOp op).oplog ∧ st'.applied = st.applied ++ [op.opId] ∧
      (d = .apply → (∀ r, st.files.get? op.path = some r → r.vv < op.vv) → e = .apply) ∧
      (d ≠ .apply → e = d) ∧
      ∀ p, (st.TakesEffect op d p →
          st'.files.get? p = some (effectRow op p ((st.vvAt p).merge op.vv))) ∧
        (¬ st.TakesEffect op d p → st'.files.get? p = st.files.get? p) := by
  set st₁ := ((st.insertOp op).applyPrimary op d).2 with hst₁
  have hfiles : (st.insertOp op).files = st.files := insertOp_files st op
  obtain ⟨st₂, hsrc⟩ : ∃ st₂, st₁.applySource op = .ok st₂ := by
    unfold applySource
    rcases hwf with ⟨hren, old, hold, -⟩ | ⟨hren, -⟩
    · simp only [hren, hold, if_true]
      split_ifs
      · exact ⟨_, rfl⟩
      · exact ⟨_, rfl⟩
    · exact ⟨st₁, by simp [hren]⟩
  have hrun : st.applyRemote op d = .ok (((st.insertOp op).applyPrimary op d).1,
      (st₂.markApplied op.opId).advanceRecvCursor op.origin op.origin op.originSeq) := by
    simp only [applyRemote, hasApplied, hnew, decide_false, Bool.false_eq_true, if_false, ← hst₁,
      hsrc]
  refine ⟨_, _, hrun, ?_, ?_, fun hd hdom => ?_, fun hd => ?_, fun p => ?_⟩
  · rw [advanceRecvCursor_oplog, markApplied_oplog, applySource_oplog hsrc, hst₁,
      applyPrimary_oplog]
  · have happ : st₂.applied = st.applied := by
      rw [applySource_applied hsrc, hst₁, applyPrimary_applied, insertOp_applied]
    rw [advanceRecvCursor_applied, markApplied, happ, if_neg hnew]
  · have hdec : Decision.decide ((st.insertOp op).loadFile op.path) op.vv = .apply :=
      decide_eq_apply.2 (by rw [hfiles]; exact hdom)
    simp [applyPrimary, hd, hdec]
  · simp [applyPrimary, hd]
  · rw [advanceRecvCursor_files, markApplied_files]
    have hprim := applyPrimary_files (st.insertOp op) op d p
    have hsource := applySource_files hwf hsrc d p
    have hiff : (st.insertOp op).TakesEffect op d p ↔ st.TakesEffect op d p :=
      TakesEffect.congr (by rw [hfiles])
    have hvv : (st.insertOp op).vvAt p = st.vvAt p := vvAt_congr (by rw [hfiles])
    rw [hfiles, hiff, hvv] at hprim
    by_cases hp : op.path = p
    · -- the primary effect decides; the source is another path
      rw [hsource.2 (.inl hp)]
      exact ⟨hprim.1 hp, fun hnot => hprim.2 (.inr hnot)⟩
    · have hsame : st₁.files.get? p = st.files.get? p := hprim.2 (.inl hp)
      have hiff' : st₁.TakesEffect op d p ↔ st.TakesEffect op d p := TakesEffect.congr hsame
      rw [hiff', vvAt_congr hsame, hsame] at hsource
      exact ⟨hsource.1 hp, fun hnot => hsource.2 (.inr hnot)⟩

/-- An op without a source that is not applied is recorded, and no row changes. -/
theorem applyRemote_of_ne_apply {st : Store} {op : OpRecord} (hwf : op.WellFormed)
    (hold : op.pathOld = none) (hnew : op.opId ∉ st.applied) {d : Decision} (hd : d ≠ .apply) :
    ∃ st', st.applyRemote op d = .ok (d, st') ∧ st'.files = st.files ∧
      st'.oplog = (st.insertOp op).oplog ∧ st'.applied = st.applied ++ [op.opId] := by
  obtain ⟨e, st', hrun, hlog, happ, -, heff, hfiles⟩ := applyRemote_files hwf hnew d
  obtain rfl := heff hd
  refine ⟨st', hrun, OrdMap.ext_get? fun p => (hfiles p).2 ?_, hlog, happ⟩
  rintro ⟨⟨-, hd'⟩ | ⟨-, hsrc⟩, -⟩
  · exact hd hd'
  · rw [hold] at hsrc
    cases hsrc

/-- With ids that name one op, the log takes in an op unless it has it. -/
theorem mem_insertOp_of_ids {st : Store} {op : OpRecord}
    (hids : ∀ o ∈ st.oplog, o.opId = op.opId → o = op) (o : OpRecord) :
    o ∈ (st.insertOp op).oplog ↔ o ∈ st.oplog ∨ o = op := by
  rw [mem_insertOp]
  constructor
  · exact Or.imp_right And.left
  · rintro (ho | rfl)
    · exact .inl ho
    · by_cases h : o ∈ st.oplog
      · exact .inl h
      · exact .inr ⟨rfl, fun o' ho' hid => h (hids o' ho' hid ▸ ho')⟩

/-- A redelivery changes no row, no entry of the log and nothing in the applied set. -/
theorem applyRemote_of_applied {st : Store} {op : OpRecord} (h : op.opId ∈ st.applied)
    (d : Decision) :
    st.applyRemote op d = .ok (d, st.advanceRecvCursor op.origin op.origin op.originSeq) := by
  simp [applyRemote, hasApplied, h]

/-- Taking over a row: it replaces a row strictly below it, and nothing else changes. -/
theorem reconcileUpsert_files (st : Store) (row : ReconciledRow) :
    (st.reconcileUpsert row).2 = st ∨
      (∀ r, st.files.get? row.path = some r → r.vv < row.vv) ∧
      (st.reconcileUpsert row).2 =
        st.upsertFile { row with vv := (st.vvAt row.path).merge row.vv } := by
  unfold reconcileUpsert
  dsimp only
  split_ifs with hd
  · exact .inr ⟨decide_eq_apply.1 hd, by rw [mergedVv_eq]⟩
  · exact .inl rfl

/-! ### Local ops -/

/-- What a local command that returns an op does: the op's vector is one increment above all rows
it affects, its effect stands at each of them, and no other row changes. -/
structure Emits (n : NodeId) (st st' : Store) (op : OpRecord) : Prop where
  wellFormed : op.WellFormed
  base : ∃ base : VersionVector, op.vv = base.increment n ∧
    (∀ p, op.Affects p → st.vvAt p ≤ base) ∧
    (∀ k, ∃ p, op.Affects p ∧ base.get k = (st.vvAt p).get k) ∧
    ((∀ p, op.Affects p → (st.vvAt p).Normal) → base.Normal)
  effect : ∀ p, op.Affects p → st'.files.get? p = some (effectRow op p op.vv)
  frame : ∀ p, ¬ op.Affects p → st'.files.get? p = st.files.get? p

/-- The counters of a new op beside its author's are those of a row it affects, and at least those
of every such row. -/
theorem Emits.get_of_ne {n a : NodeId} {st st' : Store} {op : OpRecord} (h : Emits n st st' op)
    (ha : a ≠ n) :
    (∀ p, op.Affects p → (st.vvAt p).get a ≤ op.vv.get a) ∧
      ∃ p, op.Affects p ∧ op.vv.get a = (st.vvAt p).get a := by
  obtain ⟨base, hvv, hle, hget, -⟩ := h.base
  rw [hvv, VersionVector.get_increment, if_neg ha.symm]
  exact ⟨fun p hp => hle p hp a, hget a⟩

section

variable [Blake3]

theorem localOp_wellFormed (n : NodeId) (st : Store) {change : LocalChange}
    (h : change.opType ≠ .rename) : (localOp n st change).WellFormed :=
  .inr ⟨h, rfl⟩

theorem renameOp_wellFormed (n : NodeId) (st : Store) {old new : Path} (src : FileRow)
    (h : old ≠ new) : (renameOp n st old new src).WellFormed :=
  .inl ⟨rfl, old, rfl, h⟩

theorem localOp_vv (n : NodeId) (st : Store) (change : LocalChange) :
    (localOp n st change).vv = (st.vvAt change.path).increment n := by
  simp only [localOp, loadRow_vv]

/-- The row of a local change is the effect of its op. -/
theorem localRow_eq_effectRow (n : NodeId) (st : Store) {change : LocalChange}
    (h : change.Ingested) :
    (localRow (localOp n st change)).toRow =
      effectRow (localOp n st change) change.path (localOp n st change).vv := by
  obtain ⟨hren, hdel, -⟩ := h
  have hpath : (localOp n st change).path = change.path := rfl
  have htype : (localOp n st change).opType = change.opType := rfl
  rw [effectRow, if_pos hpath]
  unfold appliedRow localRow
  rw [htype]
  cases hop : change.opType with
  | write => simp
  | delete =>
    obtain ⟨hhash, hsize, hmeta⟩ := hdel hop
    simp [localOp, hhash, hsize, hmeta]
  | rename => exact absurd hop hren

theorem renameOp_effects (n : NodeId) (st : Store) {old new : Path} (src : FileRow)
    (h : old ≠ new) :
    (sourceRow old (renameOp n st old new src).vv (renameOp n st old new src).uuid).toRow =
        effectRow (renameOp n st old new src) old (renameOp n st old new src).vv ∧
      (localRow (renameOp n st old new src)).toRow =
        effectRow (renameOp n st old new src) new (renameOp n st old new src).vv := by
  have hpath : (renameOp n st old new src).path = new := rfl
  constructor
  · rw [effectRow, if_neg (by rw [hpath]; exact h.symm)]
  · rw [effectRow, if_pos hpath]
    rfl

theorem emits_localOp {n : NodeId} {st st' : Store} {change : LocalChange} (h : change.Ingested)
    (hfiles : st'.files =
      st.files.insert change.path (localRow (localOp n st change)).toRow) :
    Emits n st st' (localOp n st change) := by
  have haff : ∀ p, (localOp n st change).Affects p ↔ change.path = p := by
    intro p
    simp [OpRecord.Affects, localOp]
  refine ⟨localOp_wellFormed n st h.1, ?_, fun p hp => ?_, fun p hp => ?_⟩
  · refine ⟨st.vvAt change.path, localOp_vv n st change, fun p hp => ?_, fun k => ?_, fun hn => ?_⟩
    · rw [(haff p).1 hp]
    · exact ⟨change.path, (haff _).2 rfl, rfl⟩
    · exact hn _ ((haff _).2 rfl)
  · rw [hfiles, ← (haff p).1 hp, OrdMap.get?_insert_self, localRow_eq_effectRow n st h]
  · rw [hfiles, OrdMap.get?_insert_of_ne _ _ fun heq => hp ((haff p).2 heq)]

theorem emits_renameOp {n : NodeId} {st st' : Store} {old new : Path} {src : FileRow}
    (hsrc : st.loadRow old = some src) (hne : old ≠ new)
    (hfiles : st'.files = (st.files.insert old
      (sourceRow old (renameOp n st old new src).vv (renameOp n st old new src).uuid).toRow).insert
        new (localRow (renameOp n st old new src)).toRow) :
    Emits n st st' (renameOp n st old new src) := by
  have haff : ∀ p, (renameOp n st old new src).Affects p ↔ new = p ∨ old = p := by
    intro p
    simp [OpRecord.Affects, renameOp]
  obtain ⟨heffOld, heffNew⟩ := renameOp_effects n st src hne
  have hold : st.vvAt old = src.vv := vvAt_eq (loadRow_eq_some.1 hsrc).1
  refine ⟨renameOp_wellFormed n st src hne, ?_, fun p hp => ?_, fun p hp => ?_⟩
  · have hmax : ∀ base : VersionVector,
        (∀ k, base.get k = max ((st.vvAt old).get k) ((st.vvAt new).get k)) →
        (∀ p, (renameOp n st old new src).Affects p → st.vvAt p ≤ base) ∧
        ∀ k, ∃ p, (renameOp n st old new src).Affects p ∧ base.get k = (st.vvAt p).get k := by
      intro base hbase
      refine ⟨fun p hp k => ?_, fun k => ?_⟩
      · rw [hbase]
        rcases (haff p).1 hp with rfl | rfl
        · exact le_max_right _ _
        · exact le_max_left _ _
      · rw [hbase]
        rcases max_choice ((st.vvAt old).get k) ((st.vvAt new).get k) with h | h
        · exact ⟨old, (haff old).2 (.inr rfl), h⟩
        · exact ⟨new, (haff new).2 (.inl rfl), h⟩
    cases hdst : st.loadRow new with
    | none =>
      have hnew : st.vvAt new = VersionVector.new := vvAt_eq_new (loadRow_eq_none.1 hdst)
      obtain ⟨hle, hget⟩ := hmax src.vv fun k => by simp [hold, hnew]
      refine ⟨src.vv, by simp [renameOp, hdst], hle, hget, fun hn => ?_⟩
      exact hold ▸ hn old ((haff old).2 (.inr rfl))
    | some dst =>
      have hnew : st.vvAt new = dst.vv := vvAt_eq (loadRow_eq_some.1 hdst).1
      obtain ⟨hle, hget⟩ := hmax (src.vv.merge dst.vv) fun k => by simp [hold, hnew]
      refine ⟨src.vv.merge dst.vv, by simp [renameOp, hdst], hle, hget, fun hn => ?_⟩
      exact (hold ▸ hn old ((haff old).2 (.inr rfl))).merge
        (hnew ▸ hn new ((haff new).2 (.inl rfl)))
  · rw [hfiles, OrdMap.get?_insert, OrdMap.get?_insert]
    rcases (haff p).1 hp with rfl | rfl
    · rw [if_pos rfl, heffNew]
    · rw [if_neg hne.symm, if_pos rfl, heffOld]
  · have hp' : new ≠ p ∧ old ≠ p := by
      simpa [haff p] using hp
    rw [hfiles, OrdMap.get?_insert_of_ne _ _ hp'.1, OrdMap.get?_insert_of_ne _ _ hp'.2]

/-- A command that returns an op. -/
theorem emits_of_emitted {n : NodeId} {st : Store} {cmd : Command} {op : OpRecord}
    (hing : ∀ change, cmd = .appendLocal change → change.Ingested)
    (hem : cmd.emitted n st = some op) : Emits n st (st.exec n cmd) op := by
  cases cmd with
  | appendLocal change =>
    cases h : st.appendLocal n change with
    | error e => simp [Command.emitted, h] at hem
    | ok x =>
      obtain ⟨o, st'⟩ := x
      rcases appendLocal_cases h with ⟨rfl, -, -⟩ | ⟨rfl, -, -, hfiles, -, -, -⟩
      · simp [Command.emitted, h] at hem
      · simp only [Command.emitted, h, Option.some.injEq] at hem
        subst hem
        simp only [exec, commit, h]
        exact emits_localOp (hing change rfl) hfiles
  | appendLocalRename old new =>
    rcases appendLocalRename_cases n st old new with h | ⟨src, hsrc, -, hne, h⟩
    · simp [Command.emitted, h] at hem
    · simp only [Command.emitted, h, Option.some.injEq] at hem
      subst hem
      simp only [exec, h]
      exact emits_renameOp hsrc hne (by simp [sourceRow, localRow, renameOp])
  | applyRemote op' d => cases hem
  | reconcileUpsert row => cases hem
  | resolveRows path remote staged order => cases hem

theorem emitted_appendLocal {n : NodeId} {st : Store} {change : LocalChange} {op : OpRecord}
    (hem : (Command.appendLocal change).emitted n st = some op) : op = localOp n st change := by
  cases h : st.appendLocal n change with
  | error e => simp [Command.emitted, h] at hem
  | ok x =>
    obtain ⟨o, st'⟩ := x
    rcases appendLocal_cases h with ⟨rfl, -, -⟩ | ⟨rfl, -⟩
    · simp [Command.emitted, h] at hem
    · simpa [Command.emitted, h, eq_comm] using hem

/-- The op of a local command affects the paths the command names. -/
theorem affects_of_emitted {n : NodeId} {st : Store} {cmd : Command} {op : OpRecord}
    (hem : cmd.emitted n st = some op) {p : Path} (hp : op.Affects p) :
    (∃ change, cmd = .appendLocal change ∧ p = change.path) ∨
      ∃ old new, cmd = .appendLocalRename old new ∧ (p = old ∨ p = new) := by
  cases cmd with
  | appendLocal change =>
    refine .inl ⟨change, rfl, ?_⟩
    cases h : st.appendLocal n change with
    | error e => simp [Command.emitted, h] at hem
    | ok x =>
      obtain ⟨o, st'⟩ := x
      rcases appendLocal_cases h with ⟨rfl, -, -⟩ | ⟨rfl, -⟩
      · simp [Command.emitted, h] at hem
      · simp only [Command.emitted, h, Option.some.injEq] at hem
        subst hem
        simpa [OpRecord.Affects, localOp, eq_comm] using hp
  | appendLocalRename old new =>
    refine .inr ⟨old, new, rfl, ?_⟩
    rcases appendLocalRename_cases n st old new with h | ⟨src, -, -, -, h⟩
    · simp [Command.emitted, h] at hem
    · simp only [Command.emitted, h, Option.some.injEq] at hem
      subst hem
      simpa [OpRecord.Affects, renameOp, eq_comm, or_comm] using hp
  | applyRemote op' d => cases hem
  | reconcileUpsert row => cases hem
  | resolveRows path remote staged order => cases hem

/-- A local command that returns no op changes no row. -/
theorem exec_files_of_no_op {n : NodeId} {st : Store} {cmd : Command}
    (hloc : (∃ change, cmd = .appendLocal change) ∨ ∃ old new, cmd = .appendLocalRename old new)
    (hem : cmd.emitted n st = none) : (st.exec n cmd).files = st.files := by
  rcases hloc with ⟨change, rfl⟩ | ⟨old, new, rfl⟩
  · cases h : st.appendLocal n change with
    | error e => simp [exec, commit, h]
    | ok x =>
      obtain ⟨o, st'⟩ := x
      rcases appendLocal_cases h with ⟨-, rfl, -⟩ | ⟨rfl, -⟩
      · simp [exec, commit, h]
      · simp [Command.emitted, h] at hem
  · rcases appendLocalRename_cases n st old new with h | ⟨src, -, -, -, h⟩
    · simp [exec, h]
    · simp [Command.emitted, h] at hem

end

end Store

end Replicore
