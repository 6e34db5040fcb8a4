import Replicore.Store.OpLog

/-!
# Cursors and the own log

What a command does to the two numbers a peer's progress is measured by: `last_acked_seq`, which
only an ack moves (`lastAckedSeq_exec`), and the number of the latest own op, which never decreases
(`latestOriginSeq_le_exec`).
-/

namespace Replicore

namespace Store

/-- What `peer` has acked of the ops of `ourId`. -/
def lastAckedSeq (st : Store) (peer ourId : NodeId) : ℤ := (st.cursorRow peer ourId).lastAckedSeq

theorem lastAckedSeq_congr {st st' : Store} (h : st'.peerCursors = st.peerCursors)
    (peer ourId : NodeId) : st'.lastAckedSeq peer ourId = st.lastAckedSeq peer ourId := by
  simp only [lastAckedSeq, cursorRow, h]

theorem lastAckedSeq_advanceRecvCursor (st : Store) (p o : NodeId) (n : ℤ) (peer ourId : NodeId) :
    (st.advanceRecvCursor p o n).lastAckedSeq peer ourId = st.lastAckedSeq peer ourId := by
  simp only [lastAckedSeq, cursorRow, advanceRecvCursor, OrdMap.getD, OrdMap.get?_insert]
  split_ifs with h
  · rw [← h]; rfl
  · rfl

theorem lastAckedSeq_advanceAck (st : Store) (p o : NodeId) (n : ℤ) (peer ourId : NodeId) :
    (st.advanceAck p o n).lastAckedSeq peer ourId =
      if p = peer ∧ o = ourId then max (st.lastAckedSeq peer ourId) n
      else st.lastAckedSeq peer ourId := by
  simp only [lastAckedSeq, cursorRow, advanceAck, OrdMap.getD, OrdMap.get?_insert]
  by_cases h : p = peer ∧ o = ourId
  · obtain ⟨rfl, rfl⟩ := h
    simp
  · have hne : toLex (p, o) ≠ toLex (peer, ourId) := by
      intro heq
      exact h (Prod.mk.inj heq)
    rw [if_neg h, if_neg hne]

/-- No command but the ack itself moves `last_acked_seq`. -/
theorem lastAckedSeq_exec [Blake3] (me : NodeId) (st : Store) (cmd : Command) (peer : NodeId) :
    (st.exec me cmd).lastAckedSeq peer me = st.lastAckedSeq peer me := by
  cases cmd with
  | appendLocal change =>
    cases h : st.appendLocal me change with
    | error e => simp [exec, commit, h]
    | ok x =>
      obtain ⟨o, st'⟩ := x
      obtain ⟨-, rfl, -⟩ | ⟨-, -, -, -, -, -, hcur⟩ := appendLocal_cases h
      · simp [exec, commit, h]
      · simpa [exec, commit, h] using lastAckedSeq_congr hcur peer me
  | appendLocalRename old new =>
    obtain h | ⟨src, -, -, -, h⟩ := appendLocalRename_cases me st old new
    · simp [exec, h]
    · exact lastAckedSeq_congr (by simp [exec, h]) peer me
  | applyRemote op d =>
    cases h : st.applyRemote op d with
    | error e => simp [exec, commit, h]
    | ok x =>
      obtain ⟨e, st'⟩ := x
      obtain ⟨-, -, rfl⟩ | ⟨-, st₂, hsrc, -, rfl⟩ := applyRemote_cases h
      · simpa [exec, commit, h] using lastAckedSeq_advanceRecvCursor st _ _ _ peer me
      · simp only [exec, commit, h]
        rw [lastAckedSeq_advanceRecvCursor]
        refine lastAckedSeq_congr ?_ peer me
        rw [markApplied_peerCursors, applySource_peerCursors hsrc, applyPrimary_peerCursors,
          insertOp_peerCursors]
  | reconcileUpsert row =>
    refine lastAckedSeq_congr ?_ peer me
    simp only [exec, reconcileUpsert]
    split_ifs <;> rfl
  | resolveRows path remote staged order =>
    cases h : st.resolveRows path remote staged order with
    | error e => simp [exec, commit, h]
    | ok x =>
      obtain ⟨out, st'⟩ := x
      obtain ⟨-, rfl⟩ | ⟨-, -, localRow, -, -, rfl⟩ := resolveRows_cases h
      · simp [exec, commit, h]
      · exact lastAckedSeq_congr (by simp [exec, commit, h, foldl_upsertFile_peerCursors]) peer me

theorem mem_opsSince {st : Store} {origin : NodeId} {n : ℤ} {limit : ℕ} {o : OpRecord}
    (h : o ∈ st.opsSince origin n limit) : o ∈ st.oplog ∧ o.origin = origin := by
  have hmem := List.mem_filter.1 ((List.mem_insertionSort _).1 (List.mem_of_mem_take h))
  have hcond : o.origin = origin ∧ n < o.originSeq := by simpa using hmem.2
  exact ⟨hmem.1, hcond.1⟩

/-- An own op in the log is at or below the latest. -/
theorem le_latestOriginSeq {st : Store} {me : NodeId} {o : OpRecord} (ho : o ∈ st.oplog)
    (horigin : o.origin = me) : o.originSeq ≤ st.latestOriginSeq me := by
  have hmem : o.originSeq ∈ (st.oplog.filter fun o => o.origin = me).map (·.originSeq) :=
    List.mem_map_of_mem (List.mem_filter.2 ⟨ho, by simpa using horigin⟩)
  obtain ⟨m, hm⟩ := Option.isSome_iff_exists.1 (List.isSome_max?_of_mem hmem)
  rw [latestOriginSeq, hm]
  exact (List.max?_eq_some_iff.1 hm).2 _ hmem

/-- The latest is the number of an own op, or 0. -/
theorem latestOriginSeq_mem (st : Store) (me : NodeId) :
    st.latestOriginSeq me = 0 ∨
      ∃ o ∈ st.oplog, o.origin = me ∧ o.originSeq = st.latestOriginSeq me := by
  cases hm : ((st.oplog.filter fun o => o.origin = me).map (·.originSeq)).max? with
  | none => exact .inl (by rw [latestOriginSeq, hm]; rfl)
  | some m =>
    obtain ⟨o, ho, hseq⟩ := List.mem_map.1 (List.max?_eq_some_iff.1 hm).1
    obtain ⟨ho, horigin⟩ := List.mem_filter.1 ho
    exact .inr ⟨o, ho, by simpa using horigin, by rw [latestOriginSeq, hm]; exact hseq⟩

/-- An op of our own that is numbered on does not lower the latest, and an op of another origin does
not touch it. -/
theorem latestOriginSeq_le_insertOp {st : Store} {me : NodeId} {op : OpRecord}
    (h : op.origin = me → st.latestOriginSeq me ≤ op.originSeq) :
    st.latestOriginSeq me ≤ (st.insertOp op).latestOriginSeq me := by
  unfold insertOp
  split_ifs
  · exact le_rfl
  · obtain hzero | ⟨o, ho, horigin, hseq⟩ := latestOriginSeq_mem st me
    · by_cases hop : op.origin = me
      · exact (h hop).trans (le_latestOriginSeq (List.mem_append_right _ (by simp)) hop)
      · refine le_of_eq ?_
        simp [latestOriginSeq, List.filter_append, hop]
    · rw [← hseq]
      exact le_latestOriginSeq (List.mem_append_left _ ho) horigin

theorem latestOriginSeq_congr {st st' : Store} (h : st'.oplog = st.oplog) (me : NodeId) :
    st'.latestOriginSeq me = st.latestOriginSeq me := by
  simp only [latestOriginSeq, h]

theorem latestOriginSeq_le_exec [Blake3] {me : NodeId} {st : Store} {cmd : Command}
    (h : cmd.Admitted me) : st.latestOriginSeq me ≤ (st.exec me cmd).latestOriginSeq me := by
  obtain ⟨hlog, -, -⟩ | ⟨op, -, -, hseq, -, hlog, -⟩ | ⟨op, hrec, -, hlog, -⟩ := exec_log me st cmd
  · rw [latestOriginSeq_congr hlog]
  · rw [latestOriginSeq_congr hlog]
    exact latestOriginSeq_le_insertOp fun _ => by omega
  · rw [latestOriginSeq_congr hlog]
    exact latestOriginSeq_le_insertOp fun horigin => absurd horigin (h op hrec)

end Store

end Replicore
