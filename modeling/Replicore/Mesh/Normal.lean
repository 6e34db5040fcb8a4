import Replicore.Mesh.History
import Replicore.Store.NormalForm

/-!
# No zero counters

The vectors of a mesh whose counters stay below the bound hold no zero counter, so that causally
equal vectors are equal (`VersionVector.Normal.ext`).  That is an invariant of every run of writes,
deletes, renames, deliveries, resolutions and reconciliations (`History.normal_reach`).
-/

namespace Replicore

namespace Store

/-- The vectors of the rows and of the logged ops are normal. -/
structure AllNormal (st : Store) : Prop where
  rows : ∀ p r, st.files.get? p = some r → r.vv.Normal
  log : ∀ o ∈ st.oplog, o.vv.Normal

theorem allNormal_iff {st : Store} : st.AllNormal ↔ st.AllVectors VersionVector.Normal :=
  ⟨fun h => ⟨h.rows, h.log⟩, fun h => ⟨h.rows, h.log⟩⟩

theorem AllNormal.vvAt {st : Store} (h : st.AllNormal) (p : Path) : (st.vvAt p).Normal :=
  (allNormal_iff.1 h).vvAt VersionVector.joinClosed_normal p

theorem AllNormal.insertOp {st : Store} (h : st.AllNormal) {op : OpRecord} (hop : op.vv.Normal) :
    ∀ o ∈ (st.insertOp op).oplog, o.vv.Normal :=
  ((allNormal_iff.1 h).insertOp hop).log

/-- A local op. -/
theorem AllNormal.emits {st st' : Store} {n : NodeId} {op : OpRecord} (h : st.AllNormal)
    (hmax : st.CountersBelowMax) (hem : Emits n st st' op)
    (hlog : st'.oplog = (st.insertOp op).oplog) : st'.AllNormal ∧ op.vv.Normal := by
  obtain ⟨base, hvv, hle, hget, hnormal⟩ := hem.base
  have hop : op.vv.Normal := by
    obtain ⟨p, hp, hbase⟩ := hget n
    rw [hvv]
    refine (hnormal fun p _ => h.vvAt p).increment ?_
    rw [hbase]
    exact hmax.vvAt p n
  refine ⟨⟨fun p r hr => ?_, hlog ▸ h.insertOp hop⟩, hop⟩
  by_cases haff : op.Affects p
  · rw [hem.effect p haff, Option.some.injEq] at hr
    rw [← hr, effectRow_vv]
    exact hop
  · rw [hem.frame p haff] at hr
    exact h.rows p r hr

/-- A recorded op. -/
theorem AllNormal.applyRemote {st st' : Store} {op : OpRecord} {d e : Decision} (h : st.AllNormal)
    (hop : op.vv.Normal) (hrun : st.applyRemote op d = .ok (e, st')) : st'.AllNormal :=
  allNormal_iff.2 ((allNormal_iff.1 h).applyRemote VersionVector.joinClosed_normal hop hrun)

/-- A row taken over. -/
theorem AllNormal.reconcileUpsert {st : Store} {row : ReconciledRow} (h : st.AllNormal)
    (hrow : row.vv.Normal) : (st.reconcileUpsert row).2.AllNormal :=
  allNormal_iff.2 ((allNormal_iff.1 h).reconcileUpsert VersionVector.joinClosed_normal hrow)

/-- A committed resolution. -/
theorem AllNormal.resolved [Blake3] {st st' : Store} {path : Path} {remote : Version}
    {order : List Hash} (h : st.AllNormal) (hremote : remote.vv.Normal)
    (hres : Resolved st st' path remote order) :
    st'.AllNormal :=
  allNormal_iff.2 ((allNormal_iff.1 h).resolved VersionVector.joinClosed_normal hremote hres)

end Store

namespace History

/-- All vectors of the mesh are normal, and its ops are well formed. -/
structure NormalInv (h : History) : Prop where
  store : ∀ n, (h.mesh.stores n).AllNormal
  ops : ∀ o ∈ h.mesh.ops, o.vv.Normal ∧ o.WellFormed

theorem normalInv_init : NormalInv {} where
  store _ := ⟨fun p r hr => (by cases hr), by simp⟩
  ops := by simp

variable [Blake3]

/-- A command changes one store, and may add an op. -/
theorem NormalInv.exec {h : History} (hinv : NormalInv h) {n : NodeId} {cmd : Command}
    {src : Path → List OpRecord} (hst : ((h.mesh.stores n).exec n cmd).AllNormal)
    (hem : ∀ o, cmd.emitted n (h.mesh.stores n) = some o → o.vv.Normal ∧ o.WellFormed) :
    NormalInv (h.exec n cmd src) := by
  refine ⟨fun m => ?_, fun o ho => ?_⟩
  · by_cases hm : m = n
    · subst hm
      rwa [exec_store_self]
    · rw [exec_store_of_ne h hm]
      exact hinv.store m
  · cases hop : cmd.emitted n (h.mesh.stores n) with
    | none => exact hinv.ops o (by rwa [History.exec, Mesh.exec_ops_of_none hop] at ho)
    | some op =>
      rcases (mem_exec_ops_of_some h hop o).1 ho with ho | rfl
      · exact hinv.ops o ho
      · exact hem o hop

/-- A local command. -/
theorem NormalInv.emit {h : History} (hinv : NormalInv h) {n : NodeId} {cmd : Command}
    {src : Path → List OpRecord} (hmax : (h.mesh.stores n).CountersBelowMax)
    (hlocal : (∃ change, cmd = .appendLocal change) ∨ ∃ old new, cmd = .appendLocalRename old new)
    (hing : ∀ change, cmd = .appendLocal change → change.Ingested) :
    NormalInv (h.exec n cmd src) := by
  rcases Store.exec_log n (h.mesh.stores n) cmd with ⟨hlog, -, hem⟩ | ⟨op, hem, -, -, -, hlog, -⟩ |
    ⟨op, hrec, -⟩
  · refine hinv.exec ?_ fun o ho => ?_
    · have hfiles := Store.exec_files_of_no_op hlocal hem
      exact ⟨hfiles ▸ (hinv.store n).rows, hlog ▸ (hinv.store n).log⟩
    · rw [hem] at ho
      cases ho
  · have hemits := Store.emits_of_emitted hing hem
    obtain ⟨hst, hop⟩ := (hinv.store n).emits hmax hemits hlog
    refine hinv.exec hst fun o ho => ?_
    rw [hem, Option.some.injEq] at ho
    rw [← ho]
    exact ⟨hop, hemits.wellFormed⟩
  · rcases hlocal with ⟨change, rfl⟩ | ⟨old, new, rfl⟩ <;> cases hrec

/-- An op is recorded. -/
theorem NormalInv.record {h : History} (hinv : NormalInv h) {n : NodeId} {op : OpRecord}
    {d : Decision} {src : Path → List OpRecord} (hop : op.vv.Normal) :
    NormalInv (h.exec n (.applyRemote op d) src) := by
  refine hinv.exec ?_ fun o ho => by cases ho
  cases hrun : (h.mesh.stores n).applyRemote op d with
  | error e => simpa [Store.exec, Store.commit, hrun] using hinv.store n
  | ok x => simpa [Store.exec, Store.commit, hrun] using (hinv.store n).applyRemote hop hrun

/-- A resolution that is to be committed. -/
theorem NormalInv.resolveRows {h : History} (hinv : NormalInv h) {n : NodeId} {path : Path}
    {remote : Version} {staged : List PlannedRow} {order : List Hash} {src : Path → List OpRecord}
    (hremote : remote.vv.Normal) :
    NormalInv (h.exec n (.resolveRows path remote staged order) src) := by
  refine hinv.exec ?_ fun o ho => by cases ho
  rcases Store.exec_resolveRows n (h.mesh.stores n) path remote staged order with hsame | hres
  · rw [hsame]
    exact hinv.store n
  · exact (hinv.store n).resolved hremote hres

/-- In every state of every run, no vector has a zero counter. -/
theorem normal_reach {nodes : Set NodeId} {h : History} (hr : (runs nodes).Reach {} h) :
    NormalInv h := by
  refine hr.invariant normalInv_init fun h act h' _ hinv hstep => ?_
  obtain ⟨⟨-, hmax, hgen⟩, rfl⟩ := hstep
  cases act with
  | append n change =>
    exact hinv.emit hmax (.inl ⟨change, rfl⟩) (by rintro _ ⟨⟩; exact hgen)
  | rename n old new => exact hinv.emit hmax (.inr ⟨old, new, rfl⟩) (by rintro _ ⟨⟩)
  | record n op d =>
    obtain ⟨hop, hwf⟩ := hinv.ops op hgen
    exact hinv.record hop
  | resolve n op atSource staged order =>
    unfold step
    split
    · exact hinv
    · rename_i cmd hcmd
      obtain ⟨⟨path, remote⟩, hc, rfl⟩ := Option.map_eq_some_iff.1 hcmd
      refine hinv.resolveRows ?_
      have hvv : remote.vv = op.vv := by
        cases atSource with
        | false => cases hc; rfl
        | true =>
          obtain ⟨old, -, hpair⟩ := Option.map_eq_some_iff.1 hc
          cases hpair
          rfl
      rw [hvv]
      exact (hinv.ops op hgen).1
  | adopt n m p =>
    unfold step
    split
    · exact hinv
    · rename_i cmd hcmd
      obtain ⟨row, hrow, rfl⟩ := Option.map_eq_some_iff.1 hcmd
      refine hinv.exec ((hinv.store n).reconcileUpsert ?_) fun o ho => by cases ho
      exact (hinv.store m).rows p _ (Store.loadRow_eq_some.1 hrow).1
  | settle n m p staged order =>
    unfold step
    split
    · exact hinv
    · rename_i cmd hcmd
      obtain ⟨row, hrow, rfl⟩ := Option.map_eq_some_iff.1 hcmd
      exact hinv.resolveRows ((hinv.store m).rows p _ (Store.loadRow_eq_some.1 hrow).1)

end History

end Replicore
