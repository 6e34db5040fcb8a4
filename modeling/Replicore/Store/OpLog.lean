import Replicore.Lib.Consecutive
import Replicore.Store.Monotone

/-!
# A node's own operations

The log gives every local mutation the next number of the node's own sequence, read back from the
same table that remote ops are written to.  The table and the applied set are keyed by op id alone,
and the id of a remote op is whatever the wire says.

`LogState` is a store with the history of what its commands answered and were handed; `ownLog` runs
it on any command the wire admits.  The own sequence is gap-free and durable in every run in which
a remote op carries an id derived from its own origin (`own_ops_durable`), and not otherwise
(`own_op_lost_to_forged_id`).
-/

namespace Replicore

open Consecutive

/-- A store, the ops its local commands returned, and the remote ops it was handed. -/
structure LogState where
  store : Store := {}
  emitted : List OpRecord := []
  handled : List OpRecord := []

namespace Command

/-- The remote op a command brings. -/
def received : Command → Option OpRecord
  | .applyRemote op _ => some op
  | _ => none

/-- What the wire admits: an op comes from its origin, and a node is never its own peer. -/
def Admitted (me : NodeId) (cmd : Command) : Prop :=
  ∀ op, cmd.received = some op → op.origin ≠ me

variable [Blake3]

/-- The remote op carries an op id of its own origin. -/
def OwnIds (cmd : Command) : Prop :=
  ∀ op, cmd.received = some op → ∃ n, op.opId = opIdOf op.origin n

@[simp] theorem ownIds_applyRemote {op : OpRecord} {d : Decision} :
    (Command.applyRemote op d).OwnIds ↔ ∃ n, op.opId = opIdOf op.origin n := by
  simp [OwnIds, received]

/-- The op a local command returns. -/
def emitted (me : NodeId) (st : Store) : Command → Option OpRecord
  | .appendLocal change =>
    match st.appendLocal me change with
    | .ok (o, _) => o
    | .error _ => none
  | .appendLocalRename oldPath newPath => (st.appendLocalRename me oldPath newPath).1
  | _ => none

end Command

/-- No two ids of these ops collide: ids of different origins differ, and so do ids of different
numbers. -/
structure OpIdsDistinct [Blake3] (ops : List OpRecord) : Prop where
  origin : ∀ a ∈ ops, ∀ b ∈ ops, ∀ m n, a.opId = opIdOf a.origin m → b.opId = opIdOf b.origin n →
    a.opId = b.opId → a.origin = b.origin
  seq : ∀ a ∈ ops, ∀ b ∈ ops, a.opId = opIdOf a.origin a.originSeq →
    b.opId = opIdOf b.origin b.originSeq → a.opId = b.opId → a.originSeq = b.originSeq

/-- Ids that identify their ops do not collide. -/
theorem OpIdsDistinct.of_inj [Blake3] {ops : List OpRecord}
    (h : ∀ a ∈ ops, ∀ b ∈ ops, a.opId = b.opId → a = b) : OpIdsDistinct ops where
  origin a ha b hb _ _ _ _ hid := by rw [h a ha b hb hid]
  seq a ha b hb _ _ hid := by rw [h a ha b hb hid]

theorem OpIdsDistinct.mono [Blake3] {as bs : List OpRecord} (h : OpIdsDistinct bs) (hs : as ⊆ bs) :
    OpIdsDistinct as where
  origin a ha b hb := h.origin a (hs ha) b (hs hb)
  seq a ha b hb := h.seq a (hs ha) b (hs hb)

/-- The entries of the log that `me` originated, in arrival order. -/
def Store.ownOps (st : Store) (me : NodeId) : List OpRecord := st.oplog.filter (·.origin = me)

namespace LogState

/-- Run a command and record what it answered. -/
def exec [Blake3] (me : NodeId) (s : LogState) (cmd : Command) : LogState where
  store := s.store.exec me cmd
  emitted := s.emitted ++ (cmd.emitted me s.store).toList
  handled := s.handled ++ cmd.received.toList

/-- The runs of the log of node `me`. -/
def ownLog [Blake3] (me : NodeId) : Lts LogState Command :=
  Lts.ofFun (fun _ cmd => cmd.Admitted me) (exec me)

/-- The own entries are numbered 1, 2, …, and every op that a local command ever returned is served
on the page it belongs to. -/
def OwnDurable (me : NodeId) (s : LogState) : Prop :=
  (s.store.ownOps me).map (·.originSeq) = after 0 (s.store.ownOps me).length ∧
    ∀ o ∈ s.emitted, ∀ (a : ℤ) (limit : ℕ), a < o.originSeq → o.originSeq - a ≤ limit →
      o ∈ s.store.opsSince me a limit

/-- An op counts as applied only after an op of its own origin was handled under its id. -/
def AppliedByOrigin (s : LogState) (o : OpRecord) : Prop :=
  s.store.hasApplied o.opId = true → ∃ o' ∈ s.handled, o'.opId = o.opId ∧ o'.origin = o.origin

end LogState

/-! ### Paging a gap-free log -/

/-- In a gap-free sequence a number belongs to one op. -/
theorem eq_of_originSeq_eq {own : List OpRecord} {n : ℕ}
    (hnum : own.map (·.originSeq) = after 0 n)
    {a b : OpRecord} (ha : a ∈ own) (hb : b ∈ own) (h : a.originSeq = b.originSeq) : a = b := by
  have hnd : (own.map (·.originSeq)).Nodup := by
    rw [hnum]
    exact (pairwise_after 0 n).imp fun hlt => hlt.ne
  exact List.inj_on_of_nodup_map hnd ha hb h

namespace Store

/-- On a log whose own entries are numbered upwards a page is the first of those beyond the cursor. -/
theorem opsSince_eq_filter {st : Store} {me : NodeId}
    (h : (st.ownOps me).Pairwise fun x y => x.originSeq < y.originSeq) (a : ℤ) (limit : ℕ) :
    st.opsSince me a limit = ((st.ownOps me).filter fun o => a < o.originSeq).take limit := by
  have hpage : (st.oplog.filter fun o => o.origin = me ∧ a < o.originSeq) =
      (st.ownOps me).filter fun o => a < o.originSeq := by
    rw [ownOps, List.filter_filter]
    refine List.filter_congr fun o _ => ?_
    simp [and_comm]
  have hsorted : ((st.ownOps me).filter fun o => a < o.originSeq).Pairwise
      fun x y => x.originSeq ≤ y.originSeq :=
    (h.imp fun hlt => hlt.le).filter _
  rw [opsSince, hpage, hsorted.insertionSort_eq]

/-- On a gap-free log a page is a segment of the own entries. -/
theorem opsSince_eq {st : Store} {me : NodeId} {n : ℕ}
    (h : (st.ownOps me).map (·.originSeq) = after 0 n) (a : ℤ) (limit : ℕ) :
    st.opsSince me a limit = ((st.ownOps me).drop a.toNat).take limit := by
  have hsorted := pairwise_after 0 n
  rw [← h, List.pairwise_map] at hsorted
  have hdrop := filter_eq_drop (a := a) h
  rw [Int.sub_zero] at hdrop
  rw [opsSince_eq_filter hsorted, hdrop]

theorem latestOriginSeq_eq {st : Store} {me : NodeId} {n : ℕ}
    (h : (st.ownOps me).map (·.originSeq) = after 0 n) : st.latestOriginSeq me = n := by
  rw [latestOriginSeq, show (st.oplog.filter fun o => o.origin = me) = st.ownOps me from rfl, h,
    max?_after]

end Store

/-! ### What a command does to the log -/

section

variable [Blake3] {me : NodeId}

namespace Store

/-- Every command records at most one op, as `INSERT OR IGNORE` does: a local one that it returns,
or the remote one that it brings; only the latter touches the applied set. -/
theorem exec_log (me : NodeId) (st : Store) (cmd : Command) :
    ((st.exec me cmd).oplog = st.oplog ∧ (st.exec me cmd).applied = st.applied ∧
      cmd.emitted me st = none) ∨
    (∃ op, cmd.emitted me st = some op ∧ op.origin = me ∧
      op.originSeq = st.latestOriginSeq me + 1 ∧ op.opId = opIdOf me op.originSeq ∧
      (st.exec me cmd).oplog = (st.insertOp op).oplog ∧ (st.exec me cmd).applied = st.applied) ∨
    (∃ op, cmd.received = some op ∧ cmd.emitted me st = none ∧
      (st.exec me cmd).oplog = (st.insertOp op).oplog ∧
      ∀ i ∈ (st.exec me cmd).applied, i ∈ st.applied ∨ i = op.opId) := by
  cases cmd with
  | appendLocal change =>
    cases h : st.appendLocal me change with
    | error e => exact .inl (by simp [exec, commit, Command.emitted, h])
    | ok x =>
      obtain ⟨o, st'⟩ := x
      rcases appendLocal_cases h with ⟨rfl, rfl, -⟩ | ⟨rfl, -, -, -, hlog, happ, -⟩
      · exact .inl (by simp [exec, commit, Command.emitted, h])
      · refine .inr (.inl ⟨localOp me st change, by simp [Command.emitted, h], rfl, rfl, rfl, ?_, ?_⟩)
        · simpa [exec, commit, h] using hlog
        · simpa [exec, commit, h] using happ
  | appendLocalRename old new =>
    rcases appendLocalRename_cases me st old new with h | ⟨src, -, -, -, h⟩
    · exact .inl (by simp [exec, Command.emitted, h])
    · exact .inr (.inl ⟨renameOp me st old new src, by simp [Command.emitted, h], rfl, rfl, rfl,
        by simp [exec, h], by simp [exec, h]⟩)
  | applyRemote op d =>
    cases h : st.applyRemote op d with
    | error e => exact .inl (by simp [exec, commit, Command.emitted, h])
    | ok x =>
      obtain ⟨e, st'⟩ := x
      rcases applyRemote_cases h with ⟨-, -, rfl⟩ | ⟨-, st₂, hsrc, -, rfl⟩
      · exact .inl (by simp [exec, commit, Command.emitted, h])
      · refine .inr (.inr ⟨op, rfl, rfl, ?_, ?_⟩)
        · simp only [exec, commit, h, advanceRecvCursor_oplog, markApplied_oplog]
          rw [applySource_oplog hsrc, applyPrimary_oplog]
        · simp only [exec, commit, h, advanceRecvCursor_applied, mem_markApplied]
          rw [applySource_applied hsrc, applyPrimary_applied, insertOp_applied]
          exact fun i hi => hi
  | reconcileUpsert row =>
    refine .inl ⟨?_, ?_, rfl⟩
    · simp only [exec, reconcileUpsert]; split_ifs <;> rfl
    · simp only [exec, reconcileUpsert]; split_ifs <;> rfl
  | resolveRows path remote staged order =>
    cases h : st.resolveRows path remote staged order with
    | error e => exact .inl (by simp [exec, commit, Command.emitted, h])
    | ok x =>
      obtain ⟨out, st'⟩ := x
      rcases resolveRows_cases h with ⟨-, rfl⟩ | ⟨-, -, localRow, -, -, rfl⟩
      · exact .inl (by simp [exec, commit, Command.emitted, h])
      · exact .inl (by simp [exec, commit, Command.emitted, h, foldl_upsertFile_oplog,
          foldl_upsertFile_applied])

end Store

namespace LogState

/-- What holds of the log while remote ops carry ids of their own origin. -/
structure Inv (me : NodeId) (s : LogState) : Prop where
  numbered : (s.store.ownOps me).map (·.originSeq) = after 0 (s.store.ownOps me).length
  emitted_mem : ∀ o ∈ s.emitted, o ∈ s.store.ownOps me
  own : ∀ o ∈ s.store.ownOps me, o ∈ s.emitted ∧ o.opId = opIdOf me o.originSeq
  foreign : ∀ o ∈ s.store.oplog, o.origin ≠ me → o ∈ s.handled
  applied : ∀ i ∈ s.store.applied, ∃ o ∈ s.handled, o.opId = i
  handled : ∀ o ∈ s.handled, o.origin ≠ me ∧ ∃ n, o.opId = opIdOf o.origin n

theorem inv_init : Inv me {} where
  numbered := rfl
  emitted_mem := by simp
  own := by simp [Store.ownOps]
  foreign := by simp
  applied := by simp
  handled := by simp

/-- The op of a local command has a fresh id. -/
theorem Inv.fresh {s : LogState} (h : Inv me s) {op : OpRecord} (horigin : op.origin = me)
    (hseq : op.originSeq = s.store.latestOriginSeq me + 1) (hid : op.opId = opIdOf me op.originSeq)
    (hd : OpIdsDistinct (s.emitted ++ [op] ++ s.handled)) :
    ∀ o ∈ s.store.oplog, o.opId ≠ op.opId := by
  intro o ho heq
  have hop : op ∈ s.emitted ++ [op] ++ s.handled := by simp
  by_cases hme : o.origin = me
  · have hown : o ∈ s.store.ownOps me := by simp [Store.ownOps, ho, hme]
    obtain ⟨hem, hoid⟩ := h.own o hown
    have hsame : o.originSeq = op.originSeq :=
      hd.seq o (by simp [hem]) op hop (by rw [hme, hoid]) (by rw [horigin, hid]) heq
    -- but the own numbers stop at the latest one
    have hmem : o.originSeq ∈ after 0 (s.store.ownOps me).length :=
      h.numbered ▸ List.mem_map_of_mem (f := (·.originSeq)) hown
    have := (mem_after.1 hmem).2
    rw [hsame, hseq, Store.latestOriginSeq_eq h.numbered] at this
    omega
  · have hh := h.foreign o ho hme
    obtain ⟨n, hn⟩ := (h.handled o hh).2
    have := hd.origin o (by simp [hh]) op hop n op.originSeq hn (by rw [horigin, hid]) heq
    exact hme (this.trans horigin)

/-- The remote ops handed over so far all came from their origin, under an id of it. -/
theorem Inv.handled_exec {s : LogState} (h : Inv me s) {cmd : Command} (hadm : cmd.Admitted me)
    (hown : cmd.OwnIds) :
    ∀ o ∈ (exec me s cmd).handled, o.origin ≠ me ∧ ∃ n, o.opId = opIdOf o.origin n := by
  intro o ho
  simp only [exec, List.mem_append, Option.mem_toList] at ho
  exact ho.elim (h.handled o) fun ho => ⟨hadm o ho, hown o ho⟩

@[simp] theorem exec_store (s : LogState) (cmd : Command) :
    (exec me s cmd).store = s.store.exec me cmd := rfl

theorem exec_emitted_of_none {s : LogState} {cmd : Command} (h : cmd.emitted me s.store = none) :
    (exec me s cmd).emitted = s.emitted := by
  simp [exec, h]

theorem handled_subset_exec (s : LogState) (cmd : Command) :
    s.handled ⊆ (exec me s cmd).handled := fun o ho => by
  simp [exec, ho]

/-- A command that returns no op and leaves the own entries alone keeps the invariant. -/
theorem Inv.of_no_emit {s : LogState} (h : Inv me s) {cmd : Command} (hadm : cmd.Admitted me)
    (hids : cmd.OwnIds) (hem : cmd.emitted me s.store = none)
    (hown : (s.store.exec me cmd).ownOps me = s.store.ownOps me)
    (hfor : ∀ o ∈ (s.store.exec me cmd).oplog, o ∈ s.store.oplog ∨ o ∈ (exec me s cmd).handled)
    (happ : ∀ i ∈ (s.store.exec me cmd).applied,
      i ∈ s.store.applied ∨ ∃ o ∈ (exec me s cmd).handled, o.opId = i) :
    Inv me (exec me s cmd) where
  numbered := by
    rw [exec_store, hown]
    exact h.numbered
  emitted_mem o ho := by
    rw [exec_emitted_of_none hem] at ho
    exact hown ▸ h.emitted_mem o ho
  own o ho := by
    rw [exec_emitted_of_none hem]
    exact h.own o (hown ▸ ho)
  foreign o ho hne := (hfor o ho).elim (fun h' => handled_subset_exec s cmd (h.foreign o h' hne)) id
  applied i hi := by
    refine (happ i hi).elim (fun h' => ?_) id
    obtain ⟨o, ho, hoi⟩ := h.applied i h'
    exact ⟨o, handled_subset_exec s cmd ho, hoi⟩
  handled := h.handled_exec hadm hids

/-- A local command that returns an op appends it to the log under the next number. -/
theorem Inv.of_emit {s : LogState} (h : Inv me s) {cmd : Command} (hadm : cmd.Admitted me)
    (hids : cmd.OwnIds) {op : OpRecord} (hem : cmd.emitted me s.store = some op)
    (horigin : op.origin = me) (hseq : op.originSeq = s.store.latestOriginSeq me + 1)
    (hid : op.opId = opIdOf me op.originSeq)
    (hlog : (s.store.exec me cmd).oplog = s.store.oplog ++ [op])
    (happ : (s.store.exec me cmd).applied = s.store.applied) : Inv me (exec me s cmd) := by
  have hown : (s.store.exec me cmd).ownOps me = s.store.ownOps me ++ [op] := by
    simp [Store.ownOps, hlog, List.filter_append, horigin]
  have hemit : (exec me s cmd).emitted = s.emitted ++ [op] := by simp [exec, hem]
  refine ⟨?_, ?_, ?_, ?_, ?_, h.handled_exec hadm hids⟩
  · rw [exec_store, hown, List.map_append, h.numbered, List.length_append, List.length_singleton,
      ← after_append_one]
    simp only [List.map_cons, List.map_nil, hseq, Store.latestOriginSeq_eq h.numbered, zero_add]
  · intro o ho
    change o ∈ (s.store.exec me cmd).ownOps me
    rw [hemit, List.mem_append] at ho
    rw [hown, List.mem_append]
    exact ho.imp_left (h.emitted_mem o)
  · intro o ho
    change o ∈ (s.store.exec me cmd).ownOps me at ho
    rw [hown, List.mem_append] at ho
    rw [hemit, List.mem_append]
    rcases ho with ho | ho
    · exact ⟨.inl (h.own o ho).1, (h.own o ho).2⟩
    · rw [List.mem_singleton.1 ho]
      exact ⟨.inr (List.mem_singleton_self op), hid⟩
  · intro o ho hne
    change o ∈ (s.store.exec me cmd).oplog at ho
    rw [hlog, List.mem_append, List.mem_singleton] at ho
    rcases ho with ho | rfl
    · exact handled_subset_exec s cmd (h.foreign o ho hne)
    · exact absurd horigin hne
  · intro i hi
    change i ∈ (s.store.exec me cmd).applied at hi
    rw [happ] at hi
    obtain ⟨o, ho, hoi⟩ := h.applied i hi
    exact ⟨o, handled_subset_exec s cmd ho, hoi⟩

theorem Inv.step {s : LogState} (h : Inv me s) {cmd : Command} (hadm : cmd.Admitted me)
    (hids : cmd.OwnIds)
    (hd : OpIdsDistinct ((exec me s cmd).emitted ++ (exec me s cmd).handled)) :
    Inv me (exec me s cmd) := by
  rcases Store.exec_log me s.store cmd with ⟨hlog, happ, hem⟩ |
    ⟨op, hem, horigin, hseq, hid, hlog, happ⟩ | ⟨op, hrec, hem, hlog, happ⟩
  · refine h.of_no_emit hadm hids hem (by rw [Store.ownOps, hlog]; rfl) ?_ ?_
    · intro o ho
      exact .inl (hlog ▸ ho)
    · intro i hi
      exact .inl (happ ▸ hi)
  · have hfresh := h.fresh horigin hseq hid <| hd.mono <| by
      intro o ho
      simp only [exec, hem, Option.toList_some, List.mem_append] at ho ⊢
      tauto
    refine h.of_emit hadm hids hem horigin hseq hid ?_ happ
    rw [hlog, Store.insertOp, if_neg (by simpa using hfresh)]
  · have hhand : op ∈ (exec me s cmd).handled := by simp [exec, hrec]
    have hne : op.origin ≠ me := hadm op hrec
    refine h.of_no_emit hadm hids hem ?_ ?_ ?_
    · rw [Store.ownOps, hlog, Store.insertOp]
      split_ifs
      · rfl
      · simp [Store.ownOps, List.filter_append, hne]
    · intro o ho
      rw [hlog, Store.mem_insertOp] at ho
      exact ho.imp_right fun ⟨heq, _⟩ => heq ▸ hhand
    · intro i hi
      exact (happ i hi).imp_right fun hi => ⟨op, hhand, hi.symm⟩

theorem inv_reach {s : LogState}
    (h : ((ownLog me).restrict fun _ cmd => cmd.OwnIds).Reach {} s)
    (hd : OpIdsDistinct (s.emitted ++ s.handled)) : Inv me s := by
  -- the ids of a state are among the ids of every later one
  refine h.invariant (I := fun s => OpIdsDistinct (s.emitted ++ s.handled) → Inv me s)
    (fun _ => inv_init) (fun s cmd s' _ ih hstep hd => ?_) hd
  obtain ⟨hids, hadm, rfl⟩ := hstep
  refine (ih (hd.mono fun o ho => ?_)).step hadm hids hd
  simp only [exec, List.mem_append] at ho ⊢
  tauto

theorem Inv.ownDurable {s : LogState} (h : Inv me s) : OwnDurable me s := by
  refine ⟨h.numbered, fun o ho a limit ha hlim => ?_⟩
  have hmem := h.emitted_mem o ho
  rw [Store.opsSince_eq h.numbered]
  have hpos : o.originSeq ∈ after 0 (s.store.ownOps me).length :=
    h.numbered ▸ List.mem_map_of_mem (f := (·.originSeq)) hmem
  have := (mem_after.1 hpos).1
  exact mem_take_drop h.numbered hmem (by omega) (by omega)

/-- **Own-op durability and gap-free sequence.**  In every run in which each remote op carries an
op id of its own origin: the own entries of the log are numbered 1 to n, every op that a local
command returned is served by `ops_since` from then on, and an op counts as applied only because an
op of its own origin was handled under its id. -/
theorem own_ops_durable (me : NodeId) {s : LogState}
    (h : ((ownLog me).restrict fun _ cmd => cmd.OwnIds).Reach {} s)
    (hd : OpIdsDistinct (s.emitted ++ s.handled)) :
    OwnDurable me s ∧ ∀ o : OpRecord, (∃ n, o.opId = opIdOf o.origin n) →
      OpIdsDistinct (o :: s.emitted ++ s.handled) → s.AppliedByOrigin o := by
  have hinv := inv_reach h hd
  refine ⟨hinv.ownDurable, fun o ⟨n, hn⟩ hdo happ => ?_⟩
  obtain ⟨o', ho', hid⟩ := hinv.applied o.opId (by simpa [Store.hasApplied] using happ)
  obtain ⟨n', hn'⟩ := (hinv.handled o' ho').2
  exact ⟨o', ho', hid, hdo.origin o' (by simp [ho']) o (by simp) n' n hn' hn hid⟩

end LogState

end

section Example

open LogState

attribute [local instance] Blake3.polynomial

/-- An op of node 2 under the given id. -/
def remoteUnder (opId : Hash) : OpRecord where
  opId := opId
  origin := 2
  originSeq := 1
  opType := .write
  path := ['g']
  pathOld := none
  uuid := some 2
  mode := 0o644
  size := 4
  contentHash := some 6
  metadata := none
  vv := VersionVector.fromIter [(2, 1)]

/-- Node 1 handles an op of node 2 and then writes a file of its own. -/
def remoteThenLocal (opId : Hash) : LogState :=
  exec 1 (exec 1 {} (.applyRemote (remoteUnder opId) .apply)) (.appendLocal Store.writeF)

theorem remoteThenLocal_reach {C : LogState → Command → Prop} (opId : Hash)
    (h : ∀ s, C s (.applyRemote (remoteUnder opId) .apply))
    (h' : ∀ s, C s (.appendLocal Store.writeF)) :
    ((ownLog 1).restrict C).Reach {} (remoteThenLocal opId) := by
  have hremote : Command.Admitted 1 (.applyRemote (remoteUnder opId) .apply) := by
    rintro op ⟨⟩
    show (2 : NodeId) ≠ 1
    decide
  have hlocal : Command.Admitted 1 (.appendLocal Store.writeF) := by
    rintro op ⟨⟩
  have hfirst : ((ownLog 1).restrict C).Reach {}
      (exec 1 {} (.applyRemote (remoteUnder opId) .apply)) := .next .init ⟨h _, hremote, rfl⟩
  exact hfirst.next ⟨h' _, hlocal, rfl⟩

/-- Under its own id node 2's op does no harm. -/
theorem own_ops_durable_honest_id :
    OwnDurable 1 (remoteThenLocal (opIdOf 2 1)) ∧
      (remoteThenLocal (opIdOf 2 1)).AppliedByOrigin (remoteUnder (opIdOf 2 1)) := by
  have hreach := remoteThenLocal_reach (C := fun _ cmd => cmd.OwnIds) (opIdOf 2 1)
    (fun _ => Command.ownIds_applyRemote.2 ⟨1, rfl⟩) (fun _ op hop => by cases hop)
  obtain ⟨hown, happ⟩ := own_ops_durable 1 hreach (.of_inj (by decide +kernel))
  exact ⟨hown, happ (remoteUnder (opIdOf 2 1)) ⟨1, rfl⟩ (.of_inj (by decide +kernel))⟩

/-- Node 2 sends its op under the id of node 1's first op: node 1's own write returns an op that no
page of the log serves, and the own sequence stays empty.  Sent under the id of node 3's first op,
it makes that op count as applied. -/
theorem own_op_lost_to_forged_id :
    (∃ s, (ownLog 1).Reach {} s ∧ s.emitted = [Store.localOp 1 {} Store.writeF] ∧
      (∀ o ∈ s.emitted, ∀ a limit, o ∉ s.store.opsSince 1 a limit) ∧ ¬ OwnDurable 1 s) ∧
    ∃ s o, (ownLog 1).Reach {} s ∧ o.origin = 3 ∧ o.opId = opIdOf 3 1 ∧ ¬ s.AppliedByOrigin o := by
  have hreach : ∀ opId, (ownLog 1).Reach {} (remoteThenLocal opId) := fun opId =>
    (remoteThenLocal_reach (C := fun _ _ => True) opId (fun _ => trivial) fun _ => trivial).of_restrict
  have hlost : ∀ o ∈ (remoteThenLocal (opIdOf 1 1)).emitted, ∀ a limit,
      o ∉ (remoteThenLocal (opIdOf 1 1)).store.opsSince 1 a limit := by
    intro o _ a limit hmem
    have hnone : (remoteThenLocal (opIdOf 1 1)).store.ownOps 1 = [] := by decide
    have heq : (remoteThenLocal (opIdOf 1 1)).store.opsSince 1 a limit = [] := by
      rw [Store.opsSince_eq (n := 0) (by rw [hnone]; rfl), hnone, List.drop_nil, List.take_nil]
    rw [heq] at hmem
    cases hmem
  refine ⟨⟨remoteThenLocal (opIdOf 1 1), hreach _, by decide, hlost, fun h => ?_⟩,
    remoteThenLocal (opIdOf 3 1), { remoteUnder (opIdOf 3 1) with origin := 3 }, hreach _, rfl, rfl,
    fun h => ?_⟩
  · have hmem : Store.localOp 1 {} Store.writeF ∈ (remoteThenLocal (opIdOf 1 1)).emitted := by
      decide
    exact hlost _ hmem 0 1 (h.2 _ hmem 0 1 (by decide) (by decide))
  · obtain ⟨o', ho', -, horigin⟩ := h (by decide)
    revert o'
    decide

end Example

end Replicore
