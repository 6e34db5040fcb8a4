import Replicore.Mesh.Agreement

/-!
# Knowledge that spreads

How a change gets to every node: by its op, or within a row that a node takes over, or resolves
against, from any node that has it.  `Spread.heard n p` lists the ops at `p` that node `n` has heard
of.  It follows what was handled, and to its end: an op that is applied or was covered already, a row
that is taken over or was covered already, a resolution that is committed.  It never looks at what a
row holds, and a node that takes in a row hears of all that the other node has heard of.

* `Spread.heard_step`, `Spread.sourced_step` : the vector of a row is at or above all that the node
  has heard of, and has no counter that does not come from an op;
* `knowledge_spreads` : so nodes that have heard of the same complete set of ops have equal vectors,
  whatever way the ops took and in whatever order; and what their rows show is determined by the
  ops alone.
-/

namespace Replicore

/-- A history, and the ops that every node has heard of at a path. -/
structure Spread where
  history : History := {}
  heard : NodeId → Path → List OpRecord := fun _ _ => []

/-- The row at `p` is at or above the vector. -/
def Store.AtOrAbove (st : Store) (p : Path) (vv : VersionVector) : Prop :=
  ∃ r, st.files.get? p = some r ∧ vv ≤ r.vv

namespace Store

variable {st st' : Store} {p : Path} {vv : VersionVector}

theorem AtOrAbove.le_vvAt (h : st.AtOrAbove p vv) : vv ≤ st.vvAt p := by
  obtain ⟨r, hr, hle⟩ := h
  rwa [vvAt_eq hr]

theorem AtOrAbove.mono {w : VersionVector} (h : st.AtOrAbove p w) (hle : vv ≤ w) :
    st.AtOrAbove p vv := by
  obtain ⟨r, hr, hw⟩ := h
  exact ⟨r, hr, hle.trans hw⟩

theorem atOrAbove_of_ignore (h : Decision.decide (st.loadFile p) vv = .ignore) :
    st.AtOrAbove p vv := decide_eq_ignore.1 h

end Store

section

variable [Blake3]

/-- The handling of a concurrent version ends: it is resolved, or covered. -/
def Store.SettlesAt (st : Store) (p : Path) (remote : Version) (staged : List PlannedRow)
    (order : List Hash) : Prop :=
  Decision.decide (st.loadFile p) remote.vv = .ignore ∨
    (st.resolveRows p remote staged order).toOption.map Prod.fst = some .resolved

instance (st : Store) (p : Path) (remote : Version) (staged : List PlannedRow)
    (order : List Hash) : Decidable (st.SettlesAt p remote staged order) := by
  unfold Store.SettlesAt
  infer_instance

namespace Act

/-- The op that a local act emits. -/
def emits (h : History) (act : Act) : List OpRecord :=
  ((act.command h).bind fun cmd => cmd.emitted act.node (h.mesh.stores act.node)).toList

/-- The act ends the handling of what it is about, at the path `p`. -/
def Finishes (h : History) : Act → Path → Prop
  | append _ _, _ | rename _ _ _, _ => True
  | record n op d, p =>
    op.Affects p ∧ (Decision.decide ((h.mesh.stores n).loadFile p) op.vv = .ignore ∨
      Decision.decide ((h.mesh.stores n).loadFile p) op.vv = .apply ∧
        op.opId ∉ (h.mesh.stores n).applied ∧ (op.path = p → d = .apply))
  | resolve n op atSource staged order, p =>
    ∃ c, conflictOf op atSource = some c ∧ c.1 = p ∧ (h.mesh.stores n).SettlesAt p c.2 staged order
  | adopt n m q, p =>
    q = p ∧ ∃ row, (h.mesh.stores m).loadRow p = some row ∧
      (Decision.decide ((h.mesh.stores n).loadFile p) row.vv = .ignore ∨
        Decision.decide ((h.mesh.stores n).loadFile p) row.vv = .apply)
  | settle n m q staged order, p =>
    q = p ∧ ∃ row, (h.mesh.stores m).loadRow p = some row ∧
      (h.mesh.stores n).SettlesAt p (Version.fromRow row.toRow) staged order

/-- What the node then has heard of at `p`. -/
def tells (s : Spread) (act : Act) (p : Path) : List OpRecord :=
  match act with
  | append _ _ | rename _ _ _ => (act.emits s.history).filter fun o => o.Affects p
  | record _ op _ | resolve _ op _ _ _ => [op]
  | adopt _ m _ | settle _ m _ _ _ => s.heard m p

instance (h : History) : ∀ act p, Decidable (Finishes h act p)
  | append _ _, _ | rename _ _ _, _ => .isTrue trivial
  | record _ _ _, _ => by unfold Finishes; infer_instance
  | resolve n op atSource staged order, p =>
    decidable_of_iff (∃ c ∈ conflictOf op atSource, c.1 = p ∧
      (h.mesh.stores n).SettlesAt p c.2 staged order) Iff.rfl
  | adopt n m q, p =>
    decidable_of_iff (q = p ∧ ∃ row ∈ (h.mesh.stores m).loadRow p,
      (Decision.decide ((h.mesh.stores n).loadFile p) row.vv = .ignore ∨
        Decision.decide ((h.mesh.stores n).loadFile p) row.vv = .apply)) Iff.rfl
  | settle n m q staged order, p =>
    decidable_of_iff (q = p ∧ ∃ row ∈ (h.mesh.stores m).loadRow p,
      (h.mesh.stores n).SettlesAt p (Version.fromRow row.toRow) staged order) Iff.rfl

end Act

namespace Spread

/-- One act. -/
def step (s : Spread) (act : Act) : Spread where
  history := s.history.step act
  heard := Function.update s.heard act.node fun p =>
    if act.Finishes s.history p then s.heard act.node p ++ act.tells s p else s.heard act.node p

/-- All runs. -/
def runs (nodes : Set NodeId) : Lts Spread Act :=
  .ofFun (fun s act => s.history.Allowed nodes act) step

end Spread

/-! ### One act -/

namespace History

variable {nodes : Set NodeId} {h : History} {act : Act} {n : NodeId} {p : Path}

theorem step_of_command (cmd : Command) (hc : act.command h = some cmd) :
    h.step act = h.exec act.node cmd (act.brings h) := by
  simp [step, hc]

theorem step_of_none (hc : act.command h = none) : h.step act = h := by simp [step, hc]

theorem opsAt_subset_step (h : History) (act : Act) (p : Path) :
    h.opsAt p ⊆ (h.step act).opsAt p := by
  rintro o ⟨ho, hp⟩
  refine ⟨?_, hp⟩
  cases hc : act.command h with
  | none => rwa [step_of_none hc]
  | some cmd =>
    rw [step_of_command _ hc]
    exact Mesh.ops_subset_exec h.mesh act.node cmd ho

/-- Rows only grow. -/
theorem atOrAbove_step (hall : h.Allowed nodes act) {vv : VersionVector}
    (hrow : (h.mesh.stores n).AtOrAbove p vv) : ((h.step act).mesh.stores n).AtOrAbove p vv := by
  cases hc : act.command h with
  | none => rwa [step_of_none hc]
  | some cmd =>
    by_cases hn : n = act.node
    · subst hn
      rw [step_of_command _ hc, exec_store_self]
      exact (Store.rowsGrow_exec act.node hall.2.1 cmd).taken hrow
    · rwa [step_store_of_ne h hn]

/-- A side of a conflict is that of an op at a path it affects. -/
theorem affects_of_conflictOf {op : OpRecord} {atSource : Bool} {remote : Version}
    (hc : conflictOf op atSource = some (p, remote)) : op.Affects p ∧ remote.vv = op.vv := by
  unfold conflictOf at hc
  split_ifs at hc
  · obtain ⟨old, hold, heq⟩ := Option.map_eq_some_iff.1 hc
    cases heq
    exact ⟨.inr hold, rfl⟩
  · cases hc
    exact ⟨.inl rfl, rfl⟩

/-- A local act emits nothing and changes no row, or it emits one op and the rows which that affects
have its vector. -/
theorem local_step (hall : h.Allowed nodes act)
    (hloc : (∃ change, act = .append n change) ∨ ∃ old new, act = .rename n old new) :
    (act.emits h = [] ∧ (∀ p, (h.step act).opsAt p = h.opsAt p) ∧
        (h.step act).mesh.ops = h.mesh.ops ∧
        ∀ m, ((h.step act).mesh.stores m).oplog = (h.mesh.stores m).oplog ∧
          ((h.step act).mesh.stores m).files = (h.mesh.stores m).files) ∨
      ∃ op, act.emits h = [op] ∧ op.WellFormed ∧
        (∀ o, o ∈ (h.step act).mesh.ops ↔ o ∈ h.mesh.ops ∨ o = op) ∧
        (∀ o ∈ ((h.step act).mesh.stores n).oplog, o ∈ (h.mesh.stores n).oplog ∨ o = op) ∧
        (∀ p, op.Affects p → ((h.step act).mesh.stores n).files.get? p =
          some (effectRow op p op.vv)) ∧
        ∀ p, ¬ op.Affects p → ((h.step act).mesh.stores n).files.get? p =
          (h.mesh.stores n).files.get? p := by
  have hnode : act.node = n := by rcases hloc with ⟨_, rfl⟩ | ⟨_, _, rfl⟩ <;> rfl
  obtain ⟨cmd, hc, hcmd, hing⟩ : ∃ cmd, act.command h = some cmd ∧
      ((∃ change, cmd = .appendLocal change) ∨ ∃ old new, cmd = .appendLocalRename old new) ∧
      ∀ change, cmd = .appendLocal change → change.Ingested := by
    rcases hloc with ⟨change, rfl⟩ | ⟨old, new, rfl⟩
    · exact ⟨_, rfl, .inl ⟨change, rfl⟩, by rintro _ ⟨⟩; exact hall.2.2⟩
    · exact ⟨_, rfl, .inr ⟨old, new, rfl⟩, by rintro _ ⟨⟩⟩
  have hmax := hall.2.1
  subst hnode
  have hemits : act.emits h = (cmd.emitted act.node (h.mesh.stores act.node)).toList := by
    simp [Act.emits, hc]
  rw [step_of_command _ hc, hemits]
  rcases CausalInv.emission_or_quiet hmax hcmd hing with ⟨op, e⟩ | ⟨hem, hlog, hfiles⟩
  · refine .inr ⟨op, by simp [e.emitted], e.emits.wellFormed, h.mem_exec_ops_of_some e.emitted,
      fun o ho => ?_, fun p hp => ?_, fun p hp => ?_⟩
    · rw [exec_store_self, e.oplog, Store.mem_insertOp] at ho
      exact ho.imp_right And.left
    · rw [exec_store_self]
      exact e.emits.effect p hp
    · rw [exec_store_self]
      exact e.emits.frame p hp
  · have hops : (h.exec act.node cmd (act.brings h)).mesh.ops = h.mesh.ops :=
      Mesh.exec_ops_of_none hem
    refine .inl ⟨by simp [hem], fun p => ?_, hops, fun m => ?_⟩
    · rw [opsAt, hops]
      rfl
    · by_cases hm : m = act.node
      · subst hm
        rw [exec_store_self]
        exact ⟨hlog, hfiles⟩
      · rw [h.exec_store_of_ne hm]
        exact ⟨rfl, rfl⟩

end History

/-- A version that is settled is covered afterwards. -/
theorem Store.SettlesAt.atOrAbove {n : NodeId} {st : Store} (hc : st.CountersBelowMax) {p : Path}
    {remote : Version} {staged : List PlannedRow} {order : List Hash}
    (h : st.SettlesAt p remote staged order) :
    (st.exec n (.resolveRows p remote staged order)).AtOrAbove p remote.vv := by
  obtain hign | hres := h
  · exact (Store.rowsGrow_exec n hc _).taken (atOrAbove_of_ignore hign)
  · cases hrun : st.resolveRows p remote staged order with
    | error e =>
      rw [hrun] at hres
      cases hres
    | ok x =>
      obtain ⟨out, st'⟩ := x
      rw [hrun] at hres
      cases hres
      obtain ⟨hout, -⟩ | ⟨-, hconc, localRow, hloc, hplan, rfl⟩ := resolveRows_cases hrun
      · exact absurd rfl hout
      · obtain ⟨old, new, -, hnew, -, hle⟩ := (resolved_of_plan hconc
          (Option.bind_eq_some_iff.2 ⟨localRow, hloc, hplan⟩)).row_above
        refine ⟨new, ?_, hle⟩
        simp only [exec, commit, hrun]
        exact hnew

/-- A row that is taken over, or covered already, is covered afterwards. -/
theorem Store.atOrAbove_reconcileUpsert {n : NodeId} {st : Store} (hc : st.CountersBelowMax)
    {row : FileRow} (h : Decision.decide (st.loadFile row.path) row.vv = .ignore ∨
      Decision.decide (st.loadFile row.path) row.vv = .apply) :
    (st.exec n (.reconcileUpsert row)).AtOrAbove row.path row.vv := by
  obtain hign | happ := h
  · exact (Store.rowsGrow_exec n hc _).taken (atOrAbove_of_ignore hign)
  · have hrun : st.exec n (.reconcileUpsert row) =
        st.upsertFile { row with vv := st.mergedVv row.path row.vv } := by
      simp [exec, reconcileUpsert, happ]
    rw [hrun]
    refine ⟨_, by rw [upsertFile_files, OrdMap.get?_insert_self], ?_⟩
    rw [mergedVv_eq]
    exact VersionVector.le_merge_right _ _

/-- An op that takes effect at a path is covered there afterwards. -/
theorem Store.atOrAbove_applyRemote {n : NodeId} {st : Store} {op : OpRecord}
    (hwf : op.WellFormed) (hnew : op.opId ∉ st.applied) {d : Decision} {p : Path}
    (h : st.TakesEffect op d p) : (st.exec n (.applyRemote op d)).AtOrAbove p op.vv := by
  obtain ⟨e, st', hrun, -, -, -, -, hfiles⟩ := applyRemote_files hwf hnew d
  refine ⟨_, by simpa only [exec, commit, hrun] using (hfiles p).1 h, ?_⟩
  rw [effectRow_vv]
  exact VersionVector.le_merge_right _ _

namespace Spread

variable {nodes : Set NodeId} {s : Spread} {act : Act} {p : Path}

/-- What a node has heard of at a path are ops there, and its row has taken them in. -/
def Heard (s : Spread) : Prop :=
  ∀ n p, ∀ o ∈ s.heard n p, o ∈ s.history.opsAt p ∧ (s.history.mesh.stores n).AtOrAbove p o.vv

/-- What an act that ends the handling tells of has been taken in. -/
theorem Heard.finishes (hs : s.Heard) (hwf : ∀ o ∈ s.history.mesh.ops, o.WellFormed)
    (hall : s.history.Allowed nodes act) (hfin : act.Finishes s.history p) {o : OpRecord}
    (ho : o ∈ act.tells s p) : o ∈ (s.history.step act).opsAt p ∧
      ((s.history.step act).mesh.stores act.node).AtOrAbove p o.vv := by
  have hlocal : ((∃ change, act = .append act.node change) ∨
      ∃ old new, act = .rename act.node old new) →
      o ∈ (act.emits s.history).filter (fun o => o.Affects p) →
      o ∈ (s.history.step act).opsAt p ∧
        ((s.history.step act).mesh.stores act.node).AtOrAbove p o.vv := by
    intro hloc ho
    obtain ⟨ho, hp⟩ := List.mem_filter.1 ho
    have hp := of_decide_eq_true hp
    obtain ⟨hnone, -⟩ | ⟨op, hop, -, hops, -, heff, -⟩ := History.local_step hall hloc
    · rw [hnone] at ho
      cases ho
    · rw [hop, List.mem_singleton] at ho
      subst ho
      exact ⟨⟨(hops _).2 (.inr rfl), hp⟩, _, heff p hp, by rw [effectRow_vv]⟩
  cases act with
  | append n change => exact hlocal (.inl ⟨change, rfl⟩) ho
  | rename n old new => exact hlocal (.inr ⟨old, new, rfl⟩) ho
  | record n op d =>
    obtain rfl := List.mem_singleton.1 ho
    obtain ⟨haff, hign | ⟨happ, hnew, hd⟩⟩ := hfin
    · exact ⟨s.history.opsAt_subset_step _ p ⟨hall.2.2, haff⟩,
        History.atOrAbove_step hall (Store.atOrAbove_of_ignore hign)⟩
    · refine ⟨s.history.opsAt_subset_step _ p ⟨hall.2.2, haff⟩, ?_⟩
      rw [History.step_of_command _ rfl]
      refine (History.exec_store_self _).symm ▸
        Store.atOrAbove_applyRemote (hwf _ hall.2.2) hnew ⟨?_, Store.decide_eq_apply.1 happ⟩
      exact (OpRecord.affects_iff.1 haff).imp_left fun hpath => ⟨hpath, hd hpath⟩
  | resolve n op atSource staged order =>
    obtain rfl := List.mem_singleton.1 ho
    obtain ⟨⟨q, remote⟩, hc, rfl, hset⟩ := hfin
    obtain ⟨haff, hvv⟩ := History.affects_of_conflictOf hc
    refine ⟨s.history.opsAt_subset_step _ q ⟨hall.2.2, haff⟩, ?_⟩
    rw [History.step_of_command (.resolveRows q remote staged order) (by simp [Act.command, hc]),
      ← hvv]
    exact (History.exec_store_self _).symm ▸ hset.atOrAbove hall.2.1
  | adopt n m q =>
    obtain ⟨rfl, row, hrow, hdec⟩ := hfin
    obtain ⟨hat, r, hr, hle⟩ := hs m q o ho
    obtain ⟨hget, rfl⟩ := Store.loadRow_eq_some.1 hrow
    rw [hget] at hr
    cases hr
    refine ⟨s.history.opsAt_subset_step _ _ hat, ?_⟩
    rw [History.step_of_command (.reconcileUpsert row) (by simp [Act.command, hrow])]
    exact ((History.exec_store_self _).symm ▸
      Store.atOrAbove_reconcileUpsert hall.2.1 hdec).mono hle
  | settle n m q staged order =>
    obtain ⟨rfl, row, hrow, hset⟩ := hfin
    obtain ⟨hat, r, hr, hle⟩ := hs m q o ho
    obtain ⟨hget, rfl⟩ := Store.loadRow_eq_some.1 hrow
    rw [hget] at hr
    cases hr
    refine ⟨s.history.opsAt_subset_step _ _ hat, ?_⟩
    rw [History.step_of_command (.resolveRows row.path (Version.fromRow row.toRow) staged order)
      (by simp [Act.command, hrow])]
    exact ((History.exec_store_self _).symm ▸ hset.atOrAbove hall.2.1).mono hle

/-- The vector of a row stays at or above all that the node has heard of. -/
theorem heard_step (hs : s.Heard) (hwf : ∀ o ∈ s.history.mesh.ops, o.WellFormed)
    (hall : s.history.Allowed nodes act) : (s.step act).Heard := by
  intro n p o ho
  have hold : o ∈ s.heard n p → o ∈ (s.history.step act).opsAt p ∧
      ((s.history.step act).mesh.stores n).AtOrAbove p o.vv := fun ho =>
    ⟨s.history.opsAt_subset_step act p (hs n p o ho).1,
      History.atOrAbove_step hall (hs n p o ho).2⟩
  simp only [step] at ho ⊢
  by_cases hn : n = act.node
  · subst hn
    rw [Function.update_self] at ho
    split_ifs at ho with hfin
    · obtain ho | ho := List.mem_append.1 ho
      · exact hold ho
      · exact hs.finishes hwf hall hfin ho
    · exact hold ho
  · rw [Function.update_of_ne hn] at ho
    exact hold ho

end Spread

/-! ### Where the counters come from -/

/-- Outside the conflict-copy names, every counter of a row is at most that of some op there. -/
structure Sourced (h : History) : Prop where
  wellFormed : ∀ o ∈ h.mesh.ops, o.WellFormed
  oplog : ∀ n, ∀ o ∈ (h.mesh.stores n).oplog, o ∈ h.mesh.ops
  rows : ∀ n p, ¬ IsCopyName p → ∀ a, 0 < ((h.mesh.stores n).vvAt p).get a →
    ∃ o ∈ h.opsAt p, ((h.mesh.stores n).vvAt p).get a ≤ o.vv.get a

namespace Sourced

variable {nodes : Set NodeId} {h : History} {act : Act} {n : NodeId} {p : Path}

/-- The counters of the vector come from ops at the path. -/
def FromOps (h : History) (p : Path) (vv : VersionVector) : Prop :=
  ∀ a, 0 < vv.get a → ∃ o ∈ h.opsAt p, vv.get a ≤ o.vv.get a

omit [Blake3] in
theorem fromOps_op {o : OpRecord} (ho : o ∈ h.opsAt p) : FromOps h p o.vv :=
  fun _ _ => ⟨o, ho, le_rfl⟩

omit [Blake3] in
theorem FromOps.merge {v w : VersionVector} (hv : FromOps h p v) (hw : FromOps h p w) :
    FromOps h p (v.merge w) := by
  intro a ha
  rw [VersionVector.get_merge] at ha ⊢
  obtain hle | hle := le_total (v.get a) (w.get a)
  · rw [max_eq_right hle] at ha ⊢
    exact hw a ha
  · rw [max_eq_left hle] at ha ⊢
    exact hv a ha

omit [Blake3] in
theorem FromOps.mergeAll {cs : List Version} (hcs : ∀ c ∈ cs, FromOps h p c.vv) :
    FromOps h p (mergeAll cs) := by
  intro a ha
  obtain ⟨c, hc, heq⟩ := exists_get_mergeAll ha
  rw [heq] at ha ⊢
  exact hcs c hc a ha

/-- A step without a new op: it is enough to look at the rows that change. -/
theorem of_quiet {cmd : Command} {src : Path → List OpRecord} (hs : Sourced h)
    (hem : cmd.emitted n (h.mesh.stores n) = none)
    (hlog : ∀ o ∈ ((h.mesh.stores n).exec n cmd).oplog, o ∈ h.mesh.ops)
    (hrows : ∀ p, ¬ IsCopyName p →
      ((h.mesh.stores n).exec n cmd).files.get? p ≠ (h.mesh.stores n).files.get? p →
      FromOps h p (((h.mesh.stores n).exec n cmd).vvAt p)) : Sourced (h.exec n cmd src) := by
  have hops : (h.exec n cmd src).mesh.ops = h.mesh.ops := Mesh.exec_ops_of_none hem
  have hat : ∀ p, (h.exec n cmd src).opsAt p = h.opsAt p := fun p => by
    rw [History.opsAt, hops]
    rfl
  refine ⟨hops ▸ hs.wellFormed, fun m o ho => ?_, fun m p hp => ?_⟩
  · rw [hops]
    by_cases hm : m = n
    · subst hm
      rw [History.exec_store_self] at ho
      exact hlog o ho
    · rw [h.exec_store_of_ne hm] at ho
      exact hs.oplog m o ho
  · rw [hat]
    by_cases hm : m = n
    · subst hm
      rw [History.exec_store_self]
      by_cases hsame : ((h.mesh.stores m).exec m cmd).files.get? p = (h.mesh.stores m).files.get? p
      · rw [Store.vvAt_congr hsame]
        exact hs.rows m p hp
      · exact hrows p hp hsame
    · rw [h.exec_store_of_ne hm]
      exact hs.rows m p hp

/-- A resolution merges the vectors of its candidates. -/
theorem resolveRows {src : Path → List OpRecord} {q : Path} {remote : Version}
    {staged : List PlannedRow} {order : List Hash} (hs : Sourced h)
    (hremote : ¬ IsCopyName q → FromOps h q remote.vv) :
    Sourced (h.exec n (.resolveRows q remote staged order) src) := by
  obtain heq | hres := Store.exec_resolveRows n (h.mesh.stores n) q remote staged order
  · refine hs.of_quiet rfl (fun o ho => ?_) fun p _ hne => ?_
    · rw [heq] at ho
      exact hs.oplog n o ho
    · rw [heq] at hne
      exact absurd rfl hne
  · refine hs.of_quiet rfl (fun o ho => ?_) fun p hp hne => ?_
    · rw [hres.oplog] at ho
      exact hs.oplog n o ho
    · by_cases hpq : p = q
      · subst hpq
        obtain ⟨localRow, hloc, hvv⟩ := hres.vvAt_path
        rw [hvv]
        refine FromOps.mergeAll fun c hc => ?_
        obtain ⟨o, ho, haff, rfl⟩ | rfl | rfl := Store.mem_candidates hc
        · exact fromOps_op ⟨hs.oplog n o ho, haff⟩
        · exact hremote hp
        · rw [Version.fromRow_vv, ← Store.vvAt_eq (Store.loadRow_eq_some.1 hloc).1]
          exact hs.rows n p hp
      · obtain hsame | ⟨hcp, -⟩ := hres.vvAt_other hpq
        · exact absurd hsame hne
        · exact absurd hcp hp

theorem local_step (hs : Sourced h) (hall : h.Allowed nodes act)
    (hloc : (∃ change, act = .append n change) ∨ ∃ old new, act = .rename n old new) :
    Sourced (h.step act) := by
  have hnode : act.node = n := by rcases hloc with ⟨_, rfl⟩ | ⟨_, _, rfl⟩ <;> rfl
  obtain ⟨-, hat, hops, hstores⟩ | ⟨op, -, hwf, hops, hlog, heff, hframe⟩ :=
    History.local_step hall hloc
  · refine ⟨hops ▸ hs.wellFormed, fun m o ho => ?_, fun m p hp => ?_⟩
    · rw [(hstores m).1] at ho
      exact hops ▸ hs.oplog m o ho
    · have hvv : ((h.step act).mesh.stores m).vvAt p = (h.mesh.stores m).vvAt p :=
        Store.vvAt_congr (by rw [(hstores m).2])
      rw [hat, hvv]
      exact hs.rows m p hp
  · have hold : ∀ {p vv}, FromOps h p vv → FromOps (h.step act) p vv := fun hv a ha => by
      obtain ⟨o, ho, hle⟩ := hv a ha
      exact ⟨o, h.opsAt_subset_step act _ ho, hle⟩
    refine ⟨fun o ho => ?_, fun m o ho => ?_, fun m p hp => ?_⟩
    · obtain ho | rfl := (hops o).1 ho
      · exact hs.wellFormed o ho
      · exact hwf
    · rw [hops]
      by_cases hm : m = n
      · subst hm
        exact (hlog o ho).imp_left (hs.oplog m o)
      · rw [h.step_store_of_ne (hnode ▸ hm)] at ho
        exact .inl (hs.oplog m o ho)
    · by_cases hm : m = n
      · subst hm
        by_cases hpaff : op.Affects p
        · rw [Store.vvAt_eq (heff p hpaff), effectRow_vv]
          exact fromOps_op ⟨(hops op).2 (.inr rfl), hpaff⟩
        · rw [Store.vvAt_congr (hframe p hpaff)]
          exact hold (hs.rows m p hp)
      · rw [h.step_store_of_ne (hnode ▸ hm)]
        exact hold (hs.rows m p hp)

/-- An op that is handled is merged into the rows at its paths, where it takes effect. -/
theorem applyRemote {src : Path → List OpRecord} {op : OpRecord} {d : Decision} (hs : Sourced h)
    (hop : op ∈ h.mesh.ops) : Sourced (h.exec n (.applyRemote op d) src) := by
  by_cases happ : op.opId ∈ (h.mesh.stores n).applied
  · have hexec : (h.mesh.stores n).exec n (.applyRemote op d) =
        (h.mesh.stores n).advanceRecvCursor op.origin op.origin op.originSeq := by
      simp [Store.exec, Store.commit, Store.applyRemote_of_applied happ]
    refine hs.of_quiet rfl (fun o ho => hs.oplog n o ?_) fun p _ hne => absurd ?_ hne
    · rwa [hexec] at ho
    · rw [hexec]
      rfl
  · obtain ⟨e, st', hrun, hlog, -, -, -, hfiles⟩ :=
      Store.applyRemote_files (hs.wellFormed op hop) happ d
    have hexec : (h.mesh.stores n).exec n (.applyRemote op d) = st' := by
      simp [Store.exec, Store.commit, hrun]
    refine hs.of_quiet rfl (fun o ho => ?_) fun p hp hne => ?_
    · rw [hexec, hlog, Store.mem_insertOp] at ho
      exact ho.elim (hs.oplog n o) fun heq => heq.1 ▸ hop
    · rw [hexec] at hne ⊢
      have heff : (h.mesh.stores n).TakesEffect op d p := by
        by_contra hnot
        exact hne ((hfiles p).2 hnot)
      have haff : op.Affects p := OpRecord.affects_iff.2 (heff.1.imp And.left id)
      rw [Store.vvAt_eq ((hfiles p).1 heff), effectRow_vv]
      exact FromOps.merge (hs.rows n p hp) (fromOps_op ⟨hop, haff⟩)

/-- A row that is adopted is merged into the row that is there. -/
theorem reconcileUpsert {src : Path → List OpRecord} {row : FileRow} (hs : Sourced h)
    (hrow : ¬ IsCopyName row.path → FromOps h row.path row.vv) :
    Sourced (h.exec n (.reconcileUpsert row) src) := by
  obtain heq | ⟨-, heq⟩ := Store.reconcileUpsert_files (h.mesh.stores n) row
  · refine hs.of_quiet rfl (fun o ho => hs.oplog n o ?_) fun p _ hne => absurd ?_ hne
    · rwa [Store.exec, heq] at ho
    · rw [Store.exec, heq]
  · refine hs.of_quiet rfl (fun o ho => hs.oplog n o ?_) fun p hp hne => ?_
    · rwa [Store.exec, heq] at ho
    · rw [Store.exec, heq, Store.upsertFile_files] at hne
      rw [Store.exec, heq, Store.vvAt, Store.upsertFile_files]
      by_cases hpq : row.path = p
      · subst hpq
        rw [OrdMap.get?_insert_self]
        exact FromOps.merge (hs.rows n row.path hp) (hrow hp)
      · exact absurd (OrdMap.get?_insert_of_ne _ _ hpq) hne

theorem step (hs : Sourced h) (hall : h.Allowed nodes act) : Sourced (h.step act) := by
  -- what a peer's row shows comes from ops at its path
  have hpeer : ∀ {m : NodeId} {row : FileRow},
      (h.mesh.stores m).files.get? row.path = some row.toRow →
      ¬ IsCopyName row.path → FromOps h row.path row.vv := fun {m row} hget hp => by
    have hm := hs.rows m row.path hp
    rwa [Store.vvAt_eq hget] at hm
  cases hc : act.command h with
  | none => rwa [History.step_of_none hc]
  | some cmd =>
    cases act with
    | append n change => exact hs.local_step hall (.inl ⟨change, rfl⟩)
    | rename n old new => exact hs.local_step hall (.inr ⟨old, new, rfl⟩)
    | record n op d =>
      rw [History.step_of_command _ rfl]
      exact hs.applyRemote hall.2.2
    | resolve n op atSource staged order =>
      obtain ⟨⟨q, remote⟩, hconf, rfl⟩ := Option.map_eq_some_iff.1 hc
      obtain ⟨haff, hvv⟩ := History.affects_of_conflictOf hconf
      rw [History.step_of_command _ hc]
      exact hs.resolveRows fun _ => hvv ▸ fromOps_op ⟨hall.2.2, haff⟩
    | adopt n m q =>
      obtain ⟨row, hrow, rfl⟩ := Option.map_eq_some_iff.1 hc
      obtain ⟨hget, rfl⟩ := Store.loadRow_eq_some.1 hrow
      rw [History.step_of_command _ hc]
      exact hs.reconcileUpsert (hpeer hget)
    | settle n m q staged order =>
      obtain ⟨row, hrow, rfl⟩ := Option.map_eq_some_iff.1 hc
      obtain ⟨hget, rfl⟩ := Store.loadRow_eq_some.1 hrow
      rw [History.step_of_command _ hc]
      exact hs.resolveRows (hpeer hget)

theorem init : Sourced {} where
  wellFormed := by simp
  oplog := by simp
  rows n p _ a ha := absurd ha (Nat.lt_irrefl 0)

end Sourced

/-! ### Runs -/

/-- Of the ops at the path that no other op there is above, this one has the best rank. -/
structure History.Best (h : History) (p : Path) (w : OpRecord) : Prop where
  mem : w ∈ h.opsAt p
  maximal : ∀ y ∈ h.opsAt p, ¬ w.vv < y.vv
  best : ∀ y ∈ h.opsAt p, (∀ z ∈ h.opsAt p, ¬ y.vv < z.vv) → y.rank ≤ w.rank

namespace Spread

variable {nodes : Set NodeId} {s : Spread} {p : Path} {n : NodeId}

/-- The node has heard of every op at the path. -/
def Complete (s : Spread) (n : NodeId) (p : Path) : Prop :=
  ∀ o ∈ s.history.opsAt p, o ∈ s.heard n p

theorem inv_reach (hr : (runs nodes).Reach {} s) : s.Heard ∧ Sourced s.history := by
  refine hr.invariant (I := fun s => s.Heard ∧ Sourced s.history)
    ⟨fun n p o ho => (by cases ho), .init⟩ fun s act s' _ hs hstep => ?_
  obtain ⟨hall, rfl⟩ := hstep
  exact ⟨heard_step hs.1 hs.2.wellFormed hall, hs.2.step hall⟩

omit [Blake3] in
/-- A vector that comes from ops which a node has all heard of is below that of its row. -/
theorem Complete.le_vvAt (hc : s.Complete n p) (hs : s.Heard) {vv : VersionVector}
    (hvv : Sourced.FromOps s.history p vv) : vv ≤ (s.history.mesh.stores n).vvAt p := by
  intro a
  obtain hzero | hpos := Nat.eq_zero_or_pos (vv.get a)
  · rw [hzero]
    exact Nat.zero_le _
  · obtain ⟨o, ho, hle⟩ := hvv a hpos
    exact hle.trans ((hs n p o (hc o ho)).2.le_vvAt a)

/-- What the row of a node shows that has heard of every op. -/
theorem Complete.shows (hc : s.Complete n p) (hs : s.Heard) (hinv : AgreeInv nodes s.history)
    (hhash : History.HashesApart s.history.mesh.ops) (hp : ¬ IsCopyName p)
    (hne : (s.history.opsAt p).Nonempty) :
    (∃ w, s.history.Best p w) ∧ ∀ w, s.history.Best p w →
      ∃ r, (s.history.mesh.stores n).files.get? p = some r ∧
        r.tombstone = decide (w.opType = .delete) ∧ r.contentHash = w.contentHash ∧
        r.metadata = w.metadata ∧ r.uuid = w.uuid := by
  obtain ⟨o, ho⟩ := hne
  obtain ⟨r, hr, -⟩ := (hs n p o (hc o ho)).2
  have hshows := hinv.shows n p r hp hr
  -- the row covers every op, so what is maximal below it is maximal
  have hall : ∀ y ∈ s.history.opsAt p, y.vv ≤ (Version.fromRow r).vv := fun y hy => by
    rw [Version.fromRow_vv, ← Store.vvAt_eq hr]
    exact (hs n p y (hc y hy)).2.le_vvAt
  have hmaximal : ∀ y, y ∈ maximalBelow (s.history.opsAt p) OpRecord.vv (Version.fromRow r).vv ↔
      y ∈ s.history.opsAt p ∧ ∀ z ∈ s.history.opsAt p, ¬ y.vv < z.vv :=
    fun y => ⟨fun h => ⟨h.1, fun z hz => h.2.2 z hz (hall z hz)⟩,
      fun h => ⟨h.1, hall y h.1, fun z hz _ => h.2 z hz⟩⟩
  have hgreatest := hshows.greatest
  refine ⟨?_, fun w hw => ⟨r, hr, ?_⟩⟩
  · obtain ⟨w, hw, hrank⟩ := hgreatest.1
    obtain ⟨hmem, hmax⟩ := (hmaximal w).1 hw
    exact ⟨w, hmem, hmax, fun y hy hymax =>
      hrank ▸ hgreatest.2 ⟨y, (hmaximal y).2 ⟨hy, hymax⟩, rfl⟩⟩
  · have hrank : (Version.fromRow r).rank = (opVersion w).rank := by
      refine le_antisymm ?_ (hgreatest.2 ⟨w, (hmaximal w).2 ⟨hw.mem, hw.maximal⟩, rfl⟩)
      obtain ⟨y, hy, hyrank⟩ := hgreatest.1
      obtain ⟨hmem, hmax⟩ := (hmaximal y).1 hy
      exact hyrank ▸ hw.best y hmem hmax
    obtain ⟨htidy, hfile⟩ := (hinv.plain w hw.mem.1).opVersion
    obtain ⟨hkey, huuid⟩ := History.uuid_eq_of_rank hshows.tidy htidy hrank
    obtain ⟨o', ho', hfile'⟩ := hshows.file
    obtain ⟨htomb, hcontent, hmeta⟩ :=
      hhash.eq_of_key hshows.tidy htidy ⟨o', ho'.1, hfile'⟩ ⟨w, hw.mem.1, hfile⟩ hkey
    exact ⟨htomb.trans hfile.1, hcontent, hmeta, huuid⟩

/-- **Knowledge spreads, and what has spread is the same everywhere.**  In every run of any number
of nodes, with writes, deletes and renames, ops delivered in any order, rows taken over and
resolutions committed or refused between any pair of nodes: the row of a node is at or above every op
that it has heard of, however the op got there.  At a path that is no conflict-copy name, two nodes
that have heard of every op have equal vectors.  And without renames, and while no superseded row
wins a resolution, the row of such a node is determined by the ops alone: of those that no other op
is above, it shows the one of the best key and uuid. -/
theorem knowledge_spreads (nodes : Set NodeId) :
    (∀ s, (runs nodes).Reach {} s →
      (∀ n p, ∀ o ∈ s.heard n p,
        o ∈ s.history.opsAt p ∧ o.vv ≤ (s.history.mesh.stores n).vvAt p) ∧
      ∀ p, ¬ IsCopyName p → ∀ n m, s.Complete n p → s.Complete m p →
        ((s.history.mesh.stores n).vvAt p).compare ((s.history.mesh.stores m).vvAt p) = .equal) ∧
    ∀ s, ((runs nodes).restrict fun s act =>
        s.history.NoRename act ∧ s.history.ResolveOk act).Reach {} s →
      s.history.SyntheticApart nodes → History.HashesApart s.history.mesh.ops →
      ∀ p, ¬ IsCopyName p → (s.history.opsAt p).Nonempty → ∀ n, s.Complete n p →
        (∃ w, s.history.Best p w) ∧ ∀ w, s.history.Best p w →
          ∃ r, (s.history.mesh.stores n).files.get? p = some r ∧
            r.tombstone = decide (w.opType = .delete) ∧ r.contentHash = w.contentHash ∧
            r.metadata = w.metadata ∧ r.uuid = w.uuid := by
  refine ⟨fun s hr => ?_, fun s hr hsyn hhash p hp hne n hc => ?_⟩
  · obtain ⟨hs, hsource⟩ := inv_reach hr
    refine ⟨fun n p o ho => ⟨(hs n p o ho).1, (hs n p o ho).2.le_vvAt⟩, fun p hp n m hn hm => ?_⟩
    exact VersionVector.compare_eq_equal.2
      ⟨hm.le_vvAt hs (hsource.rows n p hp), hn.le_vvAt hs (hsource.rows m p hp)⟩
  · obtain ⟨hs, -⟩ := inv_reach hr.of_restrict
    have hhist : (((History.runs nodes).restrict History.NoRename).restrict
        History.ResolveOk).Reach {} s.history := by
      refine hr.invariant (I := fun s => (((History.runs nodes).restrict History.NoRename).restrict
        History.ResolveOk).Reach {} s.history) .init fun s act s' _ ih hstep => ?_
      obtain ⟨⟨hno, hok⟩, hall, rfl⟩ := hstep
      exact ih.next ⟨hok, hno, hall, rfl⟩
    exact hc.shows hs (History.agreeInv_reach hhist hsyn) hhash hp hne

end Spread

end

namespace Spread

section Example

attribute [local instance] Blake3.polynomial

instance (s : Spread) (n : NodeId) (p : Path) : Decidable (s.Complete n p) :=
  decidable_of_iff (∀ o ∈ s.history.mesh.ops, o.Affects p → o ∈ s.heard n p)
    ⟨fun h o ho => h o ho.1 ho.2, fun h o ho hp => h o ⟨ho, hp⟩⟩

/-- Two concurrent writes, and node 2 takes over the row of the first. -/
def twoWrites : List Act :=
  [.append 1 (History.writeContent 9), .append 3 (History.writeContent 5), .adopt 2 1 ['f']]

/-- The stores at that moment. -/
def merging : History := twoWrites.foldl History.step {}

/-- Node 2 resolves against the row of the other; then 1 and 3 take over its row. -/
def alongChain : List Act :=
  let staged := ((merging.mesh.stores 3).loadRow ['f']).bind fun r =>
    (merging.mesh.stores 2).planFor ['f'] (Version.fromRow r.toRow)
  twoWrites ++ [.settle 2 3 ['f'] (staged.getD []) [], .adopt 1 2 ['f'], .adopt 3 2 ['f']]

/-- The state that the chain ends in. -/
def chained : Spread := alongChain.foldl step {}

theorem chained_reach : ((runs {n | n ∈ [1, 2, 3]}).restrict fun s act =>
    s.history.NoRename act ∧ s.history.ResolveOk act).Reach {} chained := by
  rw [runs, Lts.restrict_ofFun]
  refine Lts.Reach.init.of_foldl ⟨⟨⟨trivial, trivial⟩, by decide +kernel⟩,
    ⟨⟨trivial, trivial⟩, by decide +kernel⟩, ⟨⟨trivial, trivial⟩, by decide +kernel⟩,
    ⟨⟨trivial, ?_⟩, by decide +kernel⟩, ⟨⟨trivial, trivial⟩, by decide +kernel⟩,
    ⟨⟨trivial, trivial⟩, by decide +kernel⟩, trivial⟩
  intro row loc hrow hloc _ _
  have hcurrent : ∀ row ∈ (merging.mesh.stores 3).loadRow ['f'],
      ∀ loc ∈ (merging.mesh.stores 2).loadRow ['f'],
      ∀ c ∈ [Version.fromRow loc.toRow, Version.fromRow row.toRow],
        merging.WinnerCurrent ['f'] ((merging.mesh.stores 2).candidates ['f']
          (Version.fromRow row.toRow) loc) c := by decide +kernel
  exact hcurrent row hrow loc hloc

/-- The ghost does not matter to the history. -/
theorem history_foldl [Blake3] (acts : List Act) (s : Spread) :
    (acts.foldl step s).history = acts.foldl History.step s.history := by
  induction acts generalizing s with
  | nil => rfl
  | cons act acts ih => exact ih (s.step act)

theorem knowledge_spreads_chained :
    ∃ r r', (chained.history.mesh.stores 1).files.get? ['f'] = some r ∧
      (chained.history.mesh.stores 3).files.get? ['f'] = some r' ∧
      r.contentHash = r'.contentHash ∧ r.metadata = r'.metadata ∧ r.uuid = r'.uuid := by
  have hsyn : chained.history.SyntheticApart {n | n ∈ [1, 2, 3]} := by
    rw [chained, history_foldl]
    exact History.syntheticApart_foldl (by decide +kernel)
  have hhash : History.HashesApart chained.history.mesh.ops :=
    ⟨by decide +kernel, by decide +kernel⟩
  have hne : (chained.history.opsAt ['f']).Nonempty :=
    ⟨History.write9, (by decide +kernel :
      History.write9 ∈ chained.history.mesh.ops ∧ History.write9.Affects ['f'])⟩
  have hspread := (knowledge_spreads {n | n ∈ [1, 2, 3]}).2 chained chained_reach hsyn hhash ['f']
    History.not_isCopyName_f hne
  obtain ⟨⟨w, hw⟩, hshows⟩ := hspread 1 (by decide +kernel)
  obtain ⟨r, hr, -, hcontent, hmeta, huuid⟩ := hshows w hw
  obtain ⟨r', hr', -, hcontent', hmeta', huuid'⟩ := (hspread 3 (by decide +kernel)).2 w hw
  exact ⟨r, r', hr, hr', hcontent.trans hcontent'.symm, hmeta.trans hmeta'.symm,
    huuid.trans huuid'.symm⟩

end Example

end Spread

end Replicore
