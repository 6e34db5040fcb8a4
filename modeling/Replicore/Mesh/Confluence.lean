import Replicore.Mesh.Settled

/-!
# Confluence of the op plane

Whatever the order and the multiplicity of deliveries, a node's row at a path is the one that the
set of ops it has handled there determines, and every maximal op that did not win is kept as a
conflict copy.

A node's store alone shows most of it (`NodeInv`).  One case needs what vectors mean across nodes:
an op that is ignored is below the merge of the handled ones, and so below one of them
(`Mesh.Tracked.exists_ge`).
-/

namespace Replicore

/-- The vectors of the mesh tell what was taken in. -/
def Mesh.Tracked (nodes : Set NodeId) (g : Mesh) : Prop :=
  ∃ h : History, h.mesh = g ∧ CausalInv nodes h

namespace Mesh.Tracked

variable {nodes : Set NodeId} {g : Mesh} {n : NodeId} {op : OpRecord}

theorem antisymm (h : g.Tracked nodes) : ∀ o ∈ g.ops, ∀ o' ∈ g.ops, o.path = o'.path →
    o.vv ≤ o'.vv → o'.vv ≤ o.vv → o = o' := by
  obtain ⟨h, rfl, hinv⟩ := h
  intro o ho o' ho' hp
  exact hinv.antisymm o.path o ⟨ho, .inl rfl⟩ o' ⟨ho', .inl hp.symm⟩

variable [Blake3]

/-- An op below the merge of others is below one of them. -/
theorem exists_ge (h : g.Tracked nodes) (hop : op ∈ g.ops) {S : List OpRecord}
    (hS : ∀ o ∈ S, o ∈ g.ops ∧ o.path = op.path) (hle : op.vv ≤ mergeAll (S.map opVersion)) :
    ∃ o ∈ S, op.vv ≤ o.vv := by
  obtain ⟨h, rfl, hinv⟩ := h
  obtain ⟨c, hc, hle⟩ := hinv.exists_ge_candidate (p := op.path) (x := op) (fun c hc => by
    obtain ⟨o, ho, rfl⟩ := List.mem_map.1 hc
    exact ⟨_, hinv.ops o (hS o ho).1 op.path (.inl (hS o ho).2)⟩) ⟨hop, .inl rfl⟩ hle
  obtain ⟨o, ho, rfl⟩ := List.mem_map.1 hc
  exact ⟨o, ho, hle⟩

theorem append (h : g.Tracked nodes) (hn : n ∈ nodes) (hmax : (g.stores n).CountersBelowMax)
    {change : LocalChange} (hing : change.Ingested) :
    (g.exec n (.appendLocal change)).Tracked nodes := by
  obtain ⟨h, rfl, hinv⟩ := h
  exact ⟨h.step (.append n change), rfl, hinv.append hn hmax hing⟩

theorem record (h : g.Tracked nodes) (hn : n ∈ nodes) (hop : op ∈ g.ops) (d : Decision) :
    (g.exec n (.applyRemote op d)).Tracked nodes := by
  obtain ⟨h, rfl, hinv⟩ := h
  exact ⟨h.step (.record n op d), rfl, hinv.record hn hop d⟩

theorem resolve (h : g.Tracked nodes) (hn : n ∈ nodes) (hop : op ∈ g.ops)
    {staged : List PlannedRow}
    (hsyn : ∀ m p, IsCopyName p →
      (((g.exec n (.resolveRows op.path (opVersion op) staged [])).stores m).files.get? p).isSome →
      copyOrigin p ∉ nodes) :
    (g.exec n (.resolveRows op.path (opVersion op) staged [])).Tracked nodes := by
  obtain ⟨h, rfl, hinv⟩ := h
  exact ⟨h.step (.resolve n op false staged []), rfl, hinv.resolve hn hop hsyn⟩

end Mesh.Tracked

section

variable [Blake3]

/-- What holds in every state of a run. -/
structure ConfInv (nodes : Set NodeId) (f : Fleet) : Prop where
  ids : ∀ n, (f.replicas n).nodeId = n
  tracked : f.mesh.Tracked nodes
  numbered : f.mesh.Numbered
  plain : ∀ o ∈ f.ops, o.Plain
  path : ∀ o ∈ f.ops, ¬ IsCopyName o.path
  sized : ∀ o ∈ f.ops, o.contentHash = none → o.size = 0
  normal : ∀ o ∈ f.ops, o.vv.Normal
  node : ∀ n, NodeInv f.ops (f.store n) (f.handled n)

namespace ConfInv

variable {nodes : Set NodeId} {f : Fleet} {n : NodeId} {op : OpRecord}

theorem init : ConfInv nodes {} where
  ids _ := rfl
  tracked := ⟨{}, rfl, CausalInv.init⟩
  numbered := Mesh.numbered_init
  plain := by simp
  path := by simp
  sized := by simp
  normal := by simp
  node n := by
    refine ⟨⟨by simp, by simp [Fleet.store], by simp [Fleet.store]⟩, fun p _ => ?_, ?_⟩
    · exact ⟨fun _ => rfl, fun r hr => by cases hr⟩
    · rintro p r - hr
      cases hr

theorem normal_vvAt (hinv : ConfInv nodes f) {p : Path} (hp : ¬ IsCopyName p) :
    ((f.store n).vvAt p).Normal := by
  rw [(hinv.node n).vvAt_eq hp]
  refine normal_opVersions fun o ho => hinv.normal o ?_
  exact (hinv.node n).mem o (List.mem_filter.1 ho).1

/-- A step changes one node, and may add ops. -/
theorem of_update (hinv : ConfInv nodes f) {r : Replica} (hrid : r.nodeId = n)
    {emitted handled : List OpRecord} (htracked : (f.update n r emitted handled).mesh.Tracked nodes)
    (hnumbered : (f.update n r emitted handled).mesh.Numbered)
    (hnew : ∀ o ∈ emitted, o.Plain ∧ ¬ IsCopyName o.path ∧ (o.contentHash = none → o.size = 0) ∧
      o.vv.Normal)
    (hnode : NodeInv (f.ops ++ emitted) r.store (f.handled n ++ handled)) :
    ConfInv nodes (f.update n r emitted handled) := by
  have hmem : ∀ {o}, o ∈ (f.update n r emitted handled).ops → o ∈ f.ops ∨ o ∈ emitted :=
    List.mem_append.1
  refine ⟨fun m => ?_, htracked, hnumbered, fun o ho => ?_, fun o ho => ?_, fun o ho => ?_,
    fun o ho => ?_, fun m => ?_⟩
  · by_cases hm : m = n
    · subst hm
      simpa [Fleet.update] using hrid
    · simpa [Fleet.update, hm] using hinv.ids m
  · exact (hmem ho).elim (hinv.plain o) fun ho => (hnew o ho).1
  · exact (hmem ho).elim (hinv.path o) fun ho => (hnew o ho).2.1
  · exact (hmem ho).elim (hinv.sized o) fun ho => (hnew o ho).2.2.1
  · exact (hmem ho).elim (hinv.normal o) fun ho => (hnew o ho).2.2.2
  · by_cases hm : m = n
    · subst hm
      simpa [Fleet.update, Fleet.store] using hnode
    · have hother := (hinv.node m).mono (List.subset_append_left f.ops emitted)
      simpa [Fleet.update, Fleet.store, hm] using hother

/-- A plain op is recorded: the log takes it in, and so does the applied set. -/
theorem log_applyRemote (hinv : ConfInv nodes f) (hops : OpsOk f.ops) (hop : op ∈ f.ops)
    {st : Store} (hlog : st.oplog = (f.store n).oplog) (happ : st.applied = (f.store n).applied)
    (hnew : op.opId ∉ (f.store n).applied) (d : Decision) :
    (∀ o, o ∈ (st.exec n (.applyRemote op d)).oplog ↔ o ∈ (f.store n).oplog ∨ o = op) ∧
      (∀ i ∈ (st.exec n (.applyRemote op d)).applied, i ∈ (f.store n).applied ∨ i = op.opId) ∧
      (d ≠ .apply → (st.exec n (.applyRemote op d)).files = st.files) := by
  have hplain := hinv.plain op hop
  have hwf : op.WellFormed := .inr ⟨hplain.not_rename, hplain.pathOld⟩
  rw [← happ] at hnew
  obtain ⟨e, st', hrun, hlog', happ', -⟩ := Store.applyRemote_files hwf hnew d
  have hexec : st.exec n (.applyRemote op d) = st' := by simp [Store.exec, Store.commit, hrun]
  rw [hexec, hlog', happ', happ]
  refine ⟨fun o => ?_, fun i hi => by simpa using hi, fun hd => ?_⟩
  · rw [← hlog]
    refine Store.mem_insertOp_of_ids (fun o ho hid => ?_) o
    exact hinv.numbered.eq_of_opId hops (hinv.numbered.oplog n o (hlog ▸ ho)) hop hid
  · obtain ⟨st'', hrun', hfiles, -⟩ := Store.applyRemote_of_ne_apply hwf hplain.pathOld hnew hd
    rw [hrun, Except.ok.injEq, Prod.mk.injEq] at hrun'
    rw [hrun'.2, hfiles]

/-- What the commands of the receive path make of a node. -/
theorem node_receive (hinv : ConfInv nodes f) (hops : OpsOk f.ops) (hdig : DigestsApart f.ops)
    (hop : op ∈ f.ops) : NodeInv f.ops
      ((Replica.receiveCommands (f.store n) op).foldl (Store.exec n) (f.store n))
      (f.handled n ++ [op]) := by
  have hnode := hinv.node n
  have hplain := hinv.plain op hop
  have hpath := hinv.path op hop
  have hanti := hinv.tracked.antisymm
  rcases Replica.receiveCommands_cases (f.store n) op with ⟨happ, hcmds⟩ | ⟨hnew, hd, hcmds⟩ |
    ⟨hnew, hd, hcmds⟩ | ⟨hnew, hd, hcmds⟩
  · -- a duplicate
    rw [hcmds]
    obtain ⟨o, ho, hid⟩ := hnode.applied op.opId happ
    obtain rfl := hinv.numbered.eq_of_opId hops (hnode.mem o ho) hop hid
    refine hnode.below hop hinv.normal hanti (fun x => ?_) (fun i hi => .inl hi) rfl ho rfl le_rfl
    refine ⟨.inl, ?_⟩
    rintro (hx | rfl)
    · exact hx
    · exact (hnode.log x).2 ho
  · -- above the row
    rw [hcmds, List.foldl_cons, List.foldl_nil]
    obtain ⟨hlog, happ, -⟩ := hinv.log_applyRemote hops hop rfl rfl hnew .apply
    have hwf : op.WellFormed := .inr ⟨hplain.not_rename, hplain.pathOld⟩
    have hlt := Store.decide_eq_apply.1 hd
    obtain ⟨e, st', hrun, -, -, -, -, hfiles⟩ := Store.applyRemote_files hwf hnew .apply
    have hexec : (f.store n).exec n (.applyRemote op .apply) = st' := by
      simp [Store.exec, Store.commit, hrun]
    rw [hexec] at hlog happ ⊢
    refine hnode.above hop hplain hpath hinv.normal hlog happ ?_ (fun p hp => ?_) fun o ho hop' => ?_
    · rw [(hfiles op.path).1 ⟨.inl ⟨rfl, rfl⟩, hlt⟩, (hinv.normal_vvAt hpath).merge_eq_right
        (hinv.normal op hop) (Store.vvAt_le_of_lt hlt)]
    · refine (hfiles p).2 ?_
      rintro ⟨⟨hp', -⟩ | ⟨-, hold⟩, -⟩
      · exact hp hp'.symm
      · rw [hplain.pathOld] at hold
        cases hold
    · have hle := hnode.le_vvAt ho (hop' ▸ hpath)
      rw [hop'] at hle
      cases hr : (f.store n).files.get? op.path with
      | none =>
        have hnone := (hnode.rows op.path hpath).none hr
        have hmem : o ∈ (f.handled n).filter fun o => o.path = op.path :=
          List.mem_filter.2 ⟨ho, by simpa using hop'⟩
        rw [hnone] at hmem
        cases hmem
      | some r =>
        rw [Store.vvAt_eq hr] at hle
        exact hle.trans_lt (hlt r hr)
  · -- below the row, so below an op it has taken in
    rw [hcmds, List.foldl_cons, List.foldl_nil]
    obtain ⟨hlog, happ, hfiles⟩ := hinv.log_applyRemote hops hop rfl rfl hnew .ignore
    obtain ⟨r, hr, hle⟩ := Store.decide_eq_ignore.1 hd
    rw [← Store.vvAt_eq hr, hnode.vvAt_eq hpath] at hle
    have hmem : ∀ o ∈ (f.handled n).filter fun o => o.path = op.path,
        o ∈ f.ops ∧ o.path = op.path := by
      intro o ho
      obtain ⟨ho, hp⟩ := List.mem_filter.1 ho
      exact ⟨hnode.mem o ho, by simpa using hp⟩
    obtain ⟨o, ho, hle⟩ := hinv.tracked.exists_ge hop hmem hle
    exact hnode.below hop hinv.normal hanti hlog happ (hfiles (by decide)) (List.mem_filter.1 ho).1
      (hmem o ho).2 hle
  · -- concurrent with the row
    rw [hcmds, List.foldl_cons, List.foldl_cons, List.foldl_nil]
    obtain ⟨plan, hplan⟩ := Option.isSome_iff_exists.1
      (hnode.planFor_isSome (opVersion op) hd)
    rw [hplan, Option.getD_some, Store.exec_resolveRows_of_plan n hd hplan]
    have hres := Store.resolved_of_plan hd hplan
    obtain ⟨hlog, happ, hfiles⟩ :=
      hinv.log_applyRemote hops hop hres.oplog hres.applied hnew .concurrent
    exact hnode.resolve hdig hop hinv.plain hpath hinv.normal hanti hres hlog happ
      (hfiles (by decide))

/-- The commands of the receive path, as steps of the mesh. -/
theorem tracked_receive (hinv : ConfInv nodes f) (hn : n ∈ nodes) (hops : OpsOk f.ops)
    (hop : op ∈ f.ops)
    (hsyn : ∀ m p, IsCopyName p → ((((Replica.receiveCommands (f.store n) op).foldl
      (fun g cmd => g.exec n cmd) f.mesh).stores m).files.get? p).isSome → copyOrigin p ∉ nodes) :
    ((Replica.receiveCommands (f.store n) op).foldl (fun g cmd => g.exec n cmd) f.mesh).Tracked
      nodes := by
  rcases Replica.receiveCommands_cases (f.store n) op with ⟨-, hcmds⟩ | ⟨-, -, hcmds⟩ |
    ⟨-, -, hcmds⟩ | ⟨hnew, hd, hcmds⟩
  · rw [hcmds]
    exact hinv.tracked
  · rw [hcmds]
    exact hinv.tracked.record hn hop .apply
  · rw [hcmds]
    exact hinv.tracked.record hn hop .ignore
  · rw [hcmds] at hsyn ⊢
    refine (hinv.tracked.resolve hn hop fun m p hcp hsome => hsyn m p hcp ?_).record hn ?_
      .concurrent
    · -- recording the op leaves the rows of the resolution
      rw [List.foldl_cons, List.foldl_cons, List.foldl_nil]
      by_cases hm : m = n
      · subst hm
        rw [Mesh.exec_store_self] at hsome ⊢
        obtain ⟨plan, hplan⟩ := Option.isSome_iff_exists.1
          ((hinv.node m).planFor_isSome (opVersion op) hd)
        have hres := Store.resolved_of_plan hd hplan
        rw [hplan, Option.getD_some, Mesh.exec_store_self]
        rw [hplan, Option.getD_some] at hsome
        have hexec : (f.mesh.stores m).exec m (.resolveRows op.path (opVersion op) plan []) =
            plan.foldl Store.upsertFile (f.store m) := Store.exec_resolveRows_of_plan m hd hplan
        rw [hexec] at hsome ⊢
        rwa [(hinv.log_applyRemote hops hop hres.oplog hres.applied hnew .concurrent).2.2
          (by decide)]
      · rwa [Mesh.exec_store_of_ne _ _ hm]
    · rw [Mesh.exec_ops_of_none rfl]
      exact hop

/-- A delivery is handled to its end, and keeps the invariant. -/
theorem deliver (hinv : ConfInv nodes f) (hn : n ∈ nodes) (hops : OpsOk f.ops)
    (hdig : DigestsApart f.ops) (hop : op ∈ f.ops)
    (hsyn : (f.step (.deliver n op)).SyntheticApart nodes) :
    ConfInv nodes (f.step (.deliver n op)) := by
  obtain ⟨r, hrid, hstep, hst⟩ := Fleet.step_deliver (hinv.ids n) (hinv.plain op hop) fun _ hd =>
    (hinv.node n).planFor_isSome (opVersion op) hd
  have hquiet : ∀ cmd ∈ Replica.receiveCommands (f.store n) op, (∀ st, cmd.emitted n st = none) ∧
      f.mesh.Honest cmd := by
    intro cmd hcmd
    have hrecord : ∀ d, (∀ st, (Command.applyRemote op d).emitted n st = none) ∧
        f.mesh.Honest (.applyRemote op d) := by
      refine fun d => ⟨fun _ => rfl, ?_⟩
      rintro _ ⟨⟩
      exact hop
    rcases Replica.receiveCommands_cases (f.store n) op with ⟨-, hcmds⟩ | ⟨-, -, hcmds⟩ |
      ⟨-, -, hcmds⟩ | ⟨-, -, hcmds⟩ <;>
      simp only [hcmds, List.mem_cons, List.not_mem_nil, or_false] at hcmd
    · rw [hcmd]
      exact hrecord _
    · rw [hcmd]
      exact hrecord _
    · rcases hcmd with rfl | rfl
      · exact ⟨fun _ => rfl, by rintro _ ⟨⟩⟩
      · exact hrecord _
  have hmesh : (f.update n r [] [op]).mesh =
      (Replica.receiveCommands (f.store n) op).foldl (fun g cmd => g.exec n cmd) f.mesh := by
    rw [Fleet.mesh_update, Mesh.foldl_exec _ _ fun c hc => (hquiet c hc).1, hst, List.append_nil]
    rfl
  rw [hstep] at hsyn ⊢
  refine hinv.of_update hrid ?_ ?_ (by simp) ?_
  · rw [hmesh]
    refine hinv.tracked_receive hn hops hop ?_
    rw [← hmesh]
    exact hsyn
  · rw [hmesh]
    exact hinv.numbered.foldl_exec hops (fun c hc => (hquiet c hc).1) fun c hc => (hquiet c hc).2
  · rw [hst, List.append_nil]
    exact hinv.node_receive hops hdig hop

/-- A local change. -/
theorem change (hinv : ConfInv nodes f) {change : LocalChange}
    (hall : f.Allowed nodes (.change n change))
    (hops : OpsOk (f.step (.change n change)).ops) : ConfInv nodes (f.step (.change n change)) := by
  obtain ⟨hn, hmax, hing, hsized, hpath⟩ := hall
  obtain ⟨r, hrid, hstep, hst⟩ := Fleet.step_change (hinv.ids n) hing
  rw [hstep] at hops ⊢
  have hnode := hinv.node n
  have hmesh : (f.update n r ((Command.appendLocal change).emitted n (f.store n)).toList
      ((Command.appendLocal change).emitted n (f.store n)).toList).mesh =
        f.mesh.exec n (.appendLocal change) := by
    rw [Fleet.mesh_update, hst]
    rfl
  have hnumbered : (f.mesh.exec n (.appendLocal change)).Numbered :=
    hinv.numbered.exec (by rintro _ ⟨⟩) hops
  have hvv := Store.localOp_vv n (f.store n) change
  have hbound := hmax.vvAt change.path n
  have hnormal : (Store.localOp n (f.store n) change).vv.Normal :=
    hvv ▸ (hinv.normal_vvAt hpath).increment hbound
  refine hinv.of_update hrid (hmesh ▸ hinv.tracked.append hn hmax hing) (hmesh ▸ hnumbered) ?_ ?_
  · intro op hop
    obtain rfl := Store.emitted_appendLocal (Option.mem_toList.1 hop)
    exact ⟨plain_localOp n _ hing, hpath, hsized, hnormal⟩
  · rw [hst]
    rcases Store.exec_log n (f.store n) (.appendLocal change) with ⟨hlog, happ, hem⟩ |
      ⟨op, hem, -, -, -, hlog, happ⟩ | ⟨op, hrec, -⟩
    · -- nothing to record
      rw [hem]
      simp only [Option.toList_none, List.append_nil]
      exact hnode.congr (Store.exec_files_of_no_op (.inl ⟨change, rfl⟩) hem) hlog happ
    · have hemits := Store.emits_of_emitted (by rintro _ ⟨⟩; exact hing) hem
      obtain rfl := Store.emitted_appendLocal hem
      rw [hem] at hops ⊢
      have hmem : Store.localOp n (f.store n) change ∈
          (f.mesh.exec n (.appendLocal change)).ops := by
        rw [Mesh.exec_ops_of_some hem]
        simp
      refine (hnode.mono (List.subset_append_left _ _)).above (by simp) (plain_localOp n _ hing)
        hpath (fun o ho => ?_) (fun o => ?_) (fun i hi => .inl (happ ▸ hi))
        (hemits.effect _ (.inl rfl)) (fun p hp => hemits.frame p ?_) fun o ho hp => ?_
      · rcases List.mem_append.1 ho with ho | ho
        · exact hinv.normal o ho
        · rwa [List.mem_singleton.1 ho]
      · rw [hlog]
        refine Store.mem_insertOp_of_ids (fun o ho hid => ?_) o
        refine hnumbered.eq_of_opId ?_ (Mesh.ops_subset_exec _ _ _ (hinv.numbered.oplog n o ho)) hmem
          hid
        rwa [Mesh.exec_ops_of_some hem]
      · rw [(plain_localOp n _ hing).affects_iff]
        exact hp.symm
      · have hle := hnode.le_vvAt ho (hp ▸ hpath)
        rw [hp] at hle
        rw [hvv]
        exact hle.trans_lt (VersionVector.lt_increment hbound)
    · cases hrec

theorem step (hinv : ConfInv nodes f) {e : FleetEvent} (hall : f.Allowed nodes e)
    (hops : OpsOk (f.step e).ops) (hsyn : (f.step e).SyntheticApart nodes)
    (hdig : DigestsApart (f.step e).ops) : ConfInv nodes (f.step e) := by
  have hsub := f.ops_subset_step e
  cases e with
  | change n change => exact hinv.change hall hops
  | deliver n op => exact hinv.deliver hall.1 (hops.mono hsub) (hdig.mono hsub) hall.2.2 hsyn

end ConfInv

namespace Fleet

variable {nodes : Set NodeId} {f : Fleet}

theorem confInv_reach (hr : (runs nodes).Reach {} f) (hops : OpsOk f.ops)
    (hsyn : f.SyntheticApart nodes) (hdig : DigestsApart f.ops) : ConfInv nodes f := by
  refine hr.invariant (I := fun f => OpsOk f.ops → f.SyntheticApart nodes → DigestsApart f.ops →
    ConfInv nodes f) (fun _ _ _ => ConfInv.init) (fun f e f' _ ih hstep hops hsyn hdig => ?_) hops
      hsyn hdig
  obtain ⟨hall, rfl⟩ := hstep
  have hsub := f.ops_subset_step e
  exact (ih (hops.mono hsub) (hsyn.of_step hall) (hdig.mono hsub)).step hall hops hsyn hdig

/-- Of the ops that no other op of the list dominates, one of largest key. -/
def IsBest (S : List OpRecord) (w : OpRecord) : Prop :=
  w ∈ maximalOps S ∧ ∀ k ∈ maximalOps S, k.key ≤ w.key

/-- What the ops `S` at the path `p` are to come to: the file of the best op, the largest uuid of
the maximal ops of that key, the merge of all vectors, and a copy of every other maximal content. -/
structure Outcome (S : List OpRecord) (p : Path) (st : Store) (r : Row) : Prop where
  exists_best : ∃ w, IsBest S w
  file : ∀ w, IsBest S w → r.tombstone = decide (w.opType = .delete) ∧
    r.contentHash = w.contentHash ∧ r.size = w.size ∧ r.metadata = w.metadata
  uuid : ∀ w, IsBest S w → ∃ u, r.uuid = some u ∧
    IsGreatest {u | ∃ k ∈ maximalOps S, k.key = w.key ∧ k.uuid = some u} u
  vv : r.vv = mergeAll (S.map opVersion)
  copies : ∀ w, IsBest S w → ∀ k ∈ maximalOps S, k.key ≠ w.key → KeepsCopy st p k

theorem outcome_of_isRowOf (hinv : ConfInv nodes f) (hdig : DigestsApart f.ops)
    {S : List OpRecord} (hS : ∀ o ∈ S, o ∈ f.ops) {p : Path} {st : Store} {w : OpRecord} {r : Row}
    (hrow : IsRowOf S w r) (hcopies : ∀ k ∈ maximalOps S, k.key ≠ w.key → KeepsCopy st p k) :
    Outcome S p st r := by
  -- all best ops have one key, and so one file
  have hkey : ∀ w', IsBest S w' → w'.key = w.key := fun w' hw' =>
    le_antisymm (hrow.best w' hw'.1) (hw'.2 w hrow.mem)
  refine ⟨⟨w, hrow.mem, hrow.best⟩, fun w' hw' => ?_, fun w' hw' => ?_, hrow.vv, fun w' hw' => ?_⟩
  · obtain ⟨htype, hcontent, hsize, hmeta⟩ := hdig.eq_of_key hinv.plain hinv.sized
      (hS w' (mem_maximalOps.1 hw'.1).1) (hS w (mem_maximalOps.1 hrow.mem).1) (hkey w' hw')
    rw [hcontent, hsize, hmeta, decide_eq_decide.2 htype]
    exact ⟨hrow.tombstone, hrow.contentHash, hrow.size, hrow.metadata⟩
  · rw [hkey w' hw']
    exact hrow.uuid
  · rw [hkey w' hw']
    exact hcopies

/-- **Op-plane confluence.**  In every state of every run of writes, deletes and deliveries: a node
that has handled the ops `S` at a path has the row that they come to, and with it the copies of the
maximal ops that lost; it has no row if there are none.  Two nodes that have handled the same ops at
a path have the same row there.  And whatever op is delivered next is handled to its end. -/
theorem op_plane_confluence (nodes : Set NodeId) {f : Fleet} (hr : (runs nodes).Reach {} f)
    (hops : OpsOk f.ops) (hsyn : f.SyntheticApart nodes) (hdig : DigestsApart f.ops) :
    (∀ n p, ¬ IsCopyName p →
      (f.handledAt n p = [] ∧ (f.store n).files.get? p = none) ∨
      ∃ r, (f.store n).files.get? p = some r ∧ Outcome (f.handledAt n p) p (f.store n) r) ∧
    (∀ n m p, ¬ IsCopyName p → (∀ o, o ∈ f.handledAt n p ↔ o ∈ f.handledAt m p) →
      (f.store n).files.get? p = (f.store m).files.get? p) ∧
    ∀ n, ∀ op ∈ f.ops, ∃ d r, (f.replicas n).receive op = .ok (d, r) := by
  have hinv := confInv_reach hr hops hsyn hdig
  have hmem : ∀ n p, ∀ o ∈ f.handledAt n p, o ∈ f.ops := fun n p o ho =>
    (hinv.node n).mem o (List.mem_filter.1 ho).1
  refine ⟨fun n p hp => ?_, fun n m p hp hset => ?_, fun n op hop => ?_⟩
  · have hsettled := (hinv.node n).rows p hp
    cases hrow : (f.store n).files.get? p with
    | none => exact .inl ⟨hsettled.none hrow, rfl⟩
    | some r =>
      obtain ⟨w, hisrow, hcopies⟩ := hsettled.some r hrow
      exact .inr ⟨r, rfl, outcome_of_isRowOf hinv hdig (hmem n p) hisrow hcopies⟩
  · have hn := (hinv.node n).rows p hp
    have hm := (hinv.node m).rows p hp
    -- a row without ops has no best op
    have hnone : ∀ {k : NodeId} {r : Row}, (f.store k).files.get? p = some r →
        ∃ o, o ∈ f.handledAt k p := by
      intro k r hrow
      obtain ⟨w, hisrow, -⟩ := ((hinv.node k).rows p hp).some r hrow
      exact ⟨w, (mem_maximalOps.1 hisrow.mem).1⟩
    cases hrow : (f.store n).files.get? p with
    | none =>
      cases hrow' : (f.store m).files.get? p with
      | none => rfl
      | some r' =>
        obtain ⟨o, ho⟩ := hnone hrow'
        have hnil : f.handledAt n p = [] := hn.none hrow
        rw [← hset, hnil] at ho
        cases ho
    | some r =>
      cases hrow' : (f.store m).files.get? p with
      | none =>
        obtain ⟨o, ho⟩ := hnone hrow
        have hnil : f.handledAt m p = [] := hm.none hrow'
        rw [hset, hnil] at ho
        cases ho
      | some r' =>
        obtain ⟨w, hisrow, -⟩ := hn.some r hrow
        obtain ⟨w', hisrow', -⟩ := hm.some r' hrow'
        exact congrArg some (hisrow.unique hdig hinv.plain hinv.sized (hmem n p)
          (fun o ho => hinv.normal o (hmem n p o ho)) hset hisrow')
  · have hplain := hinv.plain op hop
    obtain ⟨d, r, hrun, -⟩ := (f.replicas n).receive_eq
      (.inr ⟨hplain.not_rename, hplain.pathOld⟩) hplain.not_rename
        fun _ hd => (hinv.node n).planFor_isSome (opVersion op) hd
    exact ⟨d, r, hrun⟩

end Fleet

end

namespace Fleet

section Example

attribute [local instance] Blake3.polynomial

open History (writeContent write9 write5)

/-- Nodes 1 and 2 write `f`; nodes 3 and 4 get both writes, in opposite orders, and node 4 gets one
of them twice. -/
def oppositeOrders : List FleetEvent :=
  [.change 1 (writeContent 9), .change 2 (writeContent 5), .deliver 3 write9, .deliver 4 write5,
    .deliver 3 write5, .deliver 4 write9, .deliver 4 write5]

theorem oppositeOrders_reach :
    (runs {n | n ∈ [1, 2, 3, 4]}).Reach {} (oppositeOrders.foldl step {}) := by
  have hdeliver : ∀ {f : Fleet} {n : NodeId} {op : OpRecord}, n ∈ [1, 2, 3, 4] ∧
      (f.store n).CountersBelowMax ∧ op ∈ f.ops → f.Allowed {n | n ∈ [1, 2, 3, 4]} (.deliver n op) :=
    id
  have hchange : ∀ {f : Fleet} {n : NodeId} {content : Hash}, (n ∈ [1, 2, 3, 4] ∧
      (f.store n).CountersBelowMax ∧ (writeContent content).Ingested) →
      f.Allowed {n | n ∈ [1, 2, 3, 4]} (.change n (writeContent content)) :=
    fun h => ⟨h.1, h.2.1, h.2.2, by rintro ⟨⟩, History.not_isCopyName_f⟩
  refine Lts.Reach.init.of_foldl ⟨hchange ?_, hchange ?_, hdeliver ?_, hdeliver ?_, hdeliver ?_,
    hdeliver ?_, hdeliver ?_, trivial⟩
  all_goals decide +kernel

theorem oppositeOrders_opsOk : OpsOk (oppositeOrders.foldl step {}).ops :=
  ⟨by decide +kernel, by decide +kernel⟩

theorem oppositeOrders_ops : (oppositeOrders.foldl step {}).ops = [write9, write5] := by
  decide +kernel

theorem copyNames_ne : copyPathFor ['f'] 9 (Meta.namingHash write9.metadata) ≠
    copyPathFor ['f'] 5 (Meta.namingHash write5.metadata) := by
  decide +kernel

theorem oppositeOrders_digestsApart : DigestsApart (oppositeOrders.foldl step {}).ops := by
  rw [oppositeOrders_ops]
  have hmem : ∀ o ∈ [write9, write5], o = write9 ∨ o = write5 := by simp
  refine ⟨⟨by decide +kernel, by decide +kernel⟩, fun o ho o' ho' hash hh hh' => ?_,
    fun o ho o' ho' hash hash' hh hh' hname => ?_⟩
  · rcases hmem o ho with rfl | rfl <;> rcases hmem o' ho' with rfl | rfl <;> rfl
  · rcases hmem o ho with rfl | rfl <;> rcases hmem o' ho' with rfl | rfl
    · exact ⟨Option.some.inj (hh.symm.trans hh'), rfl⟩
    · obtain rfl : (9 : Hash) = hash := Option.some.inj hh
      obtain rfl : (5 : Hash) = hash' := Option.some.inj hh'
      exact absurd hname copyNames_ne
    · obtain rfl : (5 : Hash) = hash := Option.some.inj hh
      obtain rfl : (9 : Hash) = hash' := Option.some.inj hh'
      exact absurd hname.symm copyNames_ne
    · exact ⟨Option.some.inj (hh.symm.trans hh'), rfl⟩

theorem oppositeOrders_syntheticApart :
    (oppositeOrders.foldl step {}).SyntheticApart {n | n ∈ [1, 2, 3, 4]} := by
  refine syntheticApart_foldl ⟨?_, ?_, ?_, ?_, ?_, ?_, ?_⟩
  all_goals decide +kernel

/-- Nodes 3 and 4 end with the same row. -/
theorem op_plane_confluence_opposite_orders :
    let f := oppositeOrders.foldl step {}
    f.handledAt 3 ['f'] = [write9, write5] ∧ f.handledAt 4 ['f'] = [write5, write9, write5] ∧
      ∃ r, (f.store 3).files.get? ['f'] = some r ∧ (f.store 4).files.get? ['f'] = some r ∧
        r.contentHash = some 9 ∧ KeepsCopy (f.store 4) ['f'] write5 := by
  have hset : ∀ a b o : OpRecord, o ∈ [a, b] ↔ o ∈ [b, a, b] := by
    intro a b o
    simp only [List.mem_cons, List.not_mem_nil, or_false]
    tauto
  intro f
  have h3 : f.handledAt 3 ['f'] = [write9, write5] := by decide +kernel
  have h4 : f.handledAt 4 ['f'] = [write5, write9, write5] := by decide +kernel
  obtain ⟨hrow, hsame, -⟩ := op_plane_confluence {n | n ∈ [1, 2, 3, 4]} oppositeOrders_reach
    oppositeOrders_opsOk oppositeOrders_syntheticApart oppositeOrders_digestsApart
  refine ⟨h3, h4, ?_⟩
  rcases hrow 4 ['f'] History.not_isCopyName_f with ⟨hnil, -⟩ | ⟨r, hr, hout⟩
  · exact absurd (h4.symm.trans hnil) (List.cons_ne_nil _ _)
  · have hbest : IsBest [write5, write9, write5] write9 := ⟨by decide +kernel, by decide +kernel⟩
    rw [h4] at hout
    refine ⟨r, ?_, hr, (hout.file write9 hbest).2.1, ?_⟩
    · rw [hsame 3 4 ['f'] History.not_isCopyName_f fun o => ?_]
      · exact hr
      · rw [h3, h4]
        exact hset write9 write5 o
    · exact hout.copies write9 hbest write5 (by decide +kernel) (by decide +kernel)

end Example

end Fleet

end Replicore
