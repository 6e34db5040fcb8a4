import Replicore.Mesh.RowOf
import Replicore.Replica.Receive

/-!
# Replicas on the op plane

Any number of replicas that write and delete, outside the conflict-copy names, and are handed one
another's ops, in any order and any number of times; `Replica.receive` handles each to its end.
`handled n` lists the ops that node `n` has emitted or handled.

A fleet is a mesh whose steps are these (`Fleet.mesh`), so what holds of the vectors of a mesh holds
here (`Mesh.Tracked`).
-/

namespace Replicore

/-- The replicas, all ops emitted so far, and what each node has handled. -/
structure Fleet where
  replicas : NodeId → Replica := fun n => { nodeId := n }
  ops : List OpRecord := []
  handled : NodeId → List OpRecord := fun _ => []

/-- What happens at a node. -/
inductive FleetEvent
  | change (n : NodeId) (change : LocalChange)
  | deliver (n : NodeId) (op : OpRecord)

namespace Fleet

/-- The store of a node. -/
def store (f : Fleet) (n : NodeId) : Store := (f.replicas n).store

/-- The fleet as a mesh. -/
def mesh (f : Fleet) : Mesh := ⟨f.store, f.ops⟩

/-- The ops at a path that a node has handled. -/
def handledAt (f : Fleet) (n : NodeId) (p : Path) : List OpRecord :=
  (f.handled n).filter fun o => o.path = p

/-- Node `n` becomes `r`, having handled these ops more. -/
def update (f : Fleet) (n : NodeId) (r : Replica) (emitted handled : List OpRecord) : Fleet where
  replicas := Function.update f.replicas n r
  ops := f.ops ++ emitted
  handled := Function.update f.handled n (f.handled n ++ handled)

theorem mesh_update (f : Fleet) (n : NodeId) (r : Replica) (emitted handled : List OpRecord) :
    (f.update n r emitted handled).mesh =
      ⟨Function.update f.store n r.store, f.ops ++ emitted⟩ := by
  have hstore : (f.update n r emitted handled).store = Function.update f.store n r.store := by
    funext m
    by_cases hm : m = n
    · subst hm
      simp [store, update]
    · simp [store, update, hm]
  rw [mesh, hstore]
  rfl

/-- Rows do not disappear. -/
theorem isSome_update {f : Fleet} {n : NodeId} {r : Replica} {emitted handled : List OpRecord}
    (h : Store.RowsGrow (fun _ => True) (f.store n) r.store) {m : NodeId} {p : Path}
    (hsome : ((f.store m).files.get? p).isSome) :
    (((f.update n r emitted handled).store m).files.get? p).isSome := by
  by_cases hm : m = n
  · subst hm
    obtain ⟨x, hx⟩ := Option.isSome_iff_exists.1 hsome
    obtain ⟨y, hy, -⟩ := h p x hx
    simp [store, update, hy]
  · simpa [store, update, hm] using hsome

variable [Blake3]

/-- One event. -/
def step (f : Fleet) : FleetEvent → Fleet
  | .change n change =>
    match (f.replicas n).localChange change with
    | .ok (op, r) => f.update n r op.toList op.toList
    | .error _ => f
  | .deliver n op =>
    match (f.replicas n).receive op with
    | .ok (_, r) => f.update n r [] [op]
    | .error _ => f

/-- The events considered: at one of the nodes, with its counters below the maximum; a change is as
ingest builds it, at a path that is no conflict-copy name; an op comes from the fleet. -/
def Allowed (nodes : Set NodeId) (f : Fleet) : FleetEvent → Prop
  | .change n change => n ∈ nodes ∧ (f.store n).CountersBelowMax ∧ change.Ingested ∧
      (change.contentHash = none → change.size = 0) ∧ ¬ IsCopyName change.path
  | .deliver n op => n ∈ nodes ∧ (f.store n).CountersBelowMax ∧ op ∈ f.ops

/-- All runs. -/
def runs (nodes : Set NodeId) : Lts Fleet FleetEvent := Lts.ofFun (Allowed nodes) step

/-- The synthetic origin of a conflict copy is no node's id. -/
def SyntheticApart (nodes : Set NodeId) (f : Fleet) : Prop :=
  ∀ n p, IsCopyName p → ((f.store n).files.get? p).isSome → copyOrigin p ∉ nodes

theorem SyntheticApart.of_step {nodes : Set NodeId} {f : Fleet} {e : FleetEvent}
    (hall : f.Allowed nodes e) (h : (f.step e).SyntheticApart nodes) : f.SyntheticApart nodes := by
  refine fun m p hcp hsome => h m p hcp ?_
  cases e with
  | change n change =>
    unfold step
    dsimp only
    split
    · rename_i op r hrun
      refine isSome_update ?_ hsome
      obtain ⟨⟨op', st⟩, happend, hrun⟩ := Result.exists_of_bind_eq_ok hrun
      cases hrun
      exact Store.rowsGrow_appendLocal hall.2.1 happend
    · exact hsome
  | deliver n op =>
    unfold step
    dsimp only
    split
    · rename_i d r hrun
      exact isSome_update (Replica.rowsGrow_receive hrun) hsome
    · exact hsome

theorem ops_subset_step (f : Fleet) (e : FleetEvent) : f.ops ⊆ (f.step e).ops := by
  unfold step
  split
  · split
    · exact List.subset_append_left _ _
    · exact List.Subset.refl _
  · split
    · exact List.subset_append_left _ _
    · exact List.Subset.refl _

/-! ### Steps as commands -/

/-- A change is the `appendLocal` command. -/
theorem step_change {f : Fleet} {n : NodeId} (hid : (f.replicas n).nodeId = n)
    {change : LocalChange} (hing : change.Ingested) :
    ∃ r, r.nodeId = n ∧ f.step (.change n change) = f.update n r
        ((Command.appendLocal change).emitted n (f.store n)).toList
        ((Command.appendLocal change).emitted n (f.store n)).toList ∧
      r.store = (f.store n).exec n (.appendLocal change) := by
  cases h : (f.store n).appendLocal n change with
  | error e =>
    -- an ingested change is never refused
    exfalso
    obtain ⟨hren, -, hman⟩ := hing
    unfold Store.appendLocal at h
    rw [if_neg hren] at h
    split_ifs at h
    cases hm : change.manifest with
    | none => simp [hm] at h
    | some m => simp [hm, hman m hm] at h
  | ok x =>
    obtain ⟨op, st⟩ := x
    have hem : (Command.appendLocal change).emitted n (f.store n) = op := by
      simp [Command.emitted, h]
    have hlocal : ∃ r, r.nodeId = n ∧ r.store = st ∧
        (f.replicas n).localChange change = .ok (op, r) := by
      unfold Replica.localChange
      rw [hid, show (f.replicas n).store.appendLocal n change = _ from h]
      refine ⟨_, ?_, rfl, rfl⟩
      cases change.opType with
      | write => exact (Replica.writeFs_nodeId _ _ _).trans hid
      | delete => exact (Replica.setFs_nodeId _ _ _).trans hid
      | rename => exact (Replica.setFs_nodeId _ _ _).trans hid
    obtain ⟨r, hrid, hrst, hrun⟩ := hlocal
    refine ⟨r, hrid, ?_, ?_⟩
    · simp only [step, hrun, hem]
    · rw [hrst]
      simp [Store.exec, Store.commit, h]

/-- A delivery is the commands of the receive path. -/
theorem step_deliver {f : Fleet} {n : NodeId} (hid : (f.replicas n).nodeId = n) {op : OpRecord}
    (hop : op.Plain) (hplan : op.opId ∉ (f.store n).applied →
      Decision.decide ((f.store n).loadFile op.path) op.vv = .concurrent →
      ((f.store n).planFor op.path (opVersion op)).isSome) :
    ∃ r, r.nodeId = n ∧ f.step (.deliver n op) = f.update n r [] [op] ∧
      r.store = (Replica.receiveCommands (f.store n) op).foldl (Store.exec n) (f.store n) := by
  obtain ⟨d, r, hrun, hrid, hst⟩ :=
    (f.replicas n).receive_eq (.inr ⟨hop.not_rename, hop.pathOld⟩) hop.not_rename hplan
  refine ⟨r, hrid.trans hid, by simp only [step, hrun], ?_⟩
  rw [hst, hid]
  rfl

/-! ### Given runs -/

/-- The node where an event happens. -/
def node : FleetEvent → NodeId
  | .change n _ | .deliver n _ => n

theorem step_store_of_ne (f : Fleet) {e : FleetEvent} {m : NodeId} (hm : m ≠ node e) :
    (f.step e).store m = f.store m := by
  cases e with
  | change n change =>
    unfold step
    dsimp only
    split
    · simp [store, update, show m ≠ n from hm]
    · rfl
  | deliver n op =>
    unfold step
    dsimp only
    split
    · simp [store, update, show m ≠ n from hm]
    · rfl

/-- In a given run the paths to look at are those of the nodes of its events. -/
theorem syntheticApart_foldl {nodes : Set NodeId} {es : List FleetEvent}
    (hkeys : es.Forall fun e => ∀ p ∈ ((es.foldl step {}).store (node e)).files.keys,
      copyOrigin p ∉ nodes) : (es.foldl step {}).SyntheticApart nodes := by
  have hother : ∀ (es : List FleetEvent) (f : Fleet) (m : NodeId), (∀ e ∈ es, m ≠ node e) →
      (es.foldl step f).store m = f.store m := by
    intro es
    induction es with
    | nil => exact fun f m _ => rfl
    | cons e es ih =>
      intro f m hm
      rw [List.foldl_cons, ih _ m fun e he => hm e (List.mem_cons_of_mem _ he),
        f.step_store_of_ne (hm e List.mem_cons_self)]
  intro n p _ hsome
  by_cases hn : ∃ e ∈ es, n = node e
  · obtain ⟨e, he, rfl⟩ := hn
    exact List.forall_iff_forall_mem.1 hkeys e he p (OrdMap.mem_keys.2 hsome)
  · push Not at hn
    rw [hother es {} n hn] at hsome
    cases hsome

end Fleet

end Replicore
