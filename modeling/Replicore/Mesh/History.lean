import Replicore.Lib.Causal
import Replicore.Mesh.Basic
import Replicore.Replica.Basic
import Replicore.Store.Resolve

/-!
# What a row has taken in

A mesh in which nodes write, delete and rename, are handed one another's ops, resolve what is
concurrent, and take over one another's rows.  Beside the stores, a `History` records where
information went: `inc n p` lists the ops whose effect at `p` the row of node `n` has taken in, and
`past o p` what the author of `o` had taken in at `p` when it emitted `o`.  The record follows the
data and never looks at a vector: a row that changes takes in what it was changed by.

Vectors are to tell what these lists tell: `History.StandsFor` says that a vector, read at a path,
stands for a set of ops there.
-/

namespace Replicore

/-- A mesh, and what every row and every op has taken in. -/
structure History where
  mesh : Mesh := {}
  /-- The ops that the row of a node at a path has taken in. -/
  inc : NodeId → Path → List OpRecord := fun _ _ => []
  /-- The ops that the author of an op had taken in at a path when it emitted the op. -/
  past : OpRecord → Path → List OpRecord := fun _ _ => []

/-- What a node does next. -/
inductive Act
  /-- A local write or delete. -/
  | append (n : NodeId) (change : LocalChange)
  /-- A local rename. -/
  | rename (n : NodeId) (old new : Path)
  /-- An op of the mesh is recorded, under a decision taken at any time. -/
  | record (n : NodeId) (op : OpRecord) (d : Decision)
  /-- A resolution for an op of the mesh, at its path or its source, is to be committed. -/
  | resolve (n : NodeId) (op : OpRecord) (atSource : Bool) (staged : List PlannedRow)
    (order : List Hash)
  /-- Anti-entropy: the current row of node `m` is taken over. -/
  | adopt (n m : NodeId) (p : Path)
  /-- Anti-entropy: a resolution against the current row of node `m` is to be committed. -/
  | settle (n m : NodeId) (p : Path) (staged : List PlannedRow) (order : List Hash)

namespace Act

/-- The node that acts. -/
def node : Act → NodeId
  | append n _ | rename n _ _ | record n _ _ | resolve n _ _ _ _ | adopt n _ _
  | settle n _ _ _ _ => n

/-- The command it runs on its store. -/
def command [Blake3] (h : History) : Act → Option Command
  | append _ change => some (.appendLocal change)
  | rename _ old new => some (.appendLocalRename old new)
  | record _ op d => some (.applyRemote op d)
  | resolve _ op atSource staged order =>
    (conflictOf op atSource).map fun c => .resolveRows c.1 c.2 staged order
  | adopt _ m p => ((h.mesh.stores m).loadRow p).map .reconcileUpsert
  | settle _ m p staged order =>
    ((h.mesh.stores m).loadRow p).map fun r =>
      .resolveRows p (Version.fromRow r.toRow) staged order

end Act

namespace History

/-- An op and what its author had taken in at `p`. -/
def withPast (h : History) (p : Path) (op : OpRecord) : List OpRecord := op :: h.past op p

/-- The ops in the log of `n` that affect `p`, with what their authors had taken in there. -/
def logAt (h : History) (n : NodeId) (p : Path) : List OpRecord :=
  ((h.mesh.stores n).oplog.filter fun o => o.Affects p).flatMap (h.withPast p)

end History

/-- What a row at `p` takes in if the act changes it.  A resolution takes in the op log of the path
and the remote side; the rows it leaves at copy names take in nothing. -/
def Act.brings [Blake3] (h : History) : Act → Path → List OpRecord
  | append _ _, _ | rename _ _ _, _ => []
  | record _ op _, p => if op.Affects p then h.withPast p op else []
  | resolve n op atSource _ _, p =>
    if (conflictOf op atSource).map Prod.fst = some p then h.logAt n p ++ h.withPast p op else []
  | adopt _ m q, p => if p = q then h.inc m p else []
  | settle n m q _ _, p => if p = q then h.logAt n p ++ h.inc m p else []

namespace History

variable [Blake3]

/-- Node `n` runs a command that brings the ops `src`. -/
def exec (h : History) (n : NodeId) (cmd : Command) (src : Path → List OpRecord) : History where
  mesh := h.mesh.exec n cmd
  inc := Function.update h.inc n fun p =>
    if ((h.mesh.stores n).exec n cmd).files.get? p = (h.mesh.stores n).files.get? p then h.inc n p
    else h.inc n p ++ ((cmd.emitted n (h.mesh.stores n)).toList ++ src p)
  past := match cmd.emitted n (h.mesh.stores n) with
    | none => h.past
    | some op => Function.update h.past op (h.inc n)

/-- One act. -/
def step (h : History) (act : Act) : History :=
  match act.command h with
  | none => h
  | some cmd => h.exec act.node cmd (act.brings h)

/-- Changes are as ingest builds them, and ops come from the mesh. -/
def Genuine (h : History) : Act → Prop
  | .append _ change => change.Ingested
  | .record _ op _ | .resolve _ op _ _ _ => op ∈ h.mesh.ops
  | _ => True

instance (h : History) : DecidablePred h.Genuine
  | .append _ change => inferInstanceAs (Decidable change.Ingested)
  | .record _ op _ | .resolve _ op _ _ _ => inferInstanceAs (Decidable (op ∈ h.mesh.ops))
  | .rename _ _ _ | .adopt _ _ _ | .settle _ _ _ _ _ => .isTrue trivial

/-- The acts considered: genuine ones, by one of the nodes, with its counters below the maximum. -/
def Allowed (nodes : Set NodeId) (h : History) (act : Act) : Prop :=
  act.node ∈ nodes ∧ (h.mesh.stores act.node).CountersBelowMax ∧ h.Genuine act

instance (ns : List NodeId) : DecidableRel (Allowed {n | n ∈ ns}) := fun h act =>
  inferInstanceAs (Decidable (act.node ∈ ns ∧ (h.mesh.stores act.node).CountersBelowMax ∧
    h.Genuine act))

/-- All runs. -/
def runs (nodes : Set NodeId) : Lts History Act := Lts.ofFun (Allowed nodes) step

/-- The synthetic origin of a conflict copy is no node's id. -/
def SyntheticApart (nodes : Set NodeId) (h : History) : Prop :=
  ∀ n p, IsCopyName p → ((h.mesh.stores n).files.get? p).isSome → copyOrigin p ∉ nodes

/-! ### One command -/

variable (h : History) {n m : NodeId} {cmd : Command} {src : Path → List OpRecord} {op : OpRecord}

@[simp] theorem exec_store_self :
    (h.exec n cmd src).mesh.stores n = (h.mesh.stores n).exec n cmd :=
  Mesh.exec_store_self h.mesh n cmd

theorem exec_store_of_ne (hm : m ≠ n) : (h.exec n cmd src).mesh.stores m = h.mesh.stores m :=
  Mesh.exec_store_of_ne h.mesh cmd hm

theorem exec_inc_of_ne (hm : m ≠ n) : (h.exec n cmd src).inc m = h.inc m := by
  simp [exec, hm]

theorem exec_past_of_some (hem : cmd.emitted n (h.mesh.stores n) = some op) :
    (h.exec n cmd src).past = Function.update h.past op (h.inc n) := by
  simp [exec, hem]

theorem mem_exec_ops_of_some (hem : cmd.emitted n (h.mesh.stores n) = some op) (o : OpRecord) :
    o ∈ (h.exec n cmd src).mesh.ops ↔ o ∈ h.mesh.ops ∨ o = op := by
  rw [show (h.exec n cmd src).mesh.ops = h.mesh.ops ++ [op] from Mesh.exec_ops_of_some hem,
    List.mem_append, List.mem_singleton]

/-! ### Given runs -/

theorem step_store_of_ne {act : Act} (hm : m ≠ act.node) :
    (h.step act).mesh.stores m = h.mesh.stores m := by
  unfold step
  split
  · rfl
  · exact Mesh.exec_store_of_ne h.mesh _ hm

/-- Who does not act keeps its store. -/
theorem foldl_store_of_ne (acts : List Act) (h : History) {m : NodeId}
    (hm : ∀ act ∈ acts, m ≠ act.node) : (acts.foldl step h).mesh.stores m = h.mesh.stores m := by
  induction acts generalizing h with
  | nil => rfl
  | cons act acts ih =>
    rw [List.foldl_cons, ih _ fun a ha => hm a (List.mem_cons_of_mem _ ha),
      step_store_of_ne h (hm act List.mem_cons_self)]

/-- In a given run the paths to look at are those of the nodes that act. -/
theorem syntheticApart_foldl {nodes : Set NodeId} {acts : List Act}
    (hkeys : ∀ act ∈ acts, ∀ p ∈ ((acts.foldl step {}).mesh.stores act.node).files.keys,
      copyOrigin p ∉ nodes) : (acts.foldl step {}).SyntheticApart nodes := by
  intro n p _ hsome
  by_cases hn : ∃ act ∈ acts, n = act.node
  · obtain ⟨act, hact, rfl⟩ := hn
    exact hkeys act hact p (OrdMap.mem_keys.2 hsome)
  · push Not at hn
    rw [foldl_store_of_ne acts {} hn] at hsome
    cases hsome

/-! ### Vectors and ops -/

/-- Ops as events. -/
def clock : Clock OpRecord NodeId where
  author := OpRecord.origin
  vec o := o.vv.get

/-- The ops at a path. -/
def opsAt (h : History) (p : Path) : Set OpRecord := {o | o ∈ h.mesh.ops ∧ o.Affects p}

/-- A node's own counter at a path, as it stands at the node itself. -/
def top (h : History) (p : Path) (a : NodeId) : ℕ := ((h.mesh.stores a).vvAt p).get a

/-- At `p`, the vector stands for the set of ops. -/
def StandsFor (nodes : Set NodeId) (h : History) (p : Path) (vv : VersionVector)
    (I : Set OpRecord) : Prop :=
  clock.Closed (h.opsAt p) nodes (h.top p) vv.get I

/-- The counters `k` of an op by `n`, read at the path `p`, count no op of another node that the row
of `n` there has not taken in: none that exists, and none that the other node has yet to make. -/
def CountsOnlyTaken (nodes : Set NodeId) (h : History) (n : NodeId) (k : NodeId → ℕ)
    (p : Path) : Prop :=
  ∀ a ∈ nodes, a ≠ n → k a ≤ h.top p a ∧
    ∀ x ∈ h.opsAt p, x.origin = a → x.vv.get a ≤ k a →
      x.vv.get a ≤ ((h.mesh.stores n).vvAt p).get a

/-- A rename that moves something puts the counters of both rows into one vector: read at either
path, they must count only what was taken in there. -/
def RenameOk (nodes : Set NodeId) (h : History) : Act → Prop
  | .rename n old new =>
    old ≠ new → (∃ r, (h.mesh.stores n).files.get? old = some r ∧ r.tombstone = false) →
      ∀ p, p = old ∨ p = new → h.CountsOnlyTaken nodes n
        (fun a => max (((h.mesh.stores n).vvAt old).get a) (((h.mesh.stores n).vvAt new).get a)) p
  | _ => True

end History

end Replicore
