import Replicore.Lib.Hoare
import Replicore.Merkle.Pull

/-!
# The pull over a transport

`reconcile_pull` of `merkle.rs` is generic in the transport that its requests go over.  Here it is
a program with the state of the other side (`pullFrom`).  Over the transport that answers from a
tree (`honest`) it ends as the pull from that tree does (`outcome_pullFrom_honest`), and the state
keeps what was asked.
-/

namespace Replicore

open Hoare MerkleTree

/-- Session transport: what the puller asks of the other side, which has a state of its own.  What
is done about a leaf is behind it as well, since that asks for the leaf and its content. -/
structure ReconcileTransport (σ : Type) where
  root : EStateM ReconcileError σ Hash
  children : Path → EStateM ReconcileError σ (List (Path × Hash × Bool))
  handleLeaf : Path → Puller → EStateM ReconcileError σ Puller

section

variable {σ : Type} (remote : ReconcileTransport σ) (loc : MerkleTree)

/-- Identical hash, identical subtree or leaf. -/
def isPruned (dir : Path) (child : Path × Hash × Bool) : Prop :=
  ((childrenOf loc.dirs dir).get? child.1).map Prod.fst = some child.2.1

instance decidableIsPruned (dir : Path) (child : Path × Hash × Bool) :
    Decidable (isPruned loc dir child) :=
  inferInstanceAs (Decidable (_ = _))

/-- One child of a directory: pruned, queued or handled. -/
def visitChildFrom (dir : Path) (acc : List Path × Puller) (child : Path × Hash × Bool) :
    EStateM ReconcileError σ (List Path × Puller) :=
  if isPruned loc dir child then pure acc
  else if child.2.2 then pure (joinPrefix dir child.1 :: acc.1, acc.2)
  else do
    let s ← remote.handleLeaf (joinPrefix dir child.1) acc.2
    pure (acc.1, s)

/-- One round of the descent. -/
def visitDir (dir : Path) (queue : List Path) (s : Puller) :
    EStateM ReconcileError σ (List Path × Puller) := do
  let children ← remote.children dir
  children.foldlM (visitChildFrom remote loc dir)
    (queue, { s with report.treeReqs := s.report.treeReqs + 1 })

/-- The descent.  The queue is a stack, its top first; `none` when the fuel runs out. -/
def descend : ℕ → List Path → Puller → σ → Option (EStateM.Result ReconcileError σ Puller)
  | _, [], s, t => some (.ok s t)
  | 0, _ :: _, _, _ => none
  | k + 1, dir :: queue, s, t =>
    match visitDir remote loc dir queue s t with
    | .error e t' => some (.error e t')
    | .ok (queue', s') t' => descend k queue' s' t'

/-- The pull driver. -/
def pullFrom (fuel : ℕ) (st : Store) (t : σ) :
    Option (EStateM.Result ReconcileError σ Puller) :=
  match remote.root t with
  | .error e t' => some (.error e t')
  | .ok hash t' =>
    if hash = loc.root then some (.ok { store := st } t')
    else descend remote loc fuel [[]] { store := st } t'

end

/-! ### The honest responder -/

/-- What was asked, the last first. -/
structure Asked where
  listings : List Path := []
  leaves : List Path := []
  deriving DecidableEq

variable [Blake3]

/-- The responder that answers from its tree. -/
def honest (tree : MerkleTree) : ReconcileTransport Asked where
  root := pure tree.root
  children dir := do
    modify fun asked => { asked with listings := dir :: asked.listings }
    pure (childrenOf tree.dirs dir).entries
  handleLeaf path s := do
    modify fun asked => { asked with leaves := path :: asked.leaves }
    MonadExcept.ofExcept (handleLeaf tree path s)

variable {loc tree : MerkleTree}

theorem endsAs_handleLeaf (path : Path) (s : Puller) :
    EndsAs ((honest tree).handleLeaf path s) (handleLeaf tree path s) := by
  intro t
  have hleaf : EndsAs (MonadExcept.ofExcept (handleLeaf tree path s) :
      EStateM ReconcileError Asked Puller) (handleLeaf tree path s) := EndsAs.ofExcept
  exact hleaf { t with leaves := path :: t.leaves }

/-- A leaf is noted, whatever comes of it. -/
theorem triple_handleLeaf (path : Path) (s : Puller) (P : Asked → Prop) :
    Triple (fun t => P { t with leaves := path :: t.leaves }) ((honest tree).handleLeaf path s)
      (fun s' t => handleLeaf tree path s = .ok s' ∧ P t) fun _ => P := by
  intro t ht
  have hleaf : Triple P (MonadExcept.ofExcept (handleLeaf tree path s) :
      EStateM ReconcileError Asked Puller) (fun s' t => handleLeaf tree path s = .ok s' ∧ P t)
      fun _ => P := Triple.ofExcept
  exact hleaf { t with leaves := path :: t.leaves } ht

theorem endsAs_visitChildFrom (dir : Path) (acc : List Path × Puller)
    (child : Path × Hash × Bool) :
    EndsAs (visitChildFrom (honest tree) loc dir acc child) (visitChild loc tree dir acc child) := by
  unfold visitChildFrom visitChild
  by_cases hpruned : ((childrenOf loc.dirs dir).get? child.1).map Prod.fst = some child.2.1
  · rw [if_pos (show isPruned loc dir child from hpruned), if_pos hpruned]
    exact EndsAs.pure
  · rw [if_neg (show ¬ isPruned loc dir child from hpruned), if_neg hpruned]
    split_ifs
    · exact EndsAs.pure
    · exact EndsAs.bind (endsAs_handleLeaf _ _) fun s => EndsAs.pure

theorem endsAs_visitDir (dir : Path) (queue : List Path) (s : Puller) :
    EndsAs (visitDir (honest tree) loc dir queue s)
      ((childrenOf tree.dirs dir).entries.foldlM (visitChild loc tree dir)
        (queue, { s with report.treeReqs := s.report.treeReqs + 1 })) :=
  fun t => EndsAs.foldlM (endsAs_visitChildFrom dir) _ _ { t with listings := dir :: t.listings }

theorem outcome_descend (k : ℕ) (queue : List Path) (s : Puller) (t : Asked) :
    (descend (honest tree) loc k queue s t).map outcome = pullLoop loc tree k queue s := by
  induction k generalizing queue s t with
  | zero =>
    cases queue with
    | nil => rfl
    | cons dir queue => rfl
  | succ k ih =>
    cases queue with
    | nil => rfl
    | cons dir queue =>
      have hround : outcome (visitDir (honest tree) loc dir queue s t) = _ :=
        endsAs_visitDir dir queue s t
      unfold descend pullLoop
      rw [← hround]
      cases hrun : visitDir (honest tree) loc dir queue s t with
      | error e t' => rfl
      | ok acc t' => exact ih acc.1 acc.2 t'

/-- The pull from a tree. -/
theorem outcome_pullFrom_honest (fuel : ℕ) (st : Store) (t : Asked) :
    (pullFrom (honest tree) loc fuel st t).map outcome = reconcilePull fuel loc tree st := by
  unfold reconcilePull
  change (if tree.root = loc.root then _ else _ : Option _).map outcome = _
  split_ifs
  · rfl
  · exact outcome_descend fuel [[]] _ t

end Replicore
