import Replicore.Replica.Basic
import Replicore.Store.OpLog

/-!
# The op stream between two nodes

One direction of a link, as `net.rs` runs it: `sender` streams its own ops, `receiver` subscribes,
handles one op at a time and acknowledges it after the commit.  A session goes through the
anti-entropy gate (`gate`), adopts the sender's frontier (`handoff`) and is then live.  Everything
that is not durable is part of the session, so a disconnect or a crash of either side at any point
is the loss of the session.

* `Link` : the two stores and the session, with the history the statements speak about;
* `Event`, `Link.step` : what can happen, in any order;
* `Link.Ok` : what is assumed of the surroundings.
-/

namespace Replicore

/-- Ops fetched per poll of the push loop. -/
def pushBatch : ℕ := 64

/-- The volatile state of a live session. -/
structure Conn where
  /-- The cursor the receiver subscribed with. -/
  resume : ℤ
  /-- The push loop's cursor; also the frontier that acks are validated against. -/
  cursor : ℤ
  /-- The rest of the page being streamed. -/
  page : List OpRecord := []
  /-- Frames written and not yet read. -/
  inFlight : List OpRecord := []
  /-- The op being processed, and whether its commit was made. -/
  handling : Option (OpRecord × Bool) := none
  /-- Acknowledgements written and not yet read. -/
  acks : List ℤ := []

/-- The phases of a session. -/
inductive Session
  | down
  /-- Connected with the receiver's durable cursor; the snapshot's frontier once it is known. -/
  | gate (resumeFrom : ℤ) (frontier : Option ℤ)
  | live (c : Conn)

/-- Both ends of the stream. -/
structure Link where
  sender : Store := {}
  receiver : Store := {}
  session : Session := .down
  /-- History: the largest frontier adopted by a handoff. -/
  adopted : ℤ := 0
  /-- History: the numbers pushed on the current connection. -/
  pushed : List ℤ := []
  /-- History: the ops whose recording changed `files`. -/
  mutating : List Hash := []
  /-- History: the op and the path of every row that the handling of an op changed. -/
  effects : List (OpRecord × Path) := []

/-- What can happen on a link. -/
inductive Event
  /-- A command on the sender's store. -/
  | atSender (cmd : Command)
  /-- Any other command on the receiver's store. -/
  | atReceiver (cmd : Command)
  | dial
  | snapshot
  | handoff
  | poll
  | push
  | receive
  /-- The receiver commits a resolution at the op's path, or at the source of a rename. -/
  | resolve (atSource : Bool) (staged : List PlannedRow) (order : List Hash)
  /-- The receiver records the op. -/
  | commit (decision : Decision)
  | ack
  | absorbAck
  | disconnect

namespace Link

/-- The paths an op has effects at. -/
def pathsOf (op : OpRecord) : List Path := (op.path :: op.pathOld.toList).dedup

/-- Those of the paths whose row differs between the two stores, with the op. -/
def changedBy (op : OpRecord) (paths : List Path) (st st' : Store) : List (OpRecord × Path) :=
  (paths.filter fun p => st'.files.get? p ≠ st.files.get? p).map fun p => (op, p)

variable [Blake3]

/-- Record in the history that handling `op` led the receiver's store to `st`, with effects at
`paths`. -/
def handled (l : Link) (op : OpRecord) (paths : List Path) (st : Store) : Link :=
  { l with receiver := st, effects := l.effects ++ changedBy op paths l.receiver st }

/-- One event in a live session.  An event that is not enabled changes nothing. -/
def liveStep (p me : NodeId) (l : Link) (c : Conn) : Event → Link
  | .poll =>
    -- the next page is read only after the previous one was written out
    if c.page = [] then
      { l with session := .live { c with page := l.sender.opsSince p c.cursor pushBatch } }
    else l
  | .push =>
    match c.page with
    | [] => l
    | op :: page =>
      { l with
        session := .live { c with
          page, cursor := op.originSeq, inFlight := c.inFlight ++ [op] }
        pushed := l.pushed ++ [op.originSeq] }
  | .receive =>
    match c.handling, c.inFlight with
    | none, op :: inFlight =>
      -- an op of another origin is a protocol violation and ends the session
      if op.origin = p then
        { l with session := .live { c with inFlight, handling := some (op, false) } }
      else { l with session := .down }
    | _, _ => l
  | .resolve atSource staged order =>
    match c.handling with
    | some (op, _) =>
      match conflictOf op atSource with
      | some (path, remote) =>
        l.handled op [path] (l.receiver.exec me (.resolveRows path remote staged order))
      | none => l
    | none => l
  | .commit decision =>
    match c.handling with
    | some (op, false) =>
      match l.receiver.applyRemote op decision with
      | .ok (_, st) =>
        { l.handled op (pathsOf op) st with
          session := .live { c with handling := some (op, true) }
          mutating := if st.files = l.receiver.files then l.mutating
            else l.mutating ++ [op.opId] }
      | .error _ => { l with session := .down }
    | _ => l
  | .ack =>
    match c.handling with
    | some (op, committed) =>
      -- the fast path acknowledges a redelivered op without recording it again
      if committed || l.receiver.hasApplied op.opId then
        { l with session := .live { c with handling := none, acks := c.acks ++ [op.originSeq] } }
      else l
    | none => l
  | .absorbAck =>
    match c.acks with
    | [] => l
    | upToSeq :: acks =>
      if c.cursor < upToSeq then { l with session := .down }
      else
        { l with
          sender := l.sender.advanceAck me p upToSeq
          session := .live { c with acks } }
  | _ => l

/-- One event on the link from `p` to `me`. -/
def step (p me : NodeId) (l : Link) (e : Event) : Link :=
  match e, l.session with
  | .atSender cmd, _ => { l with sender := l.sender.exec p cmd }
  | .atReceiver cmd, _ => { l with receiver := l.receiver.exec me cmd }
  | .disconnect, _ => { l with session := .down }
  | .dial, .down => { l with session := .gate (l.receiver.recvCursor p) none }
  | .snapshot, .gate resumeFrom none =>
    { l with session := .gate resumeFrom (some (l.sender.latestOriginSeq p)) }
  | .handoff, .gate resumeFrom (some frontier) =>
    let newCursor := max frontier resumeFrom
    { l with
      receiver := if resumeFrom < newCursor then l.receiver.advanceRecvCursor p p newCursor
        else l.receiver
      session := .live { resume := newCursor, cursor := newCursor }
      adopted := if resumeFrom < newCursor then max l.adopted newCursor else l.adopted
      pushed := [] }
  | e, .live c => l.liveStep p me c e
  | _, _ => l

/-- What is assumed: the sender's own sequence stays gap-free, and no other command at the receiver
brings an op of the sender. -/
def Ok (p : NodeId) (l : Link) : Event → Prop
  | .atSender cmd => ∃ n, ((l.sender.exec p cmd).ownOps p).map (·.originSeq) = Consecutive.after 0 n
  | .atReceiver cmd => ∀ op, cmd.received = some op → op.origin ≠ p
  | _ => True

/-- The runs of the link from `p` to `me`. -/
def stream (p me : NodeId) : Lts Link Event := Lts.ofFun (Ok p) (step p me)

end Link

end Replicore
