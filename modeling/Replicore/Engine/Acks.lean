import Replicore.Lib.Lts
import Replicore.Store.Cursors
import Replicore.Stream.Basic

/-!
# Acknowledgements of a subscriber

The pushing side of any number of inbound connections (`inbound_io`, `push_ops`, `absorb_acks` of
`net.rs`), against subscribers that may send any control frame at any time.  The shared frontier of
a connection starts at the resume point that the subscriber names, follows the push loop, and bounds
the acks that are accepted.

An ack is persisted as `last_acked_seq`.  It stays at or below the last own op as long as no
subscription names a resume point beyond it (`lastAckedSeq_le`); a subscriber that does name one can
ack it at once (`acks_ops_that_do_not_exist`).
-/

namespace Replicore

/-- Control frames a subscriber can send. -/
inductive ControlFrame
  | subscribeOps (resume : List (NodeId × ℤ))
  | oplogAck (origin : NodeId) (upToSeq : ℤ)
  | ping (nonce : U64)
  /-- Any frame that is out of place here. -/
  | other

/-- A subscription: what `push_ops` and `absorb_acks` keep between their atomic steps. -/
structure Subscription where
  /-- The push loop's cursor. -/
  cursor : ℤ
  /-- The shared frontier. -/
  sentFrontier : ℤ
  /-- The rest of the batch being streamed. -/
  page : List OpRecord := []
  /-- A frame was written and not yet published on the frontier. -/
  written : Bool := false
  /-- An ack that passed the check and is not yet persisted. -/
  acking : Option ℤ := none

/-- An inbound connection after the handshake. -/
inductive Inbound
  | gate
  | live (s : Subscription)

/-- The engine: the store, and the inbound connections with the peer behind each. -/
structure Pusher where
  store : Store := {}
  conns : OrdMap ℕ (NodeId × Inbound) := .empty

namespace Pusher

/-- What can happen. -/
inductive Event
  /-- A command on the store. -/
  | command (cmd : Command)
  /-- A peer connects. -/
  | accept (c : ℕ) (peer : NodeId)
  /-- The subscriber's next control frame is read. -/
  | frame (c : ℕ) (frame : ControlFrame)
  /-- The push loop reads the next batch, writes a frame, publishes it. -/
  | poll (c : ℕ)
  | write (c : ℕ)
  | publish (c : ℕ)
  /-- The ack that passed the check is persisted. -/
  | persist (c : ℕ)
  | disconnect (c : ℕ)

/-- The resume point for our own ops; 0 when the frontier does not name us. -/
def resumeFrom (me : NodeId) (resume : List (NodeId × ℤ)) : ℤ :=
  ((resume.find? fun r => r.1 = me).map Prod.snd).getD 0

/-- One control frame on a connection: the connection after it, `none` if it is closed. -/
def onFrame (me : NodeId) : Inbound → ControlFrame → Option Inbound
  | .gate, .subscribeOps resume =>
    let resume := resumeFrom me resume
    some (.live { cursor := resume, sentFrontier := resume })
  | .gate, .ping _ => some .gate
  | .gate, _ => none
  | .live s, .oplogAck origin upToSeq =>
    if origin ≠ me then none
    else if s.sentFrontier < upToSeq then none
    else some (.live { s with acking := some upToSeq })
  | .live s, .ping _ => some (.live s)
  | .live _, _ => none

/-- The control stream of a connection is read: not while an ack is being persisted. -/
def reads : Inbound → Bool
  | .gate => true
  | .live s => s.acking.isNone

/-- Replace or drop a connection. -/
def setConn (e : Pusher) (c : ℕ) (peer : NodeId) : Option Inbound → Pusher
  | some i => { e with conns := e.conns.insert c (peer, i) }
  | none => { e with conns := e.conns.erase c }

section Steps

variable [Blake3]

/-- One event.  What is not enabled changes nothing. -/
def step (me : NodeId) (e : Pusher) : Event → Pusher
  | .command cmd => { e with store := e.store.exec me cmd }
  | .accept c peer =>
    match e.conns.get? c with
    | none => e.setConn c peer (some .gate)
    | some _ => e
  | .frame c frame =>
    match e.conns.get? c with
    | some (peer, i) => if reads i then e.setConn c peer (onFrame me i frame) else e
    | none => e
  | .poll c =>
    match e.conns.get? c with
    | some (peer, .live s) =>
      if s.page = [] ∧ s.written = false then
        e.setConn c peer (some (.live { s with page := e.store.opsSince me s.cursor pushBatch }))
      else e
    | _ => e
  | .write c =>
    match e.conns.get? c with
    | some (peer, .live s) =>
      match s.page, s.written with
      | op :: page, false =>
        e.setConn c peer (some (.live { s with page, cursor := op.originSeq, written := true }))
      | _, _ => e
    | _ => e
  | .publish c =>
    match e.conns.get? c with
    | some (peer, .live s) =>
      if s.written then
        e.setConn c peer (some (.live { s with sentFrontier := s.cursor, written := false }))
      else e
    | _ => e
  | .persist c =>
    match e.conns.get? c with
    | some (peer, .live s) =>
      match s.acking with
      | some n =>
        { e with store := e.store.advanceAck peer me n }.setConn c peer
          (some (.live { s with acking := none }))
      | none => e
    | _ => e
  | .disconnect c => { e with conns := e.conns.erase c }

/-- Commands are admitted as on the wire; subscribers are free. -/
def Ok (me : NodeId) (_ : Pusher) : Event → Prop
  | .command cmd => cmd.Admitted me
  | _ => True

/-- The runs of node `me`. -/
def system (me : NodeId) : Lts Pusher Event := .ofFun (Ok me) (step me)

end Steps

/-- The resume point of a subscription is not beyond the last own op. -/
def ResumesInLog (me : NodeId) (e : Pusher) : Event → Prop
  | .frame _ (.subscribeOps resume) => resumeFrom me resume ≤ e.store.latestOriginSeq me
  | _ => True

/-- Nothing a subscription holds is beyond `m`. -/
structure Within (m : ℤ) (s : Subscription) : Prop where
  cursor : s.cursor ≤ m
  sentFrontier : s.sentFrontier ≤ m
  page : ∀ o ∈ s.page, o.originSeq ≤ m
  acking : ∀ n ∈ s.acking, n ≤ m

/-- The invariant: no ack, and nothing that can become one, is beyond the last own op. -/
structure Bounded (me : NodeId) (e : Pusher) : Prop where
  acked : ∀ peer, e.store.lastAckedSeq peer me ≤ e.store.latestOriginSeq me
  conns : ∀ c peer s, e.conns.get? c = some (peer, .live s) →
    Within (e.store.latestOriginSeq me) s

variable {me : NodeId} {e : Pusher}

theorem Within.mono {m m' : ℤ} {s : Subscription} (h : Within m s) (hle : m ≤ m') :
    Within m' s :=
  ⟨h.cursor.trans hle, h.sentFrontier.trans hle, fun o ho => (h.page o ho).trans hle,
    fun n hn => (h.acking n hn).trans hle⟩

theorem Bounded.setConn (h : Bounded me e) {c : ℕ} {peer : NodeId} {i : Option Inbound}
    (hi : ∀ s, i = some (.live s) → Within (e.store.latestOriginSeq me) s) :
    Bounded me (e.setConn c peer i) := by
  cases i with
  | none =>
    refine ⟨h.acked, fun c' peer' s hget => ?_⟩
    rw [Pusher.setConn, OrdMap.get?_erase] at hget
    split_ifs at hget
    exact h.conns c' peer' s hget
  | some i =>
    refine ⟨h.acked, fun c' peer' s hget => ?_⟩
    rw [Pusher.setConn, OrdMap.get?_insert] at hget
    split_ifs at hget
    · cases hget
      exact hi s rfl
    · exact h.conns c' peer' s hget

/-- A frame leaves a subscription within bounds, if a resume point is. -/
theorem within_onFrame {m : ℤ} {i : Inbound} {frame : ControlFrame} {s : Subscription}
    (hi : ∀ s, i = .live s → Within m s)
    (hresume : ∀ resume, frame = .subscribeOps resume → resumeFrom me resume ≤ m)
    (h : onFrame me i frame = some (.live s)) : Within m s := by
  cases i with
  | gate =>
    cases frame with
    | subscribeOps resume =>
      cases h
      have hle := hresume resume rfl
      exact ⟨hle, hle, fun o ho => (by cases ho), fun n hn => (by cases hn)⟩
    | oplogAck origin upToSeq => cases h
    | ping nonce => cases h
    | other => cases h
  | live s₀ =>
    have hs := hi s₀ rfl
    cases frame with
    | subscribeOps resume => cases h
    | oplogAck origin upToSeq =>
      simp only [onFrame] at h
      split_ifs at h with horigin hbeyond
      cases h
      refine ⟨hs.cursor, hs.sentFrontier, hs.page, fun n hn => ?_⟩
      obtain rfl : upToSeq = n := by simpa using hn
      exact (not_lt.1 hbeyond).trans hs.sentFrontier
    | ping nonce => cases h; exact hs
    | other => cases h

section Runs

variable [Blake3]

theorem Bounded.step (h : Bounded me e) {ev : Event} (hok : Ok me e ev)
    (hresume : ResumesInLog me e ev) : Bounded me (e.step me ev) := by
  cases ev with
  | command cmd =>
    have hle : e.store.latestOriginSeq me ≤ (e.store.exec me cmd).latestOriginSeq me :=
      Store.latestOriginSeq_le_exec hok
    refine ⟨fun peer => ?_, fun c peer s hget => (h.conns c peer s hget).mono hle⟩
    exact (Store.lastAckedSeq_exec me e.store cmd peer).le.trans ((h.acked peer).trans hle)
  | accept c peer =>
    simp only [Pusher.step]
    split
    · exact h.setConn fun s hs => by cases hs
    · exact h
  | frame c frame =>
    simp only [Pusher.step]
    split
    · rename_i peer i hget
      split_ifs
      · refine h.setConn fun s hs => within_onFrame ?_ ?_ hs
        · rintro s rfl
          exact h.conns c peer s hget
        · rintro resume rfl
          exact hresume
      · exact h
    · exact h
  | poll c =>
    simp only [Pusher.step]
    split
    · rename_i peer s hget
      have hs := h.conns c peer s hget
      split_ifs
      · refine h.setConn fun s' hs' => ?_
        cases hs'
        refine ⟨hs.cursor, hs.sentFrontier, fun o ho => ?_, hs.acking⟩
        obtain ⟨hmem, horigin⟩ := Store.mem_opsSince ho
        exact Store.le_latestOriginSeq hmem horigin
      · exact h
    · exact h
  | write c =>
    simp only [Pusher.step]
    split
    · rename_i peer s hget
      have hs := h.conns c peer s hget
      split
      · rename_i op page hpage hwritten
        have hbatch := hs.page
        rw [hpage] at hbatch
        refine h.setConn fun s' hs' => ?_
        cases hs'
        exact ⟨hbatch op List.mem_cons_self, hs.sentFrontier,
          fun o ho => hbatch o (List.mem_cons_of_mem _ ho), hs.acking⟩
      · exact h
    · exact h
  | publish c =>
    simp only [Pusher.step]
    split
    · rename_i peer s hget
      have hs := h.conns c peer s hget
      split_ifs
      · refine h.setConn fun s' hs' => ?_
        cases hs'
        exact ⟨hs.cursor, hs.cursor, hs.page, hs.acking⟩
      · exact h
    · exact h
  | persist c =>
    simp only [Pusher.step]
    split
    · rename_i peer s hget
      have hs := h.conns c peer s hget
      split
      · rename_i n hn
        have hack : Bounded me { e with store := e.store.advanceAck peer me n } := by
          refine ⟨fun q => ?_, h.conns⟩
          rw [Store.lastAckedSeq_advanceAck]
          change _ ≤ e.store.latestOriginSeq me
          split_ifs
          · exact max_le (h.acked q) (hs.acking n hn)
          · exact h.acked q
        refine hack.setConn fun s' hs' => ?_
        cases hs'
        exact ⟨hs.cursor, hs.sentFrontier, hs.page, fun n hn => (by cases hn)⟩
      · exact h
    · exact h
  | disconnect c =>
    refine ⟨h.acked, fun c' peer' s hget => ?_⟩
    rw [Pusher.step, OrdMap.get?_erase] at hget
    split_ifs at hget
    exact h.conns c' peer' s hget

/-- A subscriber that resumes beyond the last own op can ack what it names. -/
theorem acks_resume_point {c : ℕ} {peer : NodeId} {resume : List (NodeId × ℤ)}
    (hget : e.conns.get? c = some (peer, .gate)) :
    resumeFrom me resume ≤ ([Event.frame c (.subscribeOps resume),
      .frame c (.oplogAck me (resumeFrom me resume)), .persist c].foldl (step me) e).store.lastAckedSeq
        peer me := by
  simp only [List.foldl_cons, List.foldl_nil, Pusher.step, hget, reads, onFrame, Pusher.setConn,
    OrdMap.get?_insert_self, ↓reduceIte, ne_eq, not_true_eq_false, lt_self_iff_false,
    Option.isNone_none]
  rw [Store.lastAckedSeq_advanceAck, if_pos ⟨rfl, rfl⟩]
  exact le_max_right _ _

/-- **An ack never exceeds the last own op, as long as no subscription resumes beyond it.**  The
condition is on the subscription alone: whoever resumes beyond the log can ack beyond it with the
next frame. -/
theorem lastAckedSeq_le (me : NodeId) :
    (∀ e, ((system me).restrict (ResumesInLog me)).Reach {} e →
      ∀ peer, e.store.lastAckedSeq peer me ≤ e.store.latestOriginSeq me) ∧
    ∀ e c peer, (system me).Reach {} e → e.conns.get? c = some (peer, .gate) →
      ∀ resume, ¬ ResumesInLog me e (.frame c (.subscribeOps resume)) →
        ∃ e', (system me).Reach e e' ∧ e'.store.latestOriginSeq me < e'.store.lastAckedSeq peer me := by
  constructor
  · intro e hreach
    have hb : Bounded me e := by
      refine hreach.invariant ?_ fun s ev s' _ hs hstep => ?_
      · exact ⟨fun peer => le_rfl, fun c peer s hget => (by cases hget)⟩
      · obtain ⟨hresume, hok, rfl⟩ := hstep
        exact hs.step hok hresume
    exact hb.acked
  · intro e c peer _ hget resume hbeyond
    refine ⟨[Event.frame c (.subscribeOps resume), .frame c (.oplogAck me (resumeFrom me resume)),
      .persist c].foldl (step me) e, .of_foldl .init ⟨trivial, trivial, trivial, trivial⟩,
      lt_of_lt_of_le ?_ (acks_resume_point hget)⟩
    refine lt_of_le_of_lt (le_of_eq ?_) (not_le.1 hbeyond)
    refine Store.latestOriginSeq_congr ?_ me
    simp [Pusher.step, hget, reads, onFrame, Pusher.setConn]

end Runs

section Example

attribute [local instance] Blake3.polynomial

/-- Node 2 subscribes to the ops of node 1 from a resume point, and acks a number. -/
def subscribeAndAck (resume ack : ℤ) : List Event :=
  [.accept 0 2, .frame 0 (.subscribeOps [(1, resume)]), .frame 0 (.oplogAck 1 ack), .persist 0]

/-- **A subscriber acks ops that do not exist**: node 1 has no op of its own, and node 2 names 5 as
its resume point. -/
theorem acks_ops_that_do_not_exist :
    ∃ e, (system 1).Reach {} e ∧ e.store.oplog = [] ∧ e.store.lastAckedSeq 2 1 = 5 ∧
      ¬ ∀ peer, e.store.lastAckedSeq peer 1 ≤ e.store.latestOriginSeq 1 := by
  refine ⟨(subscribeAndAck 5 5).foldl (step 1) {}, ?_, by decide +kernel, by decide +kernel,
    fun h => absurd (h 2) (by decide +kernel)⟩
  exact .of_foldl .init ⟨trivial, trivial, trivial, trivial, trivial⟩

/-- Node 1 writes a file and pushes the op to node 2, which acks it. -/
def pushAndAck : List Event :=
  [.command (.appendLocal Store.writeF), .accept 0 2, .frame 0 (.subscribeOps [(1, 0)]), .poll 0,
    .write 0, .publish 0, .frame 0 (.oplogAck 1 1), .persist 0]

theorem lastAckedSeq_le_pushed :
    (pushAndAck.foldl (step 1) {}).store.lastAckedSeq 2 1 = 1 ∧
      ∀ peer, (pushAndAck.foldl (step 1) {}).store.lastAckedSeq peer 1 ≤
        (pushAndAck.foldl (step 1) {}).store.latestOriginSeq 1 := by
  refine ⟨by decide +kernel, (lastAckedSeq_le 1).1 _ ?_⟩
  rw [system, Lts.restrict_ofFun]
  refine .of_foldl .init ⟨⟨trivial, fun op hop => (by cases hop)⟩, ⟨trivial, trivial⟩, ⟨?_, trivial⟩,
    ⟨trivial, trivial⟩, ⟨trivial, trivial⟩, ⟨trivial, trivial⟩, ⟨trivial, trivial⟩,
    ⟨trivial, trivial⟩, trivial⟩
  change resumeFrom 1 [(1, 0)] ≤ _
  decide +kernel

end Example

end Pusher

end Replicore
