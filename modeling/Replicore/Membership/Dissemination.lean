import Mathlib.Logic.Function.Basic
import Replicore.Lib.OrdMap
import Replicore.Membership.Gossip

/-!
# Gossip across a fleet

Any number of nodes under one admin key, each taking part in any number of exchanges at a time
(`gossip_driver` opens them on every change and on every tick), and entries that an admin hands to
any of them.  An exchange reads and writes the roster of its two nodes through the steps of
`Membership/Gossip.lean`; between two of its steps every other exchange may take one.  A connection
may break at any point.

`Fleet.heard` is a history of who can have heard of whom: a finished exchange hands to both sides
what either of them had heard when it began.  So it says nothing about entries, and everything
about the order in which exchanges begin and finish.

* `Fleet.Inv` : what every run keeps, from the invariant of a single exchange;
* `roster_dissemination` : a node has, of every node it has heard of, the roster or more; and
  members that have all heard of one another have the same winners and equal digests.
-/

namespace Replicore

namespace Gossip

/-- An exchange in flight: its two nodes, and how far they and the stream are. -/
structure Session where
  initiator : NodeId
  responder : NodeId
  /-- The rosters in it are those of its last step. -/
  exchange : Exchange
  /-- History: what the two nodes had heard when it began. -/
  known : List NodeId

/-- The nodes and the exchanges between them. -/
structure Fleet where
  rosters : NodeId → Roster
  sessions : OrdMap ℕ Session
  /-- History: whom a node has heard of. -/
  heard : NodeId → List NodeId

/-- What can happen in a fleet. -/
inductive FleetEvent
  /-- `gossip_once` opens a stream to a node that serves it. -/
  | connect (k : ℕ) (initiator responder : NodeId)
  /-- One side of the exchange takes its next step. -/
  | turn (k : ℕ) (side : Side)
  /-- The stream breaks. -/
  | drop (k : ℕ)
  /-- An entry is merged from elsewhere, such as the control socket. -/
  | merge (n : NodeId) (entry : SignedEntry)

/-- Gossip only: no entry comes from elsewhere. -/
def FleetEvent.Closed : FleetEvent → Prop
  | .merge _ _ => False
  | _ => True

instance : DecidablePred FleetEvent.Closed
  | .merge _ _ => .isFalse id
  | .connect _ _ _ | .turn _ _ | .drop _ => .isTrue trivial

instance (x : Exchange) : Decidable x.Done :=
  inferInstanceAs (Decidable (x.ipc = .done ∧ x.rpc = .done))

namespace Fleet

/-- The exchange as its two nodes see it now. -/
def view (f : Fleet) (s : Session) : Exchange :=
  { s.exchange with initiator := f.rosters s.initiator, responder := f.rosters s.responder }

/-- Nodes that have heard of nobody but themselves, with no exchange between them. -/
def starting (rosters : NodeId → Roster) : Fleet where
  rosters := rosters
  sessions := .empty
  heard n := [n]

/-- A node exchanges with another one, and under a number that is free. -/
def Allowed (members : NodeId → Prop) (f : Fleet) : FleetEvent → Prop
  | .connect k i r => f.sessions.get? k = none ∧ i ≠ r ∧ members i ∧ members r
  | _ => True

section Steps

variable [Blake3] [Ed25519]

/-- One step of one side of the exchange `s`, numbered `k`. -/
def turn (pk : AdminPubKey) (f : Fleet) (k : ℕ) (s : Session) (side : Side) : Fleet :=
  let x := (f.view s).step pk (.turn side)
  { rosters := Function.update (Function.update f.rosters s.initiator x.initiator)
      s.responder x.responder
    sessions := f.sessions.insert k { s with exchange := x }
    heard := if x.Done then fun n =>
        if n = s.initiator ∨ n = s.responder then s.known ++ f.heard n else f.heard n
      else f.heard }

/-- One event. -/
def step (pk : AdminPubKey) (f : Fleet) : FleetEvent → Fleet
  | .connect k i r =>
    { f with
      sessions := f.sessions.insert k {
        initiator := i, responder := r, exchange := Exchange.opening (f.rosters i) (f.rosters r)
        known := f.heard i ++ f.heard r } }
  | .turn k side =>
    match f.sessions.get? k with
    | some s => f.turn pk k s side
    | none => f
  | .drop k => { f with sessions := f.sessions.erase k }
  | .merge n entry =>
    { f with rosters := Function.update f.rosters n ((f.rosters n).mergeEntry entry pk).1 }

/-- The runs of a fleet under an admin key. -/
def system (pk : AdminPubKey) (members : NodeId → Prop) : Lts Fleet FleetEvent :=
  .ofFun (Allowed members) (step pk)

/-- BLAKE3 does not collide on the bytes of any two rosters whose digests are compared. -/
def DigestsApart (f : Fleet) : Prop :=
  ∀ k s, f.sessions.get? k = some s → s.exchange.DigestApart

end Steps

end Fleet

/-! ### One exchange among others -/

namespace Exchange

variable [Blake3] [Ed25519] {pk : AdminPubKey} {x : Exchange}
  {a b : NodeId → WithBot SignedEntry.OrderKey} {S : Set SignedEntry}

/-- A step of one side only adds to the two rosters. -/
theorem ranks_le_turn (pk : AdminPubKey) (x : Exchange) (side : Side) :
    x.initiator.ranks ≤ (x.step pk (.turn side)).initiator.ranks ∧
      x.responder.ranks ≤ (x.step pk (.turn side)).responder.ranks := by
  cases side with
  | initiator =>
    obtain ⟨hresp, hinit⟩ := initiatorStep_rosters pk x
    refine ⟨?_, (congrArg Roster.ranks hresp).ge⟩
    obtain heq | ⟨e, heq⟩ := hinit
    · exact (congrArg Roster.ranks heq).ge
    · exact (x.initiator.ranks_le_mergeEntry e pk).trans (congrArg Roster.ranks heq).ge
  | responder =>
    obtain ⟨hinit, hresp⟩ := responderStep_rosters pk x
    refine ⟨(congrArg Roster.ranks hinit).ge, ?_⟩
    obtain heq | ⟨e, heq⟩ := hresp
    · exact (congrArg Roster.ranks heq).ge
    · exact (x.responder.ranks_le_mergeEntry e pk).trans (congrArg Roster.ranks heq).ge

/-- What happens elsewhere only adds to what the two nodes have. -/
theorem Inv.mono {i r : Roster} (h : Inv pk a b x) (hvi : i.Verified pk) (hvr : r.Verified pk)
    (hi : x.initiator.ranks ≤ i.ranks) (hr : x.responder.ranks ≤ r.ranks) :
    Inv pk a b { x with initiator := i, responder := r } where
  initiator := hvi
  responder := hvr
  le_initiator := h.le_initiator.trans hi
  le_responder := h.le_responder.trans hr
  phase := h.phase.mono hi hr

end Exchange

namespace Fleet

/-- The exchanges after one of them was put in. -/
theorem of_insert_sessions {sessions : OrdMap ℕ Session} {k j : ℕ} {s t : Session}
    (h : (sessions.insert k s).get? j = some t) : s = t ∨ sessions.get? j = some t := by
  rw [OrdMap.get?_insert] at h
  split_ifs at h
  · exact .inl (Option.some.inj h)
  · exact .inr h

/-- The exchanges after one of them was dropped. -/
theorem of_erase_sessions {sessions : OrdMap ℕ Session} {k j : ℕ} {t : Session}
    (h : (sessions.erase k).get? j = some t) : sessions.get? j = some t := by
  rw [OrdMap.get?_erase] at h
  split_ifs at h
  exact h

section Runs

variable [Blake3] [Ed25519] {pk : AdminPubKey} {members : NodeId → Prop}
  {rosters : NodeId → Roster} {f : Fleet} {S : Set SignedEntry}

/-- What every run keeps: every roster is verified and at or above those it has heard of, and every
exchange is on its way from rosters whose join is at or above those it knows of. -/
structure Inv (pk : AdminPubKey) (rosters : NodeId → Roster) (f : Fleet) : Prop where
  verified : ∀ n, (f.rosters n).Verified pk
  heard : ∀ v, ∀ u ∈ f.heard v, (rosters u).ranks ≤ (f.rosters v).ranks
  apart : ∀ k s, f.sessions.get? k = some s → s.initiator ≠ s.responder
  session : ∀ k s, f.sessions.get? k = some s → ∃ a b, Exchange.Inv pk a b (f.view s) ∧
    ∀ u ∈ s.known, (rosters u).ranks ≤ a ⊔ b

theorem inv_starting (h : ∀ n, (rosters n).Verified pk) : Inv pk rosters (starting rosters) where
  verified := h
  heard v u hu := by
    rw [List.mem_singleton.1 hu]
    rfl
  apart k s hs := by cases hs
  session k s hs := by cases hs

/-- Where rosters only grow, exchanges that take no step are still on their way. -/
theorem Inv.session_mono (h : Inv pk rosters f) {f' : Fleet}
    (hv : ∀ n, (f'.rosters n).Verified pk) (hle : ∀ n, (f.rosters n).ranks ≤ (f'.rosters n).ranks)
    {k : ℕ} {s : Session} (hs : f.sessions.get? k = some s) :
    ∃ a b, Exchange.Inv pk a b (f'.view s) ∧ ∀ u ∈ s.known, (rosters u).ranks ≤ a ⊔ b := by
  obtain ⟨a, b, hx, hknown⟩ := h.session k s hs
  exact ⟨a, b, hx.mono (hv _) (hv _) (hle _) (hle _), hknown⟩

/-- The two nodes of an exchange are apart, so a step of it is seen by both. -/
theorem view_turn {k : ℕ} {s : Session} (hne : s.initiator ≠ s.responder) (side : Side) :
    (f.turn pk k s side).view { s with exchange := (f.view s).step pk (.turn side) } =
      (f.view s).step pk (.turn side) := by
  simp only [turn, view, Function.update_self, Function.update_of_ne hne]

theorem rosters_turn {k : ℕ} {s : Session} (hne : s.initiator ≠ s.responder) (side : Side)
    (n : NodeId) :
    (f.turn pk k s side).rosters n =
      if n = s.initiator then ((f.view s).step pk (.turn side)).initiator
      else if n = s.responder then ((f.view s).step pk (.turn side)).responder
      else f.rosters n := by
  simp only [turn]
  split_ifs with hi hr
  · rw [hi, Function.update_of_ne hne, Function.update_self]
  · rw [hr, Function.update_self]
  · rw [Function.update_of_ne hr, Function.update_of_ne hi]

theorem mem_heard_turn {k : ℕ} {s : Session} {side : Side} {u v : NodeId}
    (h : u ∈ (f.turn pk k s side).heard v) :
    u ∈ f.heard v ∨ ((f.view s).step pk (.turn side)).Done ∧
      (v = s.initiator ∨ v = s.responder) ∧ u ∈ s.known := by
  by_cases hdone : ((f.view s).step pk (.turn side)).Done
  · by_cases hv : v = s.initiator ∨ v = s.responder
    · simp only [turn, if_pos hdone, if_pos hv, List.mem_append] at h
      exact h.elim (fun hu => .inr ⟨hdone, hv, hu⟩) .inl
    · simp only [turn, if_pos hdone, if_neg hv] at h
      exact .inl h
  · simp only [turn, if_neg hdone] at h
    exact .inl h

theorem ranks_le_turn (pk : AdminPubKey) {k : ℕ} {s : Session} (hne : s.initiator ≠ s.responder)
    (side : Side) (n : NodeId) : (f.rosters n).ranks ≤ ((f.turn pk k s side).rosters n).ranks := by
  have hgrow := Exchange.ranks_le_turn pk (f.view s) side
  rw [rosters_turn hne]
  split_ifs with hi hr
  · exact hi ▸ hgrow.1
  · exact hr ▸ hgrow.2
  · exact le_rfl

theorem Inv.turn (h : Inv pk rosters f) {k : ℕ} {s : Session} (hs : f.sessions.get? k = some s)
    (side : Side) (hd : (f.turn pk k s side).DigestsApart) :
    Inv pk rosters (f.turn pk k s side) := by
  have hne := h.apart k s hs
  obtain ⟨a, b, hx, hknown⟩ := h.session k s hs
  have hx' : Exchange.Inv pk a b ((f.view s).step pk (.turn side)) := hx.step trivial
  have hgrow := ranks_le_turn (f := f) pk (k := k) hne side
  have hverified : ∀ n, ((f.turn pk k s side).rosters n).Verified pk := by
    intro n
    rw [rosters_turn hne]
    split_ifs
    · exact hx'.initiator
    · exact hx'.responder
    · exact h.verified n
  refine ⟨hverified, fun v u hu => ?_, fun j t ht => ?_, fun j t ht => ?_⟩
  · obtain hu | ⟨hdone, hv, hu⟩ := mem_heard_turn hu
    · exact (h.heard v u hu).trans (hgrow v)
    · -- the exchange has finished: both nodes are at or above the join it started from
      have hapart : ((f.view s).step pk (.turn side)).DigestApart :=
        hd k { s with exchange := (f.view s).step pk (.turn side) } (by simp [Fleet.turn])
      have hjoin := hx'.join_le hapart hdone
      refine (hknown u hu).trans ?_
      rw [rosters_turn hne]
      obtain rfl | rfl := hv
      · rw [if_pos rfl]
        exact hjoin.1
      · rw [if_neg hne.symm, if_pos rfl]
        exact hjoin.2
  · obtain rfl | ht := of_insert_sessions ht
    · exact hne
    · exact h.apart j t ht
  · obtain rfl | ht := of_insert_sessions ht
    · refine ⟨a, b, ?_, ?_⟩
      · rw [view_turn hne]
        exact hx'
      · exact hknown
    · exact h.session_mono hverified hgrow ht

/-- An exchange begins from the rosters of its two nodes. -/
theorem Inv.connect (h : Inv pk rosters f) (k : ℕ) {i r : NodeId} (hne : i ≠ r) :
    Inv pk rosters (f.step pk (.connect k i r)) where
  verified := h.verified
  heard := h.heard
  apart j t ht := by
    obtain rfl | ht := of_insert_sessions ht
    · exact hne
    · exact h.apart j t ht
  session j t ht := by
    obtain rfl | ht := of_insert_sessions ht
    · refine ⟨(f.rosters i).ranks, (f.rosters r).ranks,
        ⟨h.verified i, h.verified r, le_rfl, le_rfl, .start⟩, fun u hu => ?_⟩
      obtain hu | hu := List.mem_append.1 hu
      · exact le_sup_of_le_left (h.heard i u hu)
      · exact le_sup_of_le_right (h.heard r u hu)
    · exact h.session j t ht

theorem Inv.merge (h : Inv pk rosters f) (n : NodeId) (entry : SignedEntry) :
    Inv pk rosters (f.step pk (.merge n entry)) := by
  have hverified : ∀ m, ((f.step pk (.merge n entry)).rosters m).Verified pk := by
    intro m
    simp only [Fleet.step]
    obtain rfl | hm := eq_or_ne m n
    · rw [Function.update_self]
      exact (h.verified m).mergeEntry entry
    · rw [Function.update_of_ne hm]
      exact h.verified m
  have hgrow : ∀ m, (f.rosters m).ranks ≤ ((f.step pk (.merge n entry)).rosters m).ranks := by
    intro m
    simp only [Fleet.step]
    obtain rfl | hm := eq_or_ne m n
    · rw [Function.update_self]
      exact (f.rosters m).ranks_le_mergeEntry entry pk
    · rw [Function.update_of_ne hm]
  exact ⟨hverified, fun v u hu => (h.heard v u hu).trans (hgrow v), h.apart,
    fun k s hs => h.session_mono hverified hgrow hs⟩

theorem Inv.drop (h : Inv pk rosters f) (k : ℕ) : Inv pk rosters (f.step pk (.drop k)) where
  verified := h.verified
  heard := h.heard
  apart j t ht := h.apart j t (of_erase_sessions ht)
  session j t ht := h.session j t (of_erase_sessions ht)

theorem Inv.step (h : Inv pk rosters f) {ev : FleetEvent} (hok : Allowed members f ev)
    (hd : (f.step pk ev).DigestsApart) : Inv pk rosters (f.step pk ev) := by
  cases ev with
  | connect k i r => exact h.connect k hok.2.1
  | turn k side =>
    cases hs : f.sessions.get? k with
    | none =>
      simp only [Fleet.step, hs]
      exact h
    | some s =>
      simp only [Fleet.step, hs] at hd ⊢
      exact h.turn hs side hd
  | drop k => exact h.drop k
  | merge n entry => exact h.merge n entry

/-! ### Nothing comes from elsewhere -/

/-- Every entry at a member, and in an exchange, is of the set; exchanges are between members. -/
structure From (members : NodeId → Prop) (S : Set SignedEntry) (f : Fleet) : Prop where
  rosters : ∀ n, members n → ∀ e ∈ (f.rosters n).allEntries, e ∈ S
  between : ∀ k s, f.sessions.get? k = some s →
    s.initiator ≠ s.responder ∧ members s.initiator ∧ members s.responder
  session : ∀ k s, f.sessions.get? k = some s → Exchange.From S (f.view s)

omit [Blake3] [Ed25519] in
/-- The nodes of an exchange may have merged since, the frames in it stay. -/
theorem From.session_mono (h : From members S f) {f' : Fleet}
    (hr : ∀ n, members n → ∀ e ∈ (f'.rosters n).allEntries, e ∈ S) {k : ℕ} {s : Session}
    (hs : f.sessions.get? k = some s) : Exchange.From S (f'.view s) := by
  obtain ⟨-, hi, hresp⟩ := h.between k s hs
  obtain ⟨-, -, hti, htr, hpull, hback⟩ := h.session k s hs
  exact ⟨hr _ hi, hr _ hresp, hti, htr, hpull, hback⟩

theorem From.step (h : From members S f) {ev : FleetEvent} (hok : Allowed members f ev)
    (hclosed : ev.Closed) : From members S (f.step pk ev) := by
  cases ev with
  | connect k i r =>
    obtain ⟨-, hne, hi, hr⟩ := hok
    refine ⟨h.rosters, fun j t ht => ?_, fun j t ht => ?_⟩
    · obtain rfl | ht := of_insert_sessions ht
      · exact ⟨hne, hi, hr⟩
      · exact h.between j t ht
    · obtain rfl | ht := of_insert_sessions ht
      · exact ⟨h.rosters i hi, h.rosters r hr, fun f hf => (by cases hf), fun f hf => (by cases hf),
          fun es hes => (by cases hes), fun es hes => (by cases hes)⟩
      · exact h.session j t ht
  | turn k side =>
    cases hs : f.sessions.get? k with
    | none =>
      simp only [Fleet.step, hs]
      exact h
    | some s =>
      have hne := (h.between k s hs).1
      have hx : Exchange.From S ((f.view s).step pk (.turn side)) := (h.session k s hs).step trivial
      simp only [Fleet.step, hs]
      have hrosters : ∀ n, members n →
          ∀ e ∈ ((f.turn pk k s side).rosters n).allEntries, e ∈ S := by
        intro n hn
        rw [rosters_turn hne]
        split_ifs
        · exact hx.initiator
        · exact hx.responder
        · exact h.rosters n hn
      refine ⟨hrosters, fun j t ht => ?_, fun j t ht => ?_⟩
      · obtain rfl | ht := of_insert_sessions ht
        · exact h.between k s hs
        · exact h.between j t ht
      · obtain rfl | ht := of_insert_sessions ht
        · rw [view_turn hne]
          exact hx
        · exact h.session_mono hrosters ht
  | drop k =>
    exact ⟨h.rosters, fun j t ht => h.between j t (of_erase_sessions ht),
      fun j t ht => h.session j t (of_erase_sessions ht)⟩
  | merge n entry => exact absurd hclosed id

/-- What the members had when the run began. -/
def startEntries (members : NodeId → Prop) (rosters : NodeId → Roster) : Set SignedEntry :=
  {e | ∃ n, members n ∧ e ∈ (rosters n).allEntries}

omit [Blake3] [Ed25519] in
theorem from_starting : From members (startEntries members rosters) (starting rosters) where
  rosters n hn e he := ⟨n, hn, he⟩
  between k s hs := by cases hs
  session k s hs := by cases hs

/-- A member that has heard of all has the greatest entry that any member had. -/
theorem isWinner_of_heard (hinv : Inv pk rosters f)
    (hfrom : From members (startEntries members rosters) f)
    (hapart : Roster.EntriesApart (startEntries members rosters)) {v : NodeId} (hv : members v)
    (hall : ∀ u, members u → u ∈ f.heard v) (n : NodeId) :
    Roster.IsWinner (startEntries members rosters) n ((f.rosters v).get n) := by
  have hbelow : ∀ e ∈ startEntries members rosters, e.nodeId = n →
      ↑e.orderKey ≤ (f.rosters v).ranks n := by
    rintro e ⟨u, hu, he⟩ rfl
    exact (ranksOf_le_iff.1 (ranksOf_allEntries (rosters u)).le e he).trans
      (hinv.heard v u (hall u hu) e.nodeId)
  cases hget : (f.rosters v).get n with
  | none =>
    intro e he hn
    have hbot := hbelow e he hn
    rw [Roster.ranks, Lww.rankAt_eq_bot.2 hget] at hbot
    exact absurd hbot (WithBot.not_coe_le_bot _)
  | some w =>
    have hn : w.nodeId = n := (f.rosters v).keyed n w hget
    have hmem : w ∈ startEntries members rosters :=
      hfrom.rosters v hv w (Lww.mem_toList.2 (hn ▸ hget))
    refine ⟨hmem, hn, fun e he hen => ⟨?_, hapart.canonical_eq he hmem⟩⟩
    have hle := hbelow e he hen
    rwa [Roster.ranks, Lww.rankAt_of_get? hget, WithBot.coe_le_coe] at hle

/-- **Roster dissemination.**  In every run of a fleet that begins with verified rosters: every
roster stays verified, and a node that has heard of another one is at or above the roster which that
one began with, whatever else was merged and however many exchanges overlap or break.  As long as no
entry comes from elsewhere, a member that has heard of every member holds for each node the greatest
entry that any of them began with, so members that have heard of all have equal digests. -/
theorem roster_dissemination (pk : AdminPubKey) (members : NodeId → Prop)
    (rosters : NodeId → Roster) (hv : ∀ n, (rosters n).Verified pk) :
    (∀ f, ((system pk members).restrict fun f ev => (f.step pk ev).DigestsApart).Reach
        (starting rosters) f →
      (∀ n, (f.rosters n).Verified pk) ∧
        ∀ v, ∀ u ∈ f.heard v, (rosters u).ranks ≤ (f.rosters v).ranks) ∧
    (Roster.EntriesApart (startEntries members rosters) → ∀ f,
      ((system pk members).restrict fun f ev => (f.step pk ev).DigestsApart ∧ ev.Closed).Reach
        (starting rosters) f →
      ∀ v, members v → (∀ u, members u → u ∈ f.heard v) →
        (∀ n, Roster.IsWinner (startEntries members rosters) n ((f.rosters v).get n)) ∧
        ∀ w, members w → (∀ u, members u → u ∈ f.heard w) →
          (f.rosters v).digest = (f.rosters w).digest) := by
  refine ⟨fun f hf => ?_, fun hapart f hf v hmv hall => ?_⟩
  · have hinv : Inv pk rosters f := by
      refine hf.invariant (inv_starting hv) fun s ev s' _ hs hstep => ?_
      obtain ⟨hd, hok, rfl⟩ := hstep
      exact hs.step hok hd
    exact ⟨hinv.verified, hinv.heard⟩
  · have hinv : Inv pk rosters f ∧ From members (startEntries members rosters) f := by
      refine hf.invariant (I := fun f => Inv pk rosters f ∧
        From members (startEntries members rosters) f) ⟨inv_starting hv, from_starting⟩
        fun s ev s' _ hs hstep => ?_
      obtain ⟨⟨hd, hclosed⟩, hok, rfl⟩ := hstep
      exact ⟨hs.1.step hok hd, hs.2.step hok hclosed⟩
    obtain ⟨hinv, hfrom⟩ := hinv
    have hwin := isWinner_of_heard hinv hfrom hapart hmv hall
    refine ⟨hwin, fun w hmw hallw => Roster.digest_congr fun n => ?_⟩
    exact (hwin n).canonical_eq (isWinner_of_heard hinv hfrom hapart hmw hallw n)

end Runs

section Example

attribute [local instance] Blake3.polynomial Roster.polynomialSignature

/-- Node 1 has heard of an addition, node 3 of the removal, and node 2 of nothing. -/
def chain (n : NodeId) : Roster :=
  if n = 1 then Exchange.hasAdd else if n = 3 then Exchange.hasRemove else .empty

/-- A whole exchange: the initiator ends with the responder's entries or an `InSync`. -/
def exchanged (k : ℕ) (i r : NodeId) : List FleetEvent :=
  .connect k i r :: [Side.initiator, .responder, .responder, .initiator, .initiator, .initiator,
    .responder, .responder, .responder].map (.turn k)

/-- Nodes 1 and 2 exchange, then 2 and 3, then 1 and 2 again. -/
def alongChain : Fleet :=
  (exchanged 0 1 2 ++ exchanged 1 2 3 ++ exchanged 2 1 2).foldl (step 7) (starting chain)

/-- The members of the chain. -/
def OnChain (n : NodeId) : Prop := n = 1 ∨ n = 2 ∨ n = 3

instance : DecidablePred OnChain := fun n => inferInstanceAs (Decidable (n = 1 ∨ n = 2 ∨ n = 3))

instance : ∀ f ev, Decidable (Allowed OnChain f ev)
  | f, .connect k i r =>
    inferInstanceAs (Decidable (f.sessions.get? k = none ∧ i ≠ r ∧ OnChain i ∧ OnChain r))
  | _, .turn _ _ | _, .drop _ | _, .merge _ _ => .isTrue trivial

instance (f : Fleet) : Decidable f.DigestsApart :=
  decidable_of_iff (∀ e ∈ f.sessions.entries, ∀ ρ ∈ e.2.exchange.offered,
    ∀ σ ∈ e.2.exchange.answered, Blake3.hash ρ.digestBytes = Blake3.hash σ.digestBytes →
      ρ.digestBytes = σ.digestBytes)
    ⟨fun h k s hs => h (k, s) (OrdMap.mem_entries.2 hs), fun h e he =>
      h e.1 e.2 (OrdMap.mem_entries.1 he)⟩

/-- The removal reaches node 1 by way of node 2. -/
theorem roster_dissemination_along_chain :
    (alongChain.rosters 1).digest = (alongChain.rosters 3).digest ∧
      ((alongChain.rosters 1).get 1).map SignedEntry.kind = some .remove := by
  have hv : ∀ n, (chain n).Verified 7 := by
    intro n
    unfold chain
    split_ifs
    · exact Exchange.verified_mergeEntries_empty _ 7
    · exact Exchange.verified_mergeEntries_empty _ 7
    · rintro m e ⟨⟩
  have hreach : ((system 7 OnChain).restrict fun f ev =>
      (f.step 7 ev).DigestsApart ∧ ev.Closed).Reach (starting chain) alongChain := by
    rw [system, Lts.restrict_ofFun]
    exact .of_foldl .init (by decide +kernel)
  have hapart : Roster.EntriesApart (startEntries OnChain chain) := by
    have hmem : ∀ e ∈ startEntries OnChain chain,
        e ∈ (chain 1).allEntries ++ (chain 2).allEntries ++ (chain 3).allEntries := by
      rintro e ⟨n, rfl | rfl | rfl, he⟩ <;> simp [he]
    exact Roster.EntriesApart.of_list hmem (by decide +kernel)
  have hall : ∀ v, OnChain v → ∀ u, OnChain u → u ∈ alongChain.heard v := by
    rintro v (rfl | rfl | rfl) u (rfl | rfl | rfl) <;> decide +kernel
  exact ⟨((roster_dissemination 7 OnChain chain hv).2 hapart alongChain hreach 1 (.inl rfl)
    (hall 1 (.inl rfl))).2 3 (.inr (.inr rfl)) (hall 3 (.inr (.inr rfl))), by decide +kernel⟩

end Example

end Fleet

end Gossip

end Replicore
