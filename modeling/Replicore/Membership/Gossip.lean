import Replicore.Lib.Lts
import Replicore.Membership.Converge

/-!
# A gossip exchange

The push-pull exchange of `gossip.rs` between two nodes under one admin key: the initiator sends
its roster digest; the responder answers `InSync`, or its entries, which the initiator merges
before it sends its own.  The two nodes take their steps in any order, and other merges (of the
control socket or of other exchanges) may come between any two of them on either side.
`merge_signed` is one step here: as long as nothing is reloaded and saves succeed, it changes the
live roster once, from what it is at that moment (`Members.Daemon.roster_commit`).

* `Exchange.step` : one step of one side, another merge, or a frame that no honest node sent;
* `Exchange.Phase` : where the two sides can stand, with what each frame brings;
* `exchange_converges` : both sides end at or above the join, and at it if nothing else is merged.
-/

namespace Replicore

/-- The order keys of a roster's winners, by node. -/
def Roster.ranks [Blake3] (r : Roster) : NodeId → WithBot SignedEntry.OrderKey :=
  r.rankAt SignedEntry.orderKey

namespace Gossip

/-- Wire frames for one roster exchange. -/
inductive GossipFrame
  | digest (digest : Hash)
  | inSync
  | entries (es : List SignedEntry)
  deriving DecidableEq

/-- The entries a frame carries. -/
def GossipFrame.batch : GossipFrame → List SignedEntry
  | .entries es => es
  | _ => []

/-- Where `gossip_once` stands. -/
inductive InitiatorPc
  | start
  | awaitReply
  | merging (rest : List SignedEntry)
  | done
  deriving DecidableEq

/-- Where `serve_roster` stands. -/
inductive ResponderPc
  | awaitDigest
  | snapshot
  | awaitEntries
  | merging (rest : List SignedEntry)
  | done
  deriving DecidableEq

/-- The two sides and the stream between them. -/
structure Exchange where
  initiator : Roster
  responder : Roster
  ipc : InitiatorPc := .start
  rpc : ResponderPc := .awaitDigest
  toResponder : List GossipFrame := []
  toInitiator : List GossipFrame := []
  /-- `GossipReport::applied`. -/
  applied : ℕ := 0
  /-- History: the initiator's roster when it computed its digest. -/
  offered : Option Roster := none
  /-- History: the responder's roster when it answered `InSync`. -/
  answered : Option Roster := none

/-- The two sides. -/
inductive Side
  | initiator
  | responder

/-- What can happen. -/
inductive Event
  /-- The side takes its next step. -/
  | turn (side : Side)
  /-- Something else merges an entry there. -/
  | merge (side : Side) (entry : SignedEntry)
  /-- The next frame for the side is replaced by one that the other side did not send. -/
  | forge (side : Side) (frame : GossipFrame)

/-- Both sides run the protocol. -/
def Event.Honest : Event → Prop
  | .forge _ _ => False
  | _ => True

/-- Nothing else happens. -/
def Event.Alone : Event → Prop
  | .turn _ => True
  | _ => False

namespace Exchange

section Steps

variable [Blake3] [Ed25519]

/-- One step of `gossip_once`. -/
def initiatorStep (pk : AdminPubKey) (x : Exchange) : Exchange :=
  match x.ipc with
  | .start =>
    { x with
      ipc := .awaitReply, offered := some x.initiator
      toResponder := x.toResponder ++ [.digest x.initiator.digest] }
  | .awaitReply =>
    match x.toInitiator with
    | .entries theirs :: q => { x with ipc := .merging theirs, toInitiator := q }
    -- `InSync`, or noise: a responder never sends a digest
    | _ :: q => { x with ipc := .done, toInitiator := q }
    | [] => x
  | .merging (e :: rest) =>
    let (r, outcome) := x.initiator.mergeEntry e pk
    { x with
      ipc := .merging rest, initiator := r
      applied := if outcome = .applied then x.applied + 1 else x.applied }
  | .merging [] =>
    { x with ipc := .done, toResponder := x.toResponder ++ [.entries x.initiator.allEntries] }
  | .done => x

/-- One step of `serve_roster`. -/
def responderStep (pk : AdminPubKey) (x : Exchange) : Exchange :=
  match x.rpc with
  | .awaitDigest =>
    match x.toResponder with
    | .digest d :: q =>
      if d = x.responder.digest then
        { x with
          rpc := .done, toResponder := q, answered := some x.responder
          toInitiator := x.toInitiator ++ [.inSync] }
      else { x with rpc := .snapshot, toResponder := q }
    | _ :: q => { x with rpc := .done, toResponder := q }
    | [] => x
  | .snapshot =>
    { x with
      rpc := .awaitEntries, toInitiator := x.toInitiator ++ [.entries x.responder.allEntries] }
  | .awaitEntries =>
    match x.toResponder with
    | .entries theirs :: q => { x with rpc := .merging theirs, toResponder := q }
    | _ :: q => { x with rpc := .done, toResponder := q }
    | [] => x
  | .merging (e :: rest) =>
    { x with rpc := .merging rest, responder := (x.responder.mergeEntry e pk).1 }
  | .merging [] => { x with rpc := .done }
  | .done => x

/-- One event. -/
def step (pk : AdminPubKey) (x : Exchange) : Event → Exchange
  | .turn .initiator => x.initiatorStep pk
  | .turn .responder => x.responderStep pk
  | .merge .initiator entry => { x with initiator := (x.initiator.mergeEntry entry pk).1 }
  | .merge .responder entry => { x with responder := (x.responder.mergeEntry entry pk).1 }
  | .forge .initiator frame => { x with toInitiator := frame :: x.toInitiator.tail }
  | .forge .responder frame => { x with toResponder := frame :: x.toResponder.tail }

/-- The runs under an admin key. -/
def system (pk : AdminPubKey) : Lts Exchange Event := .ofFun (fun _ _ => True) (step pk)

end Steps

/-- Two nodes about to exchange. -/
def opening (i r : Roster) : Exchange where
  initiator := i
  responder := r

/-- Both sides have finished. -/
def Done (x : Exchange) : Prop := x.ipc = .done ∧ x.rpc = .done

/-- BLAKE3 does not collide on the bytes of the two rosters whose digests were compared. -/
def DigestApart [Blake3] (x : Exchange) : Prop :=
  ∀ ρ ∈ x.offered, ∀ σ ∈ x.answered,
    Blake3.hash ρ.digestBytes = Blake3.hash σ.digestBytes → ρ.digestBytes = σ.digestBytes

end Exchange

end Gossip

/-- Every entry of the roster verifies. -/
def Roster.Verified [Ed25519] (pk : AdminPubKey) (r : Roster) : Prop :=
  ∀ n e, r.get n = some e → e.verify pk

theorem Roster.Verified.allEntries [Ed25519] {pk : AdminPubKey} {r : Roster} (h : r.Verified pk) :
    ∀ e ∈ r.allEntries, e.verify pk :=
  fun e he => h e.nodeId e (Lww.mem_toList.1 he)

/-! ### Ranks under merges -/

section Ranks

variable [Blake3] {r r' : Roster} {e : SignedEntry} {es : List SignedEntry} {pk : AdminPubKey}

/-- What a batch of entries brings. -/
def ranksOf (es : List SignedEntry) : NodeId → WithBot SignedEntry.OrderKey :=
  Roster.ranks (Lww.mergeAll SignedEntry.orderKey .empty es)

theorem ranksOf_le_iff {f : NodeId → WithBot SignedEntry.OrderKey} :
    ranksOf es ≤ f ↔ ∀ e ∈ es, ↑e.orderKey ≤ f e.nodeId := by
  have hempty : (Lww.empty : Roster).rankAt SignedEntry.orderKey ≤ f := fun _ => bot_le
  rw [ranksOf, Roster.ranks, Lww.rankAt_mergeAll_le_iff, and_iff_right hempty]
  exact forall₂_congr fun e _ => Lww.point_le_iff

theorem ranksOf_nil_le (f : NodeId → WithBot SignedEntry.OrderKey) : ranksOf [] ≤ f :=
  ranksOf_le_iff.2 fun e he => by cases he

theorem ranksOf_allEntries (r : Roster) : ranksOf r.allEntries = r.ranks := by
  rw [ranksOf, Roster.ranks, Roster.allEntries, Lww.rankAt_mergeAll_toList]
  exact sup_eq_right.2 fun _ => bot_le

theorem Roster.ranks_congr (h : ∀ n, (r.get n).map SignedEntry.canonicalBytes =
    (r'.get n).map SignedEntry.canonicalBytes) : r.ranks = r'.ranks := by
  funext n
  have hn := h n
  cases hr : r.get n with
  | none =>
    cases hr' : r'.get n with
    | none => rw [ranks, ranks, Lww.rankAt_eq_bot.2 hr, Lww.rankAt_eq_bot.2 hr']
    | some e' => simp [hr, hr'] at hn
  | some e =>
    cases hr' : r'.get n with
    | none => simp [hr, hr'] at hn
    | some e' =>
      simp only [hr, hr', Option.map_some, Option.some.injEq] at hn
      rw [ranks, ranks, Lww.rankAt_of_get? hr, Lww.rankAt_of_get? hr',
        SignedEntry.orderKey_of_canonicalBytes hn]

variable [Ed25519]

theorem Roster.ranks_le_mergeEntry (r : Roster) (e : SignedEntry) (pk : AdminPubKey) :
    r.ranks ≤ (r.mergeEntry e pk).1.ranks := by
  rw [Roster.mergeEntry_fst]
  split_ifs
  · rw [ranks, ranks, Lww.rankAt_merge]
    exact le_sup_left
  · exact le_rfl

/-- A merge of an entry that verifies takes it off what is still to be brought. -/
theorem Roster.le_mergeEntry {f : NodeId → WithBot SignedEntry.OrderKey} (hv : e.verify pk)
    (h : f ≤ r.ranks ⊔ ranksOf (e :: es)) : f ≤ (r.mergeEntry e pk).1.ranks ⊔ ranksOf es := by
  refine h.trans (sup_le (le_sup_of_le_left (r.ranks_le_mergeEntry e pk)) ?_)
  rw [ranksOf_le_iff]
  intro x hx
  obtain rfl | hx := List.mem_cons.1 hx
  · refine le_sup_of_le_left ?_
    rw [Roster.mergeEntry_fst, if_pos hv, ranks, Lww.rankAt_merge]
    exact le_sup_of_le_right (Lww.point_le_iff.1 le_rfl)
  · exact le_sup_of_le_right (ranksOf_le_iff.1 le_rfl x hx)

/-- A merge brings in nothing but the entry. -/
theorem Roster.mem_mergeEntry {x : SignedEntry}
    (h : x ∈ (r.mergeEntry e pk).1.allEntries) : x ∈ r.allEntries ∨ x = e ∧ e.verify pk := by
  rw [Roster.mergeEntry_fst] at h
  split_ifs at h with hv
  · have hget : (Lww.mergeAll SignedEntry.orderKey r [e]).get? x.nodeId = some x :=
      Lww.mem_toList.1 h
    obtain hold | hnew := Lww.get?_mergeAll hget
    · exact .inl (Lww.mem_toList.2 hold)
    · exact .inr ⟨List.mem_singleton.1 hnew, hv⟩
  · exact .inl h

theorem Roster.Verified.mergeEntry (h : r.Verified pk) (e : SignedEntry) :
    (r.mergeEntry e pk).1.Verified pk := by
  intro n x hx
  have hn : x.nodeId = n := (r.mergeEntry e pk).1.keyed n x hx
  obtain hold | ⟨rfl, hv⟩ := Roster.mem_mergeEntry (Lww.mem_toList.2 (hn ▸ hx))
  · exact h.allEntries x hold
  · exact hv

end Ranks

namespace Gossip

namespace Exchange

theorem batch_append {S : Set SignedEntry} {q : List GossipFrame} {f : GossipFrame} (hq : ∀ f ∈ q, ∀ e ∈ f.batch, e ∈ S)
    (hf : ∀ e ∈ f.batch, e ∈ S) : ∀ g ∈ q ++ [f], ∀ e ∈ g.batch, e ∈ S := by
  intro g hg
  obtain hg | hg := List.mem_append.1 hg
  · exact hq g hg
  · obtain rfl := List.mem_singleton.1 hg
    exact hf

section Runs

variable [Blake3] {x : Exchange} {a b : NodeId → WithBot SignedEntry.OrderKey}
  {S : Set SignedEntry}

/-- The rosters that were compared: equal digests, between the start (`a`, `b`) and now. -/
def Synced (a b : NodeId → WithBot SignedEntry.OrderKey) (x : Exchange) : Prop :=
  ∃ ρ σ, x.offered = some ρ ∧ x.answered = some σ ∧ ρ.digest = σ.digest ∧
    a ≤ ρ.ranks ∧ ρ.ranks ≤ x.initiator.ranks ∧ b ≤ σ.ranks ∧ σ.ranks ≤ x.responder.ranks

/-- The rosters that were compared have the same winners. -/
theorem Synced.ranks_eq (h : Synced a b x) (hd : x.DigestApart) :
    a ⊔ b ≤ x.initiator.ranks ∧ a ⊔ b ≤ x.responder.ranks := by
  obtain ⟨ρ, σ, ho, hn, heq, ha, hρ, hb, hσ⟩ := h
  have hranks : ρ.ranks = σ.ranks :=
    Roster.ranks_congr (Roster.canonical_of_digestBytes (hd ρ ho σ hn heq))
  refine ⟨sup_le (ha.trans hρ) ?_, sup_le ?_ (hb.trans hσ)⟩
  · exact hb.trans (hranks ▸ hρ)
  · exact ha.trans (hranks ▸ hσ)

/-- Every entry in sight is of the set. -/
structure From (S : Set SignedEntry) (x : Exchange) : Prop where
  initiator : ∀ e ∈ x.initiator.allEntries, e ∈ S
  responder : ∀ e ∈ x.responder.allEntries, e ∈ S
  toInitiator : ∀ f ∈ x.toInitiator, ∀ e ∈ f.batch, e ∈ S
  toResponder : ∀ f ∈ x.toResponder, ∀ e ∈ f.batch, e ∈ S
  pulling : ∀ es, x.ipc = .merging es → ∀ e ∈ es, e ∈ S
  pullingBack : ∀ es, x.rpc = .merging es → ∀ e ∈ es, e ∈ S

/-- Entries of two rosters are at or below the join of the two. -/
theorem From.ranks_le {i₀ r₀ : Roster} (h : From {e | e ∈ i₀.allEntries ∨ e ∈ r₀.allEntries} x) :
    x.initiator.ranks ≤ i₀.ranks ⊔ r₀.ranks ∧ x.responder.ranks ≤ i₀.ranks ⊔ r₀.ranks := by
  have hle : ∀ e, e ∈ i₀.allEntries ∨ e ∈ r₀.allEntries →
      ↑e.orderKey ≤ (i₀.ranks ⊔ r₀.ranks) e.nodeId := by
    rintro e (he | he)
    · exact le_sup_of_le_left (ranksOf_le_iff.1 (ranksOf_allEntries i₀).le e he)
    · exact le_sup_of_le_right (ranksOf_le_iff.1 (ranksOf_allEntries r₀).le e he)
  constructor
  · rw [← ranksOf_allEntries, ranksOf_le_iff]
    exact fun e he => hle e (h.initiator e he)
  · rw [← ranksOf_allEntries, ranksOf_le_iff]
    exact fun e he => hle e (h.responder e he)

/-- Rosters with equal ranks, and entries that do not collide, have the same winners. -/
theorem canonical_of_ranks {r r' : Roster} (hapart : Roster.EntriesApart S)
    (hr : ∀ e ∈ r.allEntries, e ∈ S) (hr' : ∀ e ∈ r'.allEntries, e ∈ S) (h : r.ranks = r'.ranks)
    (n : NodeId) :
    (r.get n).map SignedEntry.canonicalBytes = (r'.get n).map SignedEntry.canonicalBytes := by
  have hn : r.ranks n = r'.ranks n := congrFun h n
  unfold Roster.ranks at hn
  cases hget : r.get n with
  | none =>
    rw [Lww.rankAt_eq_bot.2 hget] at hn
    have hnone : r'.get n = none := Lww.rankAt_eq_bot.1 hn.symm
    rw [hnone]
  | some e =>
    rw [Lww.rankAt_of_get? hget] at hn
    obtain ⟨e', he', hkey⟩ := Lww.get?_of_rankAt hn.symm
    have hmem : e ∈ S := hr e (Lww.mem_toList.2 (r.keyed n e hget ▸ hget))
    have hmem' : e' ∈ S := hr' e' (Lww.mem_toList.2 (r'.keyed n e' he' ▸ he'))
    have hget' : r'.get n = some e' := he'
    rw [hget', Option.map_some, Option.map_some, hapart.canonical_eq hmem hmem' hkey.symm]

variable [Ed25519] {pk : AdminPubKey}

/-! ### Where the two sides can stand -/

/-- The phases of an exchange from ranks `a` at the initiator and `b` at the responder.  Every batch
in flight verifies and, with what the reader has by then, brings the ranks it has to bring. -/
inductive Phase (pk : AdminPubKey) (a b : NodeId → WithBot SignedEntry.OrderKey) : Exchange → Prop
  | start {i r k} : Phase pk a b ⟨i, r, .start, .awaitDigest, [], [], k, none, none⟩
  | digestSent {i r k} (ρ : Roster) (ha : a ≤ ρ.ranks) (hi : ρ.ranks ≤ i.ranks) :
    Phase pk a b ⟨i, r, .awaitReply, .awaitDigest, [.digest ρ.digest], [], k, some ρ, none⟩
  | inSync {i r k o n} (h : Synced a b ⟨i, r, .awaitReply, .done, [], [.inSync], k, o, n⟩) :
    Phase pk a b ⟨i, r, .awaitReply, .done, [], [.inSync], k, o, n⟩
  | differing {i r k o} : Phase pk a b ⟨i, r, .awaitReply, .snapshot, [], [], k, o, none⟩
  | pushed {i r k o} (es : List SignedEntry) (hv : ∀ e ∈ es, e.verify pk) (hb : b ≤ ranksOf es) :
    Phase pk a b ⟨i, r, .awaitReply, .awaitEntries, [], [.entries es], k, o, none⟩
  | pulling {i r k o} (es : List SignedEntry) (hv : ∀ e ∈ es, e.verify pk)
      (hb : b ≤ i.ranks ⊔ ranksOf es) :
    Phase pk a b ⟨i, r, .merging es, .awaitEntries, [], [], k, o, none⟩
  | pushedBack {i r k o} (es : List SignedEntry) (hv : ∀ e ∈ es, e.verify pk)
      (hi : a ⊔ b ≤ i.ranks) (hes : a ⊔ b ≤ ranksOf es) :
    Phase pk a b ⟨i, r, .done, .awaitEntries, [.entries es], [], k, o, none⟩
  | pullingBack {i r k o} (es : List SignedEntry) (hv : ∀ e ∈ es, e.verify pk)
      (hi : a ⊔ b ≤ i.ranks) (hes : a ⊔ b ≤ r.ranks ⊔ ranksOf es) :
    Phase pk a b ⟨i, r, .done, .merging es, [], [], k, o, none⟩
  | exchanged {i r k o} (hi : a ⊔ b ≤ i.ranks) (hr : a ⊔ b ≤ r.ranks) :
    Phase pk a b ⟨i, r, .done, .done, [], [], k, o, none⟩
  | synced {i r k o n} (h : Synced a b ⟨i, r, .done, .done, [], [], k, o, n⟩) :
    Phase pk a b ⟨i, r, .done, .done, [], [], k, o, n⟩

/-- Other merges only add to what either side has. -/
theorem Phase.mono {i r : Roster} (h : Phase pk a b x) (hi : x.initiator.ranks ≤ i.ranks)
    (hr : x.responder.ranks ≤ r.ranks) :
    Phase pk a b { x with initiator := i, responder := r } := by
  cases h with
  | start => exact .start
  | digestSent ρ ha hρ => exact .digestSent ρ ha (hρ.trans hi)
  | inSync h =>
    obtain ⟨ρ, σ, ho, hn, heq, ha, hρ, hb, hσ⟩ := h
    exact .inSync ⟨ρ, σ, ho, hn, heq, ha, hρ.trans hi, hb, hσ.trans hr⟩
  | differing => exact .differing
  | pushed es hv hb => exact .pushed es hv hb
  | pulling es hv hb => exact .pulling es hv (hb.trans (sup_le_sup_right hi _))
  | pushedBack es hv hi' hes => exact .pushedBack es hv (hi'.trans hi) hes
  | pullingBack es hv hi' hes =>
    exact .pullingBack es hv (hi'.trans hi) (hes.trans (sup_le_sup_right hr _))
  | exchanged hi' hr' => exact .exchanged (hi'.trans hi) (hr'.trans hr)
  | synced h =>
    obtain ⟨ρ, σ, ho, hn, heq, ha, hρ, hb, hσ⟩ := h
    exact .synced ⟨ρ, σ, ho, hn, heq, ha, hρ.trans hi, hb, hσ.trans hr⟩

/-- The invariant of an honest run. -/
structure Inv (pk : AdminPubKey) (a b : NodeId → WithBot SignedEntry.OrderKey) (x : Exchange) :
    Prop where
  initiator : x.initiator.Verified pk
  responder : x.responder.Verified pk
  le_initiator : a ≤ x.initiator.ranks
  le_responder : b ≤ x.responder.ranks
  phase : Phase pk a b x

theorem Inv.initiatorStep (h : Inv pk a b x) : Inv pk a b (x.initiatorStep pk) := by
  obtain ⟨hvi, hvr, hai, hbr, hphase⟩ := h
  cases hphase with
  | start => exact ⟨hvi, hvr, hai, hbr, .digestSent _ hai le_rfl⟩
  | digestSent ρ ha hρ => exact ⟨hvi, hvr, hai, hbr, .digestSent ρ ha hρ⟩
  | inSync h => exact ⟨hvi, hvr, hai, hbr, .synced h⟩
  | differing => exact ⟨hvi, hvr, hai, hbr, .differing⟩
  | pushed es hv hb => exact ⟨hvi, hvr, hai, hbr, .pulling es hv (le_sup_of_le_right hb)⟩
  | pulling es hv hb =>
    cases es with
    | nil =>
      -- the pull is complete: the initiator has the join, and pushes all of it
      have hjoin := sup_le hai (hb.trans (sup_le le_rfl (ranksOf_nil_le _)))
      refine ⟨hvi, hvr, hai, hbr, .pushedBack _ hvi.allEntries hjoin ?_⟩
      rw [ranksOf_allEntries]
      exact hjoin
    | cons e es =>
      have hve := hv e List.mem_cons_self
      exact ⟨hvi.mergeEntry e, hvr, hai.trans (Roster.ranks_le_mergeEntry _ e pk), hbr,
        .pulling es (fun x hx => hv x (List.mem_cons_of_mem _ hx)) (Roster.le_mergeEntry hve hb)⟩
  | pushedBack es hv hi hes => exact ⟨hvi, hvr, hai, hbr, .pushedBack es hv hi hes⟩
  | pullingBack es hv hi hes => exact ⟨hvi, hvr, hai, hbr, .pullingBack es hv hi hes⟩
  | exchanged hi hr => exact ⟨hvi, hvr, hai, hbr, .exchanged hi hr⟩
  | synced h => exact ⟨hvi, hvr, hai, hbr, .synced h⟩

theorem Inv.responderStep (h : Inv pk a b x) : Inv pk a b (x.responderStep pk) := by
  obtain ⟨hvi, hvr, hai, hbr, hphase⟩ := h
  cases hphase with
  | start => exact ⟨hvi, hvr, hai, hbr, .start⟩
  | @digestSent i r k ρ ha hρ =>
    by_cases heq : ρ.digest = r.digest
    · simp only [Exchange.responderStep, if_pos heq]
      exact ⟨hvi, hvr, hai, hbr, .inSync ⟨ρ, r, rfl, rfl, heq, ha, hρ, hbr, le_rfl⟩⟩
    · simp only [Exchange.responderStep, if_neg heq]
      exact ⟨hvi, hvr, hai, hbr, .differing⟩
  | inSync h => exact ⟨hvi, hvr, hai, hbr, .inSync h⟩
  | differing =>
    refine ⟨hvi, hvr, hai, hbr, .pushed _ hvr.allEntries ?_⟩
    rw [ranksOf_allEntries]
    exact hbr
  | pushed es hv hb => exact ⟨hvi, hvr, hai, hbr, .pushed es hv hb⟩
  | pulling es hv hb => exact ⟨hvi, hvr, hai, hbr, .pulling es hv hb⟩
  | pushedBack es hv hi hes =>
    exact ⟨hvi, hvr, hai, hbr, .pullingBack es hv hi (le_sup_of_le_right hes)⟩
  | pullingBack es hv hi hes =>
    cases es with
    | nil =>
      exact ⟨hvi, hvr, hai, hbr, .exchanged hi (hes.trans (sup_le le_rfl (ranksOf_nil_le _)))⟩
    | cons e es =>
      have hve := hv e List.mem_cons_self
      exact ⟨hvi, hvr.mergeEntry e, hai, hbr.trans (Roster.ranks_le_mergeEntry _ e pk),
        .pullingBack es (fun x hx => hv x (List.mem_cons_of_mem _ hx)) hi
          (Roster.le_mergeEntry hve hes)⟩
  | exchanged hi hr => exact ⟨hvi, hvr, hai, hbr, .exchanged hi hr⟩
  | synced h => exact ⟨hvi, hvr, hai, hbr, .synced h⟩

theorem Inv.step (h : Inv pk a b x) {ev : Event} (hev : ev.Honest) : Inv pk a b (x.step pk ev) := by
  cases ev with
  | turn side =>
    cases side with
    | initiator => exact h.initiatorStep
    | responder => exact h.responderStep
  | merge side entry =>
    cases side with
    | initiator =>
      have hle := x.initiator.ranks_le_mergeEntry entry pk
      exact ⟨h.initiator.mergeEntry entry, h.responder, h.le_initiator.trans hle, h.le_responder,
        h.phase.mono hle le_rfl⟩
    | responder =>
      have hle := x.responder.ranks_le_mergeEntry entry pk
      exact ⟨h.initiator, h.responder.mergeEntry entry, h.le_initiator, h.le_responder.trans hle,
        h.phase.mono le_rfl hle⟩
  | forge side frame => exact absurd hev id

/-! ### Nothing comes from elsewhere -/

theorem From.initiatorStep (h : From S x) : From S (x.initiatorStep pk) := by
  unfold Exchange.initiatorStep
  split
  · exact ⟨h.initiator, h.responder, h.toInitiator,
      batch_append h.toResponder fun e he => (by cases he), fun es hes => (by cases hes),
      h.pullingBack⟩
  · split
    · rename_i theirs q hq
      have hto := h.toInitiator
      rw [hq] at hto
      refine ⟨h.initiator, h.responder, fun f hf => hto f (List.mem_cons_of_mem _ hf),
        h.toResponder, fun es hes => ?_, h.pullingBack⟩
      cases hes
      exact hto _ List.mem_cons_self
    · rename_i f q hq
      have hto := h.toInitiator
      rw [hq] at hto
      exact ⟨h.initiator, h.responder, fun f hf => hto f (List.mem_cons_of_mem _ hf),
        h.toResponder, fun es hes => (by cases hes), h.pullingBack⟩
    · exact h
  · rename_i e rest hpc
    have hpull := h.pulling _ hpc
    refine ⟨fun x hx => ?_, h.responder, h.toInitiator, h.toResponder, fun es hes => ?_,
      h.pullingBack⟩
    · obtain hx | ⟨rfl, -⟩ := Roster.mem_mergeEntry hx
      · exact h.initiator x hx
      · exact hpull x List.mem_cons_self
    · cases hes
      exact fun x hx => hpull x (List.mem_cons_of_mem _ hx)
  · exact ⟨h.initiator, h.responder, h.toInitiator, batch_append h.toResponder h.initiator,
      fun es hes => (by cases hes), h.pullingBack⟩
  · exact h

theorem From.responderStep (h : From S x) : From S (x.responderStep pk) := by
  unfold Exchange.responderStep
  split
  · split
    · rename_i d q hq
      have hto := h.toResponder
      rw [hq] at hto
      have htail : ∀ f ∈ q, ∀ e ∈ f.batch, e ∈ S := fun f hf => hto f (List.mem_cons_of_mem _ hf)
      split_ifs
      · exact ⟨h.initiator, h.responder,
          batch_append h.toInitiator fun e he => (by cases he), htail, h.pulling,
          fun es hes => (by cases hes)⟩
      · exact ⟨h.initiator, h.responder, h.toInitiator, htail, h.pulling,
          fun es hes => (by cases hes)⟩
    · rename_i f q hq
      have hto := h.toResponder
      rw [hq] at hto
      exact ⟨h.initiator, h.responder, h.toInitiator,
        fun f hf => hto f (List.mem_cons_of_mem _ hf), h.pulling, fun es hes => (by cases hes)⟩
    · exact h
  · exact ⟨h.initiator, h.responder, batch_append h.toInitiator h.responder, h.toResponder,
      h.pulling, fun es hes => (by cases hes)⟩
  · split
    · rename_i theirs q hq
      have hto := h.toResponder
      rw [hq] at hto
      refine ⟨h.initiator, h.responder, h.toInitiator,
        fun f hf => hto f (List.mem_cons_of_mem _ hf), h.pulling, fun es hes => ?_⟩
      cases hes
      exact hto _ List.mem_cons_self
    · rename_i f q hq
      have hto := h.toResponder
      rw [hq] at hto
      exact ⟨h.initiator, h.responder, h.toInitiator,
        fun f hf => hto f (List.mem_cons_of_mem _ hf), h.pulling, fun es hes => (by cases hes)⟩
    · exact h
  · rename_i e rest hpc
    have hpull := h.pullingBack _ hpc
    refine ⟨h.initiator, fun x hx => ?_, h.toInitiator, h.toResponder, h.pulling,
      fun es hes => ?_⟩
    · obtain hx | ⟨rfl, -⟩ := Roster.mem_mergeEntry hx
      · exact h.responder x hx
      · exact hpull x List.mem_cons_self
    · cases hes
      exact fun x hx => hpull x (List.mem_cons_of_mem _ hx)
  · exact ⟨h.initiator, h.responder, h.toInitiator, h.toResponder, h.pulling,
      fun es hes => (by cases hes)⟩
  · exact h

theorem From.step (h : From S x) {ev : Event} (hev : ev.Alone) : From S (x.step pk ev) := by
  cases ev with
  | turn side =>
    cases side with
    | initiator => exact h.initiatorStep
    | responder => exact h.responderStep
  | merge side entry => exact absurd hev id
  | forge side frame => exact absurd hev id

/-! ### Every roster stays verified -/

/-- One step of the initiator changes its own roster only, and by a merge. -/
theorem initiatorStep_rosters (pk : AdminPubKey) (x : Exchange) :
    (x.initiatorStep pk).responder = x.responder ∧
      ((x.initiatorStep pk).initiator = x.initiator ∨
        ∃ e, (x.initiatorStep pk).initiator = (x.initiator.mergeEntry e pk).1) := by
  unfold Exchange.initiatorStep
  split
  · exact ⟨rfl, .inl rfl⟩
  · split <;> exact ⟨rfl, .inl rfl⟩
  · exact ⟨rfl, .inr ⟨_, rfl⟩⟩
  · exact ⟨rfl, .inl rfl⟩
  · exact ⟨rfl, .inl rfl⟩

/-- One step of the responder changes its own roster only, and by a merge. -/
theorem responderStep_rosters (pk : AdminPubKey) (x : Exchange) :
    (x.responderStep pk).initiator = x.initiator ∧
      ((x.responderStep pk).responder = x.responder ∨
        ∃ e, (x.responderStep pk).responder = (x.responder.mergeEntry e pk).1) := by
  unfold Exchange.responderStep
  split
  · split
    · split_ifs <;> exact ⟨rfl, .inl rfl⟩
    · exact ⟨rfl, .inl rfl⟩
    · exact ⟨rfl, .inl rfl⟩
  · exact ⟨rfl, .inl rfl⟩
  · split <;> exact ⟨rfl, .inl rfl⟩
  · exact ⟨rfl, .inr ⟨_, rfl⟩⟩
  · exact ⟨rfl, .inl rfl⟩
  · exact ⟨rfl, .inl rfl⟩

theorem verified_step (hi : x.initiator.Verified pk) (hr : x.responder.Verified pk) (ev : Event) :
    (x.step pk ev).initiator.Verified pk ∧ (x.step pk ev).responder.Verified pk := by
  cases ev with
  | turn side =>
    cases side with
    | initiator =>
      obtain ⟨hresp, heq | ⟨e, heq⟩⟩ := initiatorStep_rosters pk x
      · exact ⟨by rw [Exchange.step, heq]; exact hi, by rw [Exchange.step, hresp]; exact hr⟩
      · exact ⟨by rw [Exchange.step, heq]; exact hi.mergeEntry e,
          by rw [Exchange.step, hresp]; exact hr⟩
    | responder =>
      obtain ⟨hinit, heq | ⟨e, heq⟩⟩ := responderStep_rosters pk x
      · exact ⟨by rw [Exchange.step, hinit]; exact hi, by rw [Exchange.step, heq]; exact hr⟩
      · exact ⟨by rw [Exchange.step, hinit]; exact hi,
          by rw [Exchange.step, heq]; exact hr.mergeEntry e⟩
  | merge side entry =>
    cases side with
    | initiator => exact ⟨hi.mergeEntry entry, hr⟩
    | responder => exact ⟨hi, hr.mergeEntry entry⟩
  | forge side frame =>
    cases side with
    | initiator => exact ⟨hi, hr⟩
    | responder => exact ⟨hi, hr⟩

/-! ### The exchange -/

/-- When both sides have finished, both have the join. -/
theorem Inv.join_le (h : Inv pk a b x) (hd : x.DigestApart) (hdone : x.Done) :
    a ⊔ b ≤ x.initiator.ranks ∧ a ⊔ b ≤ x.responder.ranks := by
  obtain ⟨-, -, -, -, hphase⟩ := h
  obtain ⟨hi, hr⟩ := hdone
  cases hphase with
  | exchanged hi' hr' => exact ⟨hi', hr'⟩
  | synced hs => exact hs.ranks_eq hd
  | start => cases hi
  | digestSent => cases hi
  | inSync => cases hi
  | differing => cases hi
  | pushed => cases hi
  | pulling => cases hi
  | pushedBack => cases hr
  | pullingBack => cases hr

/-- An `InSync` was answered to a digest, and by an equal one. -/
theorem Inv.answered (h : Inv pk a b x) {σ : Roster} (hσ : x.answered = some σ) :
    ∃ ρ, x.offered = some ρ ∧ ρ.digest = σ.digest := by
  obtain ⟨-, -, -, -, hphase⟩ := h
  cases hphase with
  | inSync hs =>
    obtain ⟨ρ, σ', ho, hn, heq, -⟩ := hs
    cases hn.symm.trans hσ
    exact ⟨ρ, ho, heq⟩
  | synced hs =>
    obtain ⟨ρ, σ', ho, hn, heq, -⟩ := hs
    cases hn.symm.trans hσ
    exact ⟨ρ, ho, heq⟩
  | _ => cases hσ

/-- **One gossip exchange converges.**  From rosters of verifying entries, and under one admin key:
whatever else is merged meanwhile, both sides finish at or above the join of the two starting
rosters; if nothing else is merged they finish at the join, with the same winners and equal digests;
`InSync` is answered only to the digest of a roster with the responder's winners; and whatever the
frames contain, no entry that does not verify enters either roster. -/
theorem exchange_converges (pk : AdminPubKey) (i₀ r₀ : Roster) (hi : i₀.Verified pk)
    (hr : r₀.Verified pk) :
    (∀ x, ((system pk).restrict fun _ ev => ev.Honest).Reach (opening i₀ r₀) x →
        x.DigestApart →
      (x.Done → i₀.ranks ⊔ r₀.ranks ≤ x.initiator.ranks ∧
        i₀.ranks ⊔ r₀.ranks ≤ x.responder.ranks) ∧
      ∀ σ, x.answered = some σ → ∃ ρ, x.offered = some ρ ∧
        ∀ n, (ρ.get n).map SignedEntry.canonicalBytes = (σ.get n).map SignedEntry.canonicalBytes) ∧
    (∀ x, ((system pk).restrict fun _ ev => ev.Alone).Reach (opening i₀ r₀) x →
        x.DigestApart → x.Done →
      Roster.EntriesApart {e | e ∈ i₀.allEntries ∨ e ∈ r₀.allEntries} →
      x.initiator.ranks = i₀.ranks ⊔ r₀.ranks ∧ x.responder.ranks = i₀.ranks ⊔ r₀.ranks ∧
        (∀ n, (x.initiator.get n).map SignedEntry.canonicalBytes =
          (x.responder.get n).map SignedEntry.canonicalBytes) ∧
        x.initiator.digest = x.responder.digest) ∧
    ∀ x, (system pk).Reach (opening i₀ r₀) x →
      x.initiator.Verified pk ∧ x.responder.Verified pk := by
  have hinv₀ : Inv pk i₀.ranks r₀.ranks (opening i₀ r₀) :=
    ⟨hi, hr, le_rfl, le_rfl, .start⟩
  refine ⟨fun x hx hd => ?_, fun x hx hd hdone hapart => ?_, fun x hx => ?_⟩
  · have hinv : Inv pk i₀.ranks r₀.ranks x := by
      refine hx.invariant hinv₀ fun s ev s' _ hs hstep => ?_
      obtain ⟨hev, -, rfl⟩ := hstep
      exact hs.step hev
    refine ⟨hinv.join_le hd, fun σ hσ => ?_⟩
    obtain ⟨ρ, hρ, heq⟩ := hinv.answered hσ
    exact ⟨ρ, hρ, Roster.canonical_of_digestBytes (hd ρ hρ σ hσ heq)⟩
  · have hinv : Inv pk i₀.ranks r₀.ranks x ∧
        From {e | e ∈ i₀.allEntries ∨ e ∈ r₀.allEntries} x := by
      refine hx.invariant (I := fun x => Inv pk i₀.ranks r₀.ranks x ∧
        From {e | e ∈ i₀.allEntries ∨ e ∈ r₀.allEntries} x) ⟨hinv₀, ?_⟩ fun s ev s' _ hs hstep => ?_
      · exact ⟨fun e he => .inl he, fun e he => .inr he, fun f hf => (by cases hf),
          fun f hf => (by cases hf), fun es hes => (by cases hes), fun es hes => (by cases hes)⟩
      · obtain ⟨hev, -, rfl⟩ := hstep
        exact ⟨hs.1.step (by cases ev <;> trivial), hs.2.step hev⟩
    obtain ⟨hinv, hfrom⟩ := hinv
    have hge := hinv.join_le hd hdone
    have hle := hfrom.ranks_le
    have hieq := le_antisymm hle.1 hge.1
    have hreq := le_antisymm hle.2 hge.2
    have hcanon := canonical_of_ranks hapart hfrom.initiator hfrom.responder (hieq.trans hreq.symm)
    exact ⟨hieq, hreq, hcanon, Roster.digest_congr hcanon⟩
  · refine hx.invariant (I := fun x => x.initiator.Verified pk ∧ x.responder.Verified pk) ⟨hi, hr⟩
      fun s ev s' _ hs hstep => ?_
    obtain ⟨-, rfl⟩ := hstep
    exact verified_step hs.1 hs.2 ev

end Runs

section Example

attribute [local instance] Blake3.polynomial Roster.polynomialSignature

instance : DecidablePred Event.Alone
  | .turn _ => .isTrue trivial
  | .merge _ _ | .forge _ _ => .isFalse id

/-- A node that has heard of the addition of node 1 only. -/
def hasAdd : Roster := Roster.mergeEntries .empty [Roster.signedEntry 1 .add] 7

/-- A node that has heard of its removal. -/
def hasRemove : Roster := Roster.mergeEntries .empty [Roster.signedEntry 2 .remove] 7

/-- A whole exchange: digest, entries, merge, entries, merge. -/
def wholeExchange : List Event :=
  [.turn .initiator, .turn .responder, .turn .responder, .turn .initiator, .turn .initiator,
    .turn .initiator, .turn .responder, .turn .responder, .turn .responder]

theorem verified_mergeEntries_empty [Blake3] [Ed25519] (es : List SignedEntry) (pk : AdminPubKey) :
    (Roster.mergeEntries .empty es pk).Verified pk := by
  intro n e he
  rw [Roster.mergeEntries_eq] at he
  obtain he | he := Lww.get?_mergeAll he
  · cases he
  · exact (List.mem_filter.1 he).2

theorem exchange_converges_on_removal :
    ((wholeExchange.foldl (step 7) (opening hasAdd hasRemove)).initiator.get 1).map
        SignedEntry.kind = some .remove ∧
      (wholeExchange.foldl (step 7) (opening hasAdd hasRemove)).initiator.digest =
        (wholeExchange.foldl (step 7) (opening hasAdd hasRemove)).responder.digest := by
  refine ⟨by decide +kernel, ?_⟩
  have hreach : ((system 7).restrict fun _ ev => ev.Alone).Reach (opening hasAdd hasRemove)
      (wholeExchange.foldl (step 7) (opening hasAdd hasRemove)) := by
    rw [system, Lts.restrict_ofFun]
    exact .of_foldl .init (by decide +kernel)
  have hanswered : (wholeExchange.foldl (step 7) (opening hasAdd hasRemove)).answered.isNone := by
    decide +kernel
  have hapart : Roster.EntriesApart {e | e ∈ hasAdd.allEntries ∨ e ∈ hasRemove.allEntries} := by
    refine Roster.EntriesApart.of_list (fun e he => List.mem_append.2 he) ?_
    decide +kernel
  refine ((exchange_converges 7 hasAdd hasRemove (verified_mergeEntries_empty _ 7)
    (verified_mergeEntries_empty _ 7)).2.1 _ hreach ?_ ⟨?_, ?_⟩ hapart).2.2.2
  · intro ρ _ σ hσ
    rw [Option.isNone_iff_eq_none.1 hanswered] at hσ
    cases hσ
  · decide +kernel
  · decide +kernel

end Example

end Exchange

end Gossip

end Replicore
