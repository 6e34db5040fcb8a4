import Mathlib.Data.Finset.Basic
import Mathlib.Data.Finset.Insert
import Replicore.Lib.Lts
import Replicore.Vv.Basic

/-!
# The join lifecycle

`join.rs`: a node is `Joining`, `Syncing` or `Active`, after which of the peers that it expects have
completed their first pull gate or cannot be reached.  The sets change under a lock; a change of the
lifecycle is written to the `meta` table only after the lock is released, so several writes can be on
their way at once, and a write may fail.  A restart forgets the sets and the writes, and restores
`Active` from the table.

* `JoinNode.lifecycle_is_justified` : what is shown, restored or written as `Active` was so once, and
  otherwise the lifecycle is what the sets say;
* `JoinNode.active_is_kept` : `Active` is left by a restart only, and by none once it is durable;
  which it is as soon as the writes are through, if they arrive in order.  If they do not, the
  promotion can be lost (`JoinNode.promotion_lost`).
-/

namespace Replicore

/-- The join lifecycle of a node. -/
inductive Lifecycle
  /-- No peer's first gate has completed yet. -/
  | joining
  /-- Some peers are settled, but not all. -/
  | syncing
  /-- Every expected peer is settled. -/
  | active
  deriving DecidableEq

namespace Lifecycle

/-- The text in the `meta` table. -/
def asStr : Lifecycle → String
  | joining => "joining"
  | syncing => "syncing"
  | active => "active"

/-- Read a text. -/
def fromStr (s : String) : Option Lifecycle :=
  if s = "joining" then some joining
  else if s = "syncing" then some syncing
  else if s = "active" then some active
  else none

@[simp] theorem fromStr_asStr (l : Lifecycle) : fromStr l.asStr = some l := by
  cases l <;> decide

end Lifecycle

/-- The sets, the lifecycle, and the watch channel that publishes it. -/
structure JoinTracker where
  expected : Finset NodeId
  completed : Finset NodeId := ∅
  unreachable : Finset NodeId := ∅
  lifecycle : Lifecycle
  state : Lifecycle
  deriving DecidableEq

namespace JoinTracker

/-- Every expected peer has completed its gate or cannot be reached. -/
def Settled (t : JoinTracker) : Prop := ∀ p ∈ t.expected, p ∈ t.completed ∨ p ∈ t.unreachable

instance (t : JoinTracker) : Decidable t.Settled :=
  Finset.decidableDforallFinset

/-- What the sets say. -/
def next (t : JoinTracker) : Lifecycle :=
  if t.expected = ∅ ∨ t.Settled then .active
  else if t.completed ≠ ∅ ∨ t.unreachable ≠ ∅ then .syncing
  else .joining

/-- Recompute the lifecycle, and publish it if it advanced; the change is handed to the caller. -/
def recompute (t : JoinTracker) : JoinTracker × Option Lifecycle :=
  if t.lifecycle = .active then (t, none)
  else if t.next ≠ t.lifecycle then ({ t with lifecycle := t.next, state := t.next }, some t.next)
  else (t, none)

/-- A tracker for these peers. -/
def new (expected : Finset NodeId) : JoinTracker :=
  let initial := if expected = ∅ then Lifecycle.active else .joining
  { expected, lifecycle := initial, state := initial }

/-- Restore a persisted `Active`. -/
def restore (t : JoinTracker) (stored : Option String) : JoinTracker :=
  if stored.bind Lifecycle.fromStr = some .active then
    { t with lifecycle := .active, state := .active }
  else t

/-- A peer's first pull gate completed. -/
def noteGateComplete (t : JoinTracker) (peer : NodeId) : JoinTracker × Option Lifecycle :=
  recompute { t with
    unreachable := t.unreachable.erase peer, completed := insert peer t.completed }

/-- A peer cannot be reached; one whose gate has completed stays counted. -/
def noteUnreachable (t : JoinTracker) (peer : NodeId) : JoinTracker × Option Lifecycle :=
  if peer ∈ t.completed then (t, none)
  else recompute { t with unreachable := insert peer t.unreachable }

/-- Other peers are expected. -/
def setExpected (t : JoinTracker) (expected : Finset NodeId) : JoinTracker × Option Lifecycle :=
  recompute { t with expected }

/-- Without expected peers the node is alone, and all of them are settled. -/
theorem next_eq_active {t : JoinTracker} : t.next = .active ↔ t.Settled := by
  unfold next
  by_cases h : t.expected = ∅ ∨ t.Settled
  · refine iff_of_true (if_pos h) (h.elim (fun he p hp => ?_) id)
    rw [he] at hp
    exact absurd hp (Finset.notMem_empty p)
  · rw [if_neg h]
    refine iff_of_false ?_ fun hs => h (.inr hs)
    split_ifs
    · nofun
    · nofun

/-- The lifecycle is published, it is what the sets say unless the node is `Active`, and no peer
counts twice. -/
structure Ok (t : JoinTracker) : Prop where
  published : t.state = t.lifecycle
  classified : t.lifecycle ≠ .active → t.lifecycle = t.next
  disjoint : Disjoint t.completed t.unreachable

/-- What a recomputation does: an `Active` node stays as it is; otherwise the lifecycle becomes what
the sets say, and is handed on if that is new. -/
theorem recompute_cases (t : JoinTracker) :
    (t.lifecycle = .active ∧ t.recompute = (t, none)) ∨
    (t.lifecycle ≠ .active ∧ t.next = t.lifecycle ∧ t.recompute = (t, none)) ∨
    (t.lifecycle ≠ .active ∧ t.next ≠ t.lifecycle ∧
      t.recompute = ({ t with lifecycle := t.next, state := t.next }, some t.next)) := by
  unfold recompute
  by_cases ha : t.lifecycle = .active
  · exact .inl ⟨ha, if_pos ha⟩
  · by_cases hn : t.next = t.lifecycle
    · exact .inr (.inl ⟨ha, hn, by rw [if_neg ha, if_neg (not_not.2 hn)]⟩)
    · exact .inr (.inr ⟨ha, hn, by rw [if_neg ha, if_pos hn]⟩)

/-- What a call does to the lifecycle: an `Active` node stays `Active` and nothing is handed on;
otherwise the sets say what the lifecycle is, and it is handed on if it is new. -/
structure Effect (t t' : JoinTracker) (changed : Option Lifecycle) : Prop where
  ok : t'.Ok
  active : t.lifecycle = .active → t'.lifecycle = .active
  handed : changed = if t'.lifecycle = t.lifecycle then none else some t'.lifecycle
  settled : t.lifecycle ≠ .active → t'.lifecycle = .active → t'.Settled

theorem effect_recompute {t t₁ : JoinTracker} (hl : t₁.lifecycle = t.lifecycle)
    (hs : t₁.state = t₁.lifecycle) (hd : Disjoint t₁.completed t₁.unreachable) :
    Effect t t₁.recompute.1 t₁.recompute.2 := by
  obtain ⟨ha, heq⟩ | ⟨ha, hn, heq⟩ | ⟨ha, hn, heq⟩ := recompute_cases t₁
  · rw [heq]
    exact ⟨⟨hs, fun h => absurd ha h, hd⟩, fun _ => ha, (if_pos hl).symm,
      fun h => absurd (hl ▸ ha) h⟩
  · rw [heq]
    exact ⟨⟨hs, fun _ => hn.symm, hd⟩, fun h => absurd (hl.trans h) ha, (if_pos hl).symm,
      fun _ h => absurd h ha⟩
  · rw [heq]
    refine ⟨⟨rfl, fun _ => rfl, hd⟩, fun h => absurd (hl.trans h) ha, ?_, fun _ h => ?_⟩
    · exact (if_neg fun h => hn (h.trans hl.symm)).symm
    · exact next_eq_active.1 h

variable {t : JoinTracker}

theorem effect_noteGateComplete (h : t.Ok) (peer : NodeId) :
    Effect t (t.noteGateComplete peer).1 (t.noteGateComplete peer).2 := by
  refine effect_recompute rfl h.published ?_
  rw [Finset.disjoint_insert_left]
  exact ⟨Finset.notMem_erase peer _, h.disjoint.mono_right (Finset.erase_subset _ _)⟩

theorem effect_noteUnreachable (h : t.Ok) (peer : NodeId) :
    Effect t (t.noteUnreachable peer).1 (t.noteUnreachable peer).2 := by
  unfold noteUnreachable
  split_ifs with hc
  · exact ⟨h, id, (if_pos rfl).symm, fun hne ha => absurd ha hne⟩
  · refine effect_recompute rfl h.published ?_
    rw [Finset.disjoint_insert_right]
    exact ⟨hc, h.disjoint⟩

theorem effect_setExpected (h : t.Ok) (expected : Finset NodeId) :
    Effect t (t.setExpected expected).1 (t.setExpected expected).2 :=
  effect_recompute rfl h.published h.disjoint

/-- A tracker at startup: alone, or with a persisted `Active`, it is `Active`. -/
theorem restore_new (expected : Finset NodeId) (stored : Option String) :
    ((new expected).restore stored).Ok ∧
      (((new expected).restore stored).lifecycle = .active ↔
        expected = ∅ ∨ stored.bind Lifecycle.fromStr = some .active) := by
  unfold restore
  split_ifs with hst
  · exact ⟨⟨rfl, fun h => absurd rfl h, Finset.disjoint_empty_left _⟩, by simp [hst]⟩
  · by_cases he : expected = ∅
    · exact ⟨⟨rfl, fun h => absurd (if_pos he) h, Finset.disjoint_empty_left _⟩,
        by simp [new, he]⟩
    · refine ⟨⟨rfl, fun _ => ?_, Finset.disjoint_empty_left _⟩, by simp [new, he, hst]⟩
      have hnot : ¬ (new expected).Settled := by
        obtain ⟨p, hp⟩ := Finset.nonempty_iff_ne_empty.2 he
        intro hs
        obtain h | h := hs p hp
        · exact absurd h (Finset.notMem_empty p)
        · exact absurd h (Finset.notMem_empty p)
      have hexp : (new expected).expected ≠ ∅ := he
      rw [next, if_neg (not_or.2 ⟨hexp, hnot⟩), if_neg (by simp [new])]
      simp [new, he]

end JoinTracker

/-! ### A node over time -/

/-- The tracker, the entry of the `meta` table, and the writes to it that are on their way. -/
structure JoinNode where
  tracker : JoinTracker
  stored : Option String := none
  writes : List Lifecycle := []
  /-- History: at some time every expected peer was settled. -/
  settledOnce : Bool := false
  /-- History: the peers expected when the node was last started. -/
  bootExpected : Finset NodeId := ∅

/-- What happens next. -/
inductive JoinEvent
  | gateComplete (peer : NodeId)
  | peerUnreachable (peer : NodeId)
  | expect (peers : Finset NodeId)
  /-- The `k`-th of the writes on their way arrives, or fails. -/
  | write (k : ℕ) (arrives : Bool)
  /-- The node is killed and starts again. -/
  | restart (expected : Finset NodeId)

namespace JoinNode

/-- A node that starts. -/
def boot (expected : Finset NodeId) (stored : Option String) (settledOnce : Bool) : JoinNode where
  tracker := (JoinTracker.new expected).restore stored
  stored := stored
  settledOnce := settledOnce || expected = ∅
  bootExpected := expected

/-- A call on the tracker; what it hands on is to be written. -/
def call (s : JoinNode) (r : JoinTracker × Option Lifecycle) : JoinNode :=
  { s with
    tracker := r.1, writes := s.writes ++ r.2.toList
    settledOnce := s.settledOnce || r.1.Settled }

/-- One event. -/
def step (s : JoinNode) : JoinEvent → JoinNode
  | .gateComplete peer => s.call (s.tracker.noteGateComplete peer)
  | .peerUnreachable peer => s.call (s.tracker.noteUnreachable peer)
  | .expect peers => s.call (s.tracker.setExpected peers)
  | .write k arrives =>
    match s.writes[k]? with
    | none => s
    | some l =>
      { s with
        writes := s.writes.eraseIdx k, stored := if arrives then some l.asStr else s.stored }
  | .restart expected => boot expected s.stored s.settledOnce

/-- All runs. -/
def runs : Lts JoinNode JoinEvent := .ofFun (fun _ _ => True) step

/-- Writes arrive in order, and none fails. -/
def InOrder (_ : JoinNode) : JoinEvent → Prop
  | .write k arrives => k = 0 ∧ arrives = true
  | _ => True

/-- The event is no restart. -/
def Running (_ : JoinNode) : JoinEvent → Prop
  | .restart _ => False
  | _ => True

/-! ### Invariants -/

variable {s : JoinNode} {event : JoinEvent}

/-- What every run keeps. -/
structure Inv (s : JoinNode) : Prop where
  ok : s.tracker.Ok
  active : s.tracker.lifecycle = .active → s.settledOnce = true
  writes : .active ∈ s.writes → s.settledOnce = true
  stored : s.stored.bind Lifecycle.fromStr = some .active → s.settledOnce = true

theorem inv_boot {expected : Finset NodeId} {stored : Option String} {settledOnce : Bool}
    (h : stored.bind Lifecycle.fromStr = some .active → settledOnce = true) :
    Inv (boot expected stored settledOnce) := by
  obtain ⟨hok, hactive⟩ := JoinTracker.restore_new expected stored
  refine ⟨hok, fun ha => ?_, fun hw => absurd hw List.not_mem_nil, fun hs => ?_⟩
  · obtain he | hs := hactive.1 ha
    · simp [boot, he]
    · simp [boot, h hs]
  · simp [boot, h hs]

/-- A call hands on `Active` only at a time when every expected peer is settled. -/
theorem Inv.call (h : Inv s) {r : JoinTracker × Option Lifecycle}
    (he : JoinTracker.Effect s.tracker r.1 r.2) : Inv (s.call r) := by
  have hactive : r.1.lifecycle = .active → (s.call r).settledOnce = true := fun ha => by
    by_cases hold : s.tracker.lifecycle = .active
    · simp [JoinNode.call, h.active hold]
    · simp [JoinNode.call, he.settled hold ha]
  refine ⟨he.ok, hactive, fun hw => ?_, fun hs => ?_⟩
  · obtain hw | hw := List.mem_append.1 hw
    · simp [JoinNode.call, h.writes hw]
    · rw [Option.mem_toList, he.handed] at hw
      split_ifs at hw
      exact hactive (Option.some.inj hw)
  · simp [JoinNode.call, h.stored hs]

theorem Inv.step (h : Inv s) (event : JoinEvent) : Inv (s.step event) := by
  cases event with
  | gateComplete peer => exact h.call (JoinTracker.effect_noteGateComplete h.ok peer)
  | peerUnreachable peer => exact h.call (JoinTracker.effect_noteUnreachable h.ok peer)
  | expect peers => exact h.call (JoinTracker.effect_setExpected h.ok peers)
  | write k arrives =>
    simp only [JoinNode.step]
    split
    · exact h
    · rename_i l hl
      refine ⟨h.ok, h.active, fun hw => h.writes (List.mem_of_mem_eraseIdx hw), fun hs => ?_⟩
      cases arrives with
      | false => exact h.stored hs
      | true =>
        have hl' : l = .active := by simpa using hs
        exact h.writes (hl' ▸ List.mem_of_getElem? hl)
  | restart expected => exact inv_boot h.stored

theorem inv_reach {expected : Finset NodeId} (h : runs.Reach (boot expected none false) s) :
    Inv s := by
  refine h.invariant (inv_boot nofun) fun s event s' _ hs hstep => ?_
  obtain ⟨-, rfl⟩ := hstep
  exact hs.step event

/-- **The lifecycle is justified.**  Whatever gates complete, peers fail, memberships change, writes
arrive late or not at all, and however often the node restarts: the published lifecycle is that of
the tracker; a node that is not `Active` has an expected peer that is not settled, and is `Syncing`
exactly if some peer is; no peer is both completed and unreachable; and `Active` is only ever shown,
written or stored if at some time every expected peer was settled. -/
theorem lifecycle_is_justified (expected : Finset NodeId) :
    ∀ s, runs.Reach (boot expected none false) s →
      s.tracker.state = s.tracker.lifecycle ∧
      (s.tracker.lifecycle ≠ .active →
        (∃ p ∈ s.tracker.expected, p ∉ s.tracker.completed ∧ p ∉ s.tracker.unreachable) ∧
        (s.tracker.lifecycle = .syncing ↔
          s.tracker.completed ≠ ∅ ∨ s.tracker.unreachable ≠ ∅)) ∧
      Disjoint s.tracker.completed s.tracker.unreachable ∧
      (s.tracker.lifecycle = .active ∨ .active ∈ s.writes ∨
          s.stored = some Lifecycle.active.asStr → s.settledOnce = true) := by
  intro s hr
  have h := inv_reach hr
  refine ⟨h.ok.published, fun hne => ?_, h.ok.disjoint, ?_⟩
  · have hclass := h.ok.classified hne
    have hnot : ¬ s.tracker.Settled := fun hs =>
      hne (hclass.trans (JoinTracker.next_eq_active.2 hs))
    constructor
    · by_contra hall
      push Not at hall
      exact hnot fun p hp => or_iff_not_imp_left.2 (hall p hp)
    · have hempty : s.tracker.expected ≠ ∅ := fun he => hnot fun p hp =>
        absurd (he ▸ hp) (Finset.notMem_empty p)
      rw [hclass, JoinTracker.next, if_neg (not_or.2 ⟨hempty, hnot⟩)]
      split_ifs with hsome
      · exact iff_of_true rfl hsome
      · exact iff_of_false nofun hsome
  · rintro (ha | hw | hs)
    · exact h.active ha
    · exact h.writes hw
    · exact h.stored (by simp [hs])

/-- One of two peers has completed its gate: the node is `Syncing`, for a reason. -/
theorem lifecycle_is_justified_halfway :
    ∃ p ∈ ({1, 2} : Finset NodeId),
      p ∉ (([.gateComplete 1].foldl step (boot {1, 2} none false)).tracker.completed) := by
  have hr : runs.Reach (boot {1, 2} none false)
      ([.gateComplete 1].foldl step (boot {1, 2} none false)) :=
    .of_foldl .init ⟨trivial, trivial⟩
  obtain ⟨-, hne, -⟩ := lifecycle_is_justified {1, 2} _ hr
  obtain ⟨p, hp, hnot, -⟩ := (hne (by decide +kernel)).1
  exact ⟨p, hp, hnot⟩

/-! ### What lasts -/

/-- `Active` is shown and stored, and nothing else is on its way. -/
def Lasting (s : JoinNode) : Prop :=
  s.tracker.lifecycle = .active ∧ s.stored = some Lifecycle.active.asStr ∧
    ∀ l ∈ s.writes, l = .active

theorem Lasting.call (h : Lasting s) {r : JoinTracker × Option Lifecycle}
    (he : JoinTracker.Effect s.tracker r.1 r.2) : Lasting (s.call r) := by
  obtain ⟨ha, hs, hw⟩ := h
  have ha' := he.active ha
  have hnone : r.2 = none := by rw [he.handed, if_pos (ha'.trans ha.symm)]
  refine ⟨ha', hs, fun l hl => hw l ?_⟩
  simpa [JoinNode.call, hnone] using hl

theorem Lasting.step (h : Lasting s) (hinv : Inv s) (event : JoinEvent) :
    Lasting (s.step event) := by
  cases event with
  | gateComplete peer => exact h.call (JoinTracker.effect_noteGateComplete hinv.ok peer)
  | peerUnreachable peer => exact h.call (JoinTracker.effect_noteUnreachable hinv.ok peer)
  | expect peers => exact h.call (JoinTracker.effect_setExpected hinv.ok peers)
  | write k arrives =>
    obtain ⟨ha, hs, hw⟩ := h
    simp only [JoinNode.step]
    split
    · exact ⟨ha, hs, hw⟩
    · rename_i l hl
      refine ⟨ha, ?_, fun l' hl' => hw l' (List.mem_of_mem_eraseIdx hl')⟩
      cases arrives with
      | false => exact hs
      | true => exact congrArg _ (congrArg _ (hw l (List.mem_of_getElem? hl)))
  | restart expected =>
    obtain ⟨-, hs, -⟩ := h
    have hactive := (JoinTracker.restore_new expected s.stored).2.2 (.inr (by simp [hs]))
    exact ⟨hactive, hs, fun l hl => absurd hl List.not_mem_nil⟩

/-- What the table will say once the writes on their way have arrived in order. -/
def finallyStored (s : JoinNode) : Option String :=
  (s.writes.getLast?.map Lifecycle.asStr).or s.stored

/-- An `Active` node is alone since its start, or the table will say so. -/
def Promised (s : JoinNode) : Prop :=
  s.tracker.lifecycle = .active →
    s.bootExpected = ∅ ∨ s.finallyStored.bind Lifecycle.fromStr = some .active

theorem Promised.call (h : Promised s) {r : JoinTracker × Option Lifecycle}
    (he : JoinTracker.Effect s.tracker r.1 r.2) : Promised (s.call r) := by
  intro ha
  by_cases hold : s.tracker.lifecycle = .active
  · have hsame : r.1.lifecycle = s.tracker.lifecycle := Eq.trans ha hold.symm
    have hnone : r.2 = none := by rw [he.handed, if_pos hsame]
    simpa [JoinNode.call, finallyStored, hnone] using h hold
  · have hsome : r.2 = some .active := by
      rw [he.handed, if_neg fun heq => hold (heq.symm.trans ha)]
      exact congrArg some ha
    right
    simp [JoinNode.call, finallyStored, hsome]

theorem Promised.step (h : Promised s) (hinv : Inv s) (hin : InOrder s event) :
    Promised (s.step event) := by
  cases event with
  | gateComplete peer => exact h.call (JoinTracker.effect_noteGateComplete hinv.ok peer)
  | peerUnreachable peer => exact h.call (JoinTracker.effect_noteUnreachable hinv.ok peer)
  | expect peers => exact h.call (JoinTracker.effect_setExpected hinv.ok peers)
  | write k arrives =>
    obtain ⟨rfl, rfl⟩ := hin
    cases hw : s.writes with
    | nil => simpa [JoinNode.step, hw] using h
    | cons l rest =>
      intro ha
      have hlast : (s.step (.write 0 true)).finallyStored = s.finallyStored := by
        simp only [JoinNode.step, hw, finallyStored, List.getElem?_cons_zero, List.eraseIdx_zero,
          List.tail_cons, if_true]
        cases rest with
        | nil => rfl
        | cons l' rest => simp [List.getLast?_cons]
      have hboot : (s.step (.write 0 true)).bootExpected = s.bootExpected := by
        simp [JoinNode.step, hw]
      rw [hlast, hboot]
      refine h ?_
      simpa [JoinNode.step, hw] using ha
  | restart expected =>
    intro ha
    obtain he | hs := (JoinTracker.restore_new expected s.stored).2.1 ha
    · exact .inl he
    · exact .inr hs

/-- **`Active` is kept.**  In every state that the node can get into: while it does not restart, it
stays `Active`; once `Active` is stored and nothing else is on its way, it is `Active` for good, also
after every restart and whatever peers are expected then; and if writes arrive in order and do not
fail, then an `Active` node with no write on its way that was started with peers to expect has
`Active` stored. -/
theorem active_is_kept (expected : Finset NodeId) :
    (∀ s, runs.Reach (boot expected none false) s → s.tracker.lifecycle = .active →
      (∀ s', (runs.restrict Running).Reach s s' → s'.tracker.lifecycle = .active) ∧
      (s.stored = some Lifecycle.active.asStr → (∀ l ∈ s.writes, l = .active) →
        ∀ s', runs.Reach s s' → s'.tracker.lifecycle = .active ∧
          s'.stored = some Lifecycle.active.asStr)) ∧
    ∀ s, (runs.restrict InOrder).Reach (boot expected none false) s →
      s.tracker.lifecycle = .active → s.bootExpected ≠ ∅ → s.writes = [] →
      s.stored.bind Lifecycle.fromStr = some .active := by
  refine ⟨fun s hr ha => ⟨fun s' hr' => ?_, fun hs hw s' hr' => ?_⟩, fun s hr ha hboot hw => ?_⟩
  · have hboth : Inv s' ∧ s'.tracker.lifecycle = .active := by
      refine hr'.invariant (I := fun s => Inv s ∧ s.tracker.lifecycle = .active)
        ⟨inv_reach hr, ha⟩ fun s event s' _ ⟨hinv, ha⟩ hstep => ?_
      obtain ⟨hrun, -, rfl⟩ := hstep
      refine ⟨hinv.step event, ?_⟩
      cases event with
      | gateComplete peer => exact (JoinTracker.effect_noteGateComplete hinv.ok peer).active ha
      | peerUnreachable peer => exact (JoinTracker.effect_noteUnreachable hinv.ok peer).active ha
      | expect peers => exact (JoinTracker.effect_setExpected hinv.ok peers).active ha
      | write k arrives =>
        simp only [JoinNode.step]
        split
        · exact ha
        · exact ha
      | restart expected => exact absurd hrun id
    exact hboth.2
  · have hboth : Inv s' ∧ Lasting s' := by
      refine hr'.invariant (I := fun s => Inv s ∧ Lasting s) ⟨inv_reach hr, ha, hs, hw⟩
        fun s event s' _ ⟨hinv, hlast⟩ hstep => ?_
      obtain ⟨-, rfl⟩ := hstep
      exact ⟨hinv.step event, hlast.step hinv event⟩
    exact ⟨hboth.2.1, hboth.2.2.1⟩
  · have hboth : Inv s ∧ Promised s := by
      refine hr.invariant (I := fun s => Inv s ∧ Promised s) ⟨inv_boot nofun, fun ha => ?_⟩
        fun s event s' _ ⟨hinv, hprom⟩ hstep => ?_
      · exact ((JoinTracker.restore_new expected none).2.1 ha).imp_right nofun
      · obtain ⟨hin, -, rfl⟩ := hstep
        exact ⟨hinv.step event, hprom.step hinv hin⟩
    have hprom := (hboth.2 ha).resolve_left hboot
    rwa [finallyStored, hw] at hprom

/-- Two peers complete their gates, and the two writes arrive in the other order: the node that was
`Active` starts again as `Joining`. -/
theorem promotion_lost : ∃ s, runs.Reach (boot {1, 2} none false) s ∧
    s.tracker.lifecycle = .active ∧ s.writes = [] ∧
    (s.step (.restart {1, 2})).tracker.lifecycle = .joining :=
  ⟨[.gateComplete 1, .gateComplete 2, .write 1 true, .write 0 true].foldl step
    (boot {1, 2} none false), .of_foldl .init ⟨trivial, trivial, trivial, trivial, trivial⟩,
    by decide +kernel, by decide +kernel, by decide +kernel⟩

/-- A node whose promotion has been stored comes back `Active`. -/
theorem active_is_kept_restart :
    ((([.gateComplete 1, .write 0 true].foldl step (boot {1} none false)).step
      (.restart {1, 2})).tracker.lifecycle) = .active := by
  have hr : runs.Reach (boot {1} none false)
      ([.gateComplete 1, .write 0 true].foldl step (boot {1} none false)) :=
    .of_foldl .init ⟨trivial, trivial, trivial⟩
  exact (((active_is_kept {1}).1 _ hr (by decide +kernel)).2 (by decide +kernel)
    (by decide +kernel) _ (Lts.Reach.init.next ⟨trivial, rfl⟩)).1

end JoinNode

end Replicore
