import Replicore.Lib.Lts
import Replicore.Membership.Converge
import Replicore.Membership.Handle

/-!
# Tearing down removed members

The supervisor of `net.rs` reconciles its task map to the effective set whenever membership changed,
and closes the connections of the nodes it drops from the map.  Connections are registered by other
tasks (`register_authenticated`: insert, check the effective set, remove again).  Changes are
signalled on a watch channel, so one wake-up stands for any number of them.

A node that was added, connected and removed between two iterations never was in the task map, and
its connection stays (`connection_survives_removal`).  In every run in which a node is removed from
the effective set only when the supervisor knows of it, or it has no connection, every connection of
a settled state belongs to the effective set (`removal_tears_down`).
-/

namespace Replicore

open Members

namespace Supervision

/-- Where an iteration of `supervise` stands. -/
inductive SupervisorPc
  /-- Read the effective set. -/
  | read
  /-- Spawn, and collect the members that are no longer desired. -/
  | spawn (desired : OrdMap NodeId Peer)
  /-- Abort the task and close the connections of each of them. -/
  | teardown (removed : List NodeId)
  /-- Wait for a change. -/
  | wait
  deriving DecidableEq

/-- Where a call of `register_authenticated` stands, after the insert. -/
inductive RegisterPc
  | check
  | remove

/-- Membership, the connection registry, and the tasks that use them. -/
structure State where
  roster : Roster
  effective : OrdMap NodeId Peer
  /-- The version of the watch channel. -/
  changed : ℕ := 0
  /-- A change was made and not yet signalled. -/
  notifying : Bool := false
  /-- The registry: connections with the node behind each. -/
  conns : List (NodeId × ℕ) := []
  /-- The calls of `register_authenticated` in progress. -/
  registering : OrdMap ℕ ((NodeId × ℕ) × RegisterPc) := .empty
  /-- The task map of the supervisor. -/
  tasks : OrdMap NodeId Peer := .empty
  supervisor : SupervisorPc := .read
  /-- The version of the channel the supervisor has seen. -/
  seen : ℕ := 0
  /-- History: the effective set was read after the last change. -/
  fresh : Bool := false
  /-- History: an iteration that began after the last change is over. -/
  completed : Bool := false

/-- What can happen. -/
inductive Event
  /-- `merge_signed` up to the new effective set, and its signal. -/
  | merge (entry : SignedEntry)
  | notify
  /-- A connection is inserted, inbound or outbound. -/
  | register (t : ℕ) (peer : NodeId) (conn : ℕ)
  /-- The call takes its next step. -/
  | registering (t : ℕ)
  /-- A connection's task ends. -/
  | close (peer : NodeId) (conn : ℕ)
  /-- The supervisor takes its next step. -/
  | supervise

namespace State

/-- `ConnRegistry::insert`. -/
def insertConn (s : State) (peer : NodeId) (conn : ℕ) : State :=
  if (peer, conn) ∈ s.conns then s else { s with conns := s.conns ++ [(peer, conn)] }

/-- `ConnRegistry::remove_if_same`. -/
def removeIfSame (s : State) (peer : NodeId) (conn : ℕ) : State :=
  { s with conns := s.conns.filter fun c => c ≠ (peer, conn) }

/-- `ConnRegistry::close_all`. -/
def closeAll (s : State) (peer : NodeId) : State :=
  { s with conns := s.conns.filter fun c => c.1 ≠ peer }

/-- The node is in the effective set. -/
def IsEffective (s : State) (n : NodeId) : Prop := (s.effective.get? n).isSome

instance (s : State) : DecidablePred s.IsEffective := fun n =>
  inferInstanceAs (Decidable ((s.effective.get? n).isSome = true))

section Steps

variable [Blake3] [Ed25519]

/-- `merge_signed`: the roster, and the effective set recomputed from it. -/
def mergeSigned (cfg : Config) (pk : AdminPubKey) (s : State) (entry : SignedEntry) : State :=
  match s.roster.mergeEntry entry pk with
  | (roster, .applied) =>
    { s with
      roster, effective := effectiveOf cfg.nodeId cfg.peers roster, notifying := true
      fresh := false, completed := false }
  | (_, _) => s

/-- One step of the supervisor. -/
def superviseStep (s : State) : State :=
  match s.supervisor with
  | .read => { s with supervisor := .spawn s.effective, fresh := true }
  | .spawn desired =>
    let tasks := s.tasks.upsertAll desired.entries
    { s with
      tasks
      supervisor := .teardown (tasks.keys.filter fun id => (desired.get? id).isNone) }
  | .teardown (id :: rest) =>
    { s with tasks := s.tasks.erase id, supervisor := .teardown rest }.closeAll id
  | .teardown [] => { s with supervisor := .wait, completed := s.fresh }
  | .wait =>
    -- `changed()` returns once for any number of changes since the last time
    if s.changed ≠ s.seen then { s with seen := s.changed, supervisor := .read } else s

/-- One event.  Merges exclude each other from the effective set's change to the signal. -/
def step (cfg : Config) (pk : AdminPubKey) (s : State) : Event → State
  | .merge entry => if s.notifying then s else s.mergeSigned cfg pk entry
  | .notify => if s.notifying then { s with changed := s.changed + 1, notifying := false } else s
  | .register t peer conn =>
    match s.registering.get? t with
    | none =>
      { s with registering := s.registering.insert t ((peer, conn), .check) }.insertConn peer conn
    | some _ => s
  | .registering t =>
    match s.registering.get? t with
    | some ((peer, conn), .check) =>
      if s.IsEffective peer then { s with registering := s.registering.erase t }
      else { s with registering := s.registering.insert t ((peer, conn), .remove) }
    | some ((peer, conn), .remove) =>
      { s with registering := s.registering.erase t }.removeIfSame peer conn
    | none => s
  | .close peer conn => s.removeIfSame peer conn
  | .supervise => s.superviseStep

/-- The engine after the roster was loaded. -/
def start (cfg : Config) (roster : Roster) : State where
  roster
  effective := effectiveOf cfg.nodeId cfg.peers roster

/-- Every order of the steps. -/
def system (cfg : Config) (pk : AdminPubKey) : Lts State Event :=
  .ofFun (fun _ _ => True) (step cfg pk)

end Steps

/-- The supervisor has completed an iteration that it began after the last change, and may be in a
further one; no registration is in progress. -/
def Settled (s : State) : Prop := s.completed = true ∧ ∀ t, s.registering.get? t = none

/-- The supervisor has the node in its task map, in the set it works from or among those it is about
to tear down. -/
def Known (s : State) (n : NodeId) : Prop :=
  (s.tasks.get? n).isSome ∨
    match s.supervisor with
    | .spawn desired => (desired.get? n).isSome
    | .teardown removed => n ∈ removed
    | _ => False

/-- A registration of the connection is in progress. -/
def InProgress (s : State) (c : NodeId × ℕ) : Prop := ∃ t pc, s.registering.get? t = some (c, pc)

section Runs

variable {s : State}

/-- What the supervisor has made of a set that it read after the last change. -/
def UpToDate (s : State) : SupervisorPc → Prop
  | .spawn desired => desired = s.effective
  | .teardown removed => ∀ n, (s.tasks.get? n).isSome → n ∈ removed ∨ s.IsEffective n
  | .read | .wait => ∀ n, (s.tasks.get? n).isSome → s.IsEffective n

/-- The invariant: every connection is of an effective node, or the supervisor knows of the node, or
the registration is still to be checked. -/
structure Inv (s : State) : Prop where
  conns : ∀ c ∈ s.conns, s.IsEffective c.1 ∨ s.Known c.1 ∨ s.InProgress c
  fresh : s.fresh = true → s.UpToDate s.supervisor
  /-- A further iteration finds nothing to tear down. -/
  completed : s.completed = true → s.fresh = true ∧ ∀ n, s.Known n → s.IsEffective n

/-! ### A step of the supervisor -/

/-- It leaves the effective set and the registrations as they are, and registers nothing. -/
theorem superviseStep_frame (s : State) : s.superviseStep.effective = s.effective ∧
    s.superviseStep.registering = s.registering ∧ ∀ c ∈ s.superviseStep.conns, c ∈ s.conns := by
  unfold State.superviseStep
  split
  · exact ⟨rfl, rfl, fun _ hc => hc⟩
  · exact ⟨rfl, rfl, fun _ hc => hc⟩
  · exact ⟨rfl, rfl, fun _ hc => (List.mem_filter.1 hc).1⟩
  · exact ⟨rfl, rfl, fun _ hc => hc⟩
  · split_ifs <;> exact ⟨rfl, rfl, fun _ hc => hc⟩

theorem isSome_get?_spawned (tasks desired : OrdMap NodeId Peer) (n : NodeId) :
    ((tasks.upsertAll desired.entries).get? n).isSome ↔
      (tasks.get? n).isSome ∨ (desired.get? n).isSome := by
  rw [OrdMap.isSome_get?_upsertAll, ← OrdMap.mem_keys (m := desired)]
  rfl

theorem isSome_get?_aborted {tasks : OrdMap NodeId Peer} {id n : NodeId} :
    ((tasks.erase id).get? n).isSome ↔ id ≠ n ∧ (tasks.get? n).isSome := by
  rw [OrdMap.get?_erase]
  split_ifs with h <;> simp [h]

/-- A node that it knows of stays known, or has no connection any more. -/
theorem known_superviseStep {n : NodeId} (h : s.Known n) :
    s.superviseStep.Known n ∨ ∀ c ∈ s.superviseStep.conns, c.1 ≠ n := by
  unfold Known at h
  unfold State.superviseStep
  cases hpc : s.supervisor with
  | read =>
    rw [hpc] at h
    exact .inl (.inl (h.resolve_right id))
  | spawn desired =>
    rw [hpc] at h
    exact .inl (.inl ((isSome_get?_spawned _ _ n).2 h))
  | teardown removed =>
    rw [hpc] at h
    cases removed with
    | nil => exact .inl (.inl (h.resolve_right List.not_mem_nil))
    | cons id rest =>
      by_cases hn : n = id
      · exact .inr fun c hc => hn ▸ of_decide_eq_true (List.mem_filter.1 hc).2
      · obtain htask | hmem := h
        · exact .inl (.inl (isSome_get?_aborted.2 ⟨Ne.symm hn, htask⟩))
        · exact .inl (.inr ((List.mem_cons.1 hmem).resolve_left hn))
  | wait =>
    rw [hpc] at h
    simp only
    split_ifs
    · exact .inl (.inl (h.resolve_right id))
    · exact .inl (.inl (h.resolve_right id))

/-- It comes to know of effective nodes only. -/
theorem known_of_superviseStep {n : NodeId} (h : s.superviseStep.Known n) :
    s.Known n ∨ s.IsEffective n := by
  unfold State.superviseStep at h
  unfold Known
  cases hpc : s.supervisor with
  | read =>
    rw [hpc] at h
    exact h.imp .inl id
  | spawn desired =>
    rw [hpc] at h
    obtain htask | hmem := h
    · exact .inl ((isSome_get?_spawned _ _ n).1 htask)
    · exact .inl ((isSome_get?_spawned _ _ n).1 (OrdMap.mem_keys.1 (List.mem_filter.1 hmem).1))
  | teardown removed =>
    rw [hpc] at h
    cases removed with
    | nil => exact .inl (.inl (h.resolve_right id))
    | cons id rest =>
      exact .inl (h.imp (fun htask => (isSome_get?_aborted.1 htask).2) (List.mem_cons_of_mem _))
  | wait =>
    rw [hpc] at h
    simp only at h
    split_ifs at h
    · exact .inl (.inl (h.resolve_right id))
    · unfold Known at h
      rw [hpc] at h
      exact .inl h

/-- A set that it read after the last change goes into the task map. -/
theorem upToDate_superviseStep (h : s.fresh = true → s.UpToDate s.supervisor)
    (hfresh : s.superviseStep.fresh = true) :
    s.superviseStep.UpToDate s.superviseStep.supervisor := by
  unfold State.superviseStep at hfresh ⊢
  cases hpc : s.supervisor with
  | read => rfl
  | spawn desired =>
    rw [hpc] at h hfresh
    have hdesired : desired = s.effective := h hfresh
    intro n hn
    by_cases hn' : (desired.get? n).isSome
    · exact .inr (hdesired ▸ hn')
    · exact .inl (List.mem_filter.2 ⟨OrdMap.mem_keys.2 hn, by simpa using hn'⟩)
  | teardown removed =>
    rw [hpc] at h hfresh
    cases removed with
    | nil => exact fun n hn => (h hfresh n hn).resolve_left List.not_mem_nil
    | cons id rest =>
      intro n hn
      obtain ⟨hne, htask⟩ := isSome_get?_aborted.1 hn
      exact (h hfresh n htask).imp_left fun hmem =>
        (List.mem_cons.1 hmem).resolve_left (Ne.symm hne)
  | wait =>
    rw [hpc] at h hfresh
    simp only at hfresh ⊢
    split_ifs at hfresh ⊢
    · exact h hfresh
    · rw [hpc]
      exact h hfresh

/-- An iteration is completed at the end of the teardown. -/
theorem completed_of_superviseStep (h : s.superviseStep.completed = true) :
    s.completed = true ∨ s.superviseStep.supervisor = .wait ∧ s.superviseStep.fresh = true := by
  unfold State.superviseStep at h ⊢
  split at h
  · exact .inl h
  · exact .inl h
  · exact .inl h
  · exact .inr ⟨rfl, h⟩
  · split_ifs at h <;> exact .inl h

/-- Once fresh it stays fresh. -/
theorem fresh_superviseStep (h : s.fresh = true) : s.superviseStep.fresh = true := by
  unfold State.superviseStep
  split
  · rfl
  · exact h
  · exact h
  · exact h
  · split_ifs <;> exact h

theorem Inv.superviseStep (h : Inv s) : Inv s.superviseStep := by
  obtain ⟨heffective, hregistering, hsub⟩ := superviseStep_frame s
  have heff : ∀ n, s.superviseStep.IsEffective n ↔ s.IsEffective n := fun n => by
    rw [IsEffective, heffective, IsEffective]
  have hfresh := upToDate_superviseStep h.fresh
  refine ⟨fun c hc => ?_, hfresh, fun hd => ?_⟩
  · obtain hc' | hknown | hreg := h.conns c (hsub c hc)
    · exact .inl ((heff c.1).2 hc')
    · exact .inr (.inl ((known_superviseStep hknown).resolve_right fun hno => hno c hc rfl))
    · rw [InProgress, hregistering]
      exact .inr (.inr hreg)
  · obtain hd | ⟨hwait, hf⟩ := completed_of_superviseStep hd
    · refine ⟨fresh_superviseStep (h.completed hd).1, fun n hn => (heff n).2 ?_⟩
      exact (known_of_superviseStep hn).elim ((h.completed hd).2 n) id
    · have hdate := hfresh hf
      rw [hwait] at hdate
      refine ⟨hf, fun n hn => hdate n ?_⟩
      rw [Known, hwait] at hn
      exact hn.resolve_right id

/-! ### Runs -/

variable [Blake3] [Ed25519] {cfg : Config} {pk : AdminPubKey}

/-- A merge takes a node with a registered connection out of the effective set only if the
supervisor knows of the node, or the registration is still to be checked. -/
def RemovesKnown (cfg : Config) (pk : AdminPubKey) (s : State) : Event → Prop
  | .merge entry => ∀ c ∈ s.conns, s.IsEffective c.1 →
      (s.mergeSigned cfg pk entry).IsEffective c.1 ∨ s.Known c.1 ∨ s.InProgress c
  | _ => True

/-- A merge changes the roster and the effective set, or nothing. -/
theorem mergeSigned_cases (cfg : Config) (pk : AdminPubKey) (s : State) (entry : SignedEntry) :
    s.mergeSigned cfg pk entry = s ∨ ∃ roster effective, s.mergeSigned cfg pk entry =
      { s with roster, effective, notifying := true, fresh := false, completed := false } := by
  unfold mergeSigned
  split
  · exact .inr ⟨_, _, rfl⟩
  · exact .inl rfl

theorem Inv.mergeSigned (h : Inv s) {entry : SignedEntry}
    (hknown : RemovesKnown cfg pk s (.merge entry)) : Inv (s.mergeSigned cfg pk entry) := by
  have hremoved : ∀ c ∈ s.conns, s.IsEffective c.1 →
      (s.mergeSigned cfg pk entry).IsEffective c.1 ∨ s.Known c.1 ∨ s.InProgress c := hknown
  obtain heq | ⟨roster, effective, heq⟩ := mergeSigned_cases cfg pk s entry
  · rw [heq]
    exact h
  · rw [heq] at hremoved ⊢
    refine ⟨fun c hc => ?_, fun hf => (by cases hf), fun hd => (by cases hd)⟩
    obtain heff | hrest := h.conns c hc
    · exact hremoved c hc heff
    · exact .inr hrest

theorem Inv.step (h : Inv s) {ev : Event} (hknown : RemovesKnown cfg pk s ev) :
    Inv (s.step cfg pk ev) := by
  cases ev with
  | merge entry =>
    simp only [State.step]
    split_ifs
    · exact h
    · exact h.mergeSigned hknown
  | notify =>
    simp only [State.step]
    split_ifs
    · exact ⟨h.conns, h.fresh, h.completed⟩
    · exact h
  | register t peer conn =>
    simp only [State.step]
    split
    · rename_i hfree
      -- registrations in progress stay so, and the new connection has one
      have hreg : ∀ c, s.InProgress c → ∃ t' pc,
          (s.registering.insert t ((peer, conn), .check)).get? t' = some (c, pc) := by
        rintro c ⟨t', pc, hget⟩
        refine ⟨t', pc, ?_⟩
        rw [OrdMap.get?_insert_of_ne _ _ (by rintro rfl; rw [hfree] at hget; cases hget)]
        exact hget
      have hold : ∀ c ∈ s.conns, s.IsEffective c.1 ∨ s.Known c.1 ∨ ∃ t' pc,
          (s.registering.insert t ((peer, conn), .check)).get? t' = some (c, pc) :=
        fun c hc => (h.conns c hc).imp id (Or.imp id (hreg c))
      unfold insertConn
      split_ifs
      · exact ⟨hold, h.fresh, h.completed⟩
      · refine ⟨fun c hc => ?_, h.fresh, h.completed⟩
        obtain hc | hc := List.mem_append.1 hc
        · exact hold c hc
        · obtain rfl := List.mem_singleton.1 hc
          exact .inr (.inr ⟨t, .check, OrdMap.get?_insert_self _ _ _⟩)
    · exact h
  | registering t =>
    simp only [State.step]
    split
    · rename_i peer conn hget
      split_ifs with heff
      · -- the check succeeds: the node is effective
        refine ⟨fun c hc => ?_, h.fresh, h.completed⟩
        obtain heff' | hknown' | ⟨t', pc, hget'⟩ := h.conns c hc
        · exact .inl heff'
        · exact .inr (.inl hknown')
        · by_cases ht : t = t'
          · subst ht
            cases hget.symm.trans hget'
            exact .inl heff
          · exact .inr (.inr ⟨t', pc, (OrdMap.get?_erase_of_ne _ ht).trans hget'⟩)
      · refine ⟨fun c hc => ?_, h.fresh, h.completed⟩
        obtain heff' | hknown' | ⟨t', pc, hget'⟩ := h.conns c hc
        · exact .inl heff'
        · exact .inr (.inl hknown')
        · by_cases ht : t = t'
          · subst ht
            cases hget.symm.trans hget'
            exact .inr (.inr ⟨t, .remove, OrdMap.get?_insert_self _ _ _⟩)
          · exact .inr (.inr ⟨t', pc, (OrdMap.get?_insert_of_ne _ _ ht).trans hget'⟩)
    · rename_i peer conn hget
      refine ⟨fun c hc => ?_, h.fresh, h.completed⟩
      obtain ⟨hc, hne⟩ := List.mem_filter.1 hc
      obtain heff' | hknown' | ⟨t', pc, hget'⟩ := h.conns c hc
      · exact .inl heff'
      · exact .inr (.inl hknown')
      · have ht : t ≠ t' := by
          rintro rfl
          cases hget.symm.trans hget'
          simp at hne
        exact .inr (.inr ⟨t', pc, (OrdMap.get?_erase_of_ne _ ht).trans hget'⟩)
    · exact h
  | close peer conn =>
    exact ⟨fun c hc => h.conns c (List.mem_filter.1 hc).1, h.fresh, h.completed⟩
  | supervise => exact h.superviseStep

/-- **Removal tears down every connection**, as long as no node with a registered connection is
removed that the supervisor does not know of: in every settled state every connection belongs to a
node of the effective set. -/
theorem removal_tears_down {roster : Roster}
    (hrun : ((system cfg pk).restrict (RemovesKnown cfg pk)).Reach (start cfg roster) s)
    (hsettled : s.Settled) : ∀ c ∈ s.conns, s.IsEffective c.1 := by
  have hinv : Inv s := by
    refine hrun.invariant
      ⟨fun c hc => (by cases hc), fun hf => (by cases hf), fun hd => (by cases hd)⟩
      fun s ev s' _ hs hstep => ?_
    obtain ⟨hknown, -, rfl⟩ := hstep
    exact hs.step hknown
  obtain ⟨hdone, hnone⟩ := hsettled
  intro c hc
  obtain heff | hknown | ⟨t, pc, hget⟩ := hinv.conns c hc
  · exact heff
  · exact (hinv.completed hdone).2 c.1 hknown
  · rw [hnone t] at hget
    cases hget

end Runs

section Example

attribute [local instance] Blake3.polynomial Roster.polynomialSignature

open Roster

/-- Node 5, under key 7, without seeds. -/
def nodeFive : Config := ⟨5, some 7, [], []⟩

/-- An iteration of the supervisor that spawns and drops nothing. -/
def iteration : List Event := [.supervise, .supervise, .supervise]

/-- Node 1 is added. -/
def addOne : List Event := [.merge (signedEntry 1 .add), .notify]

/-- Node 1 connects and is checked. -/
def connectOne : List Event := [.register 0 1 0, .registering 0]

/-- Node 1 is removed. -/
def removeOne : List Event := [.merge (signedEntry 2 .remove), .notify]

/-- Node 5 after the events. -/
def nodeFiveAfter (evs : List Event) : State := evs.foldl (step nodeFive 7) (start nodeFive .empty)

theorem registering_of_isEmpty {s : State} (h : s.registering.entries.isEmpty) (t : ℕ) :
    s.registering.get? t = none := by
  rw [OrdMap.get?, List.isEmpty_iff.1 h]
  rfl

/-- The supervisor spawns a task for node 1, and node 1 connects. -/
def connectKnown : List Event := iteration ++ (addOne ++ .supervise :: iteration ++ connectOne)

/-- Node 1 is removed, and the supervisor drops its task. -/
def removeKnown : List Event := removeOne ++ .supervise :: .supervise :: iteration

theorem removal_tears_down_known :
    (nodeFiveAfter (connectKnown ++ removeKnown)).Settled ∧
      ∀ c ∈ (nodeFiveAfter (connectKnown ++ removeKnown)).conns,
        (nodeFiveAfter (connectKnown ++ removeKnown)).IsEffective c.1 := by
  have hsettled : (nodeFiveAfter (connectKnown ++ removeKnown)).Settled :=
    ⟨by decide +kernel, registering_of_isEmpty (by decide +kernel)⟩
  suffices hrun : ((system nodeFive 7).restrict (RemovesKnown nodeFive 7)).Reach
      (start nodeFive .empty) (nodeFiveAfter (connectKnown ++ removeKnown)) from
    ⟨hsettled, removal_tears_down hrun hsettled⟩
  -- only the two merges have something to show: there is no connection, then a known one
  have hadd : RemovesKnown nodeFive 7 (nodeFiveAfter iteration) (.merge (signedEntry 1 .add)) := by
    have hnone : (nodeFiveAfter iteration).conns = [] := by decide +kernel
    intro c hc
    rw [hnone] at hc
    cases hc
  have hremove : RemovesKnown nodeFive 7 (nodeFiveAfter connectKnown)
      (.merge (signedEntry 2 .remove)) := by
    have hone : (nodeFiveAfter connectKnown).conns = [(1, 0)] := by decide +kernel
    intro c hc _
    rw [hone] at hc
    obtain rfl := List.mem_singleton.1 hc
    exact .inr (.inl (.inl (by decide +kernel)))
  rw [system, Lts.restrict_ofFun]
  refine .of_foldl .init ((Lts.AllOk.append ?_ ?_).append ?_)
  · exact ⟨⟨trivial, trivial⟩, ⟨trivial, trivial⟩, ⟨trivial, trivial⟩, trivial⟩
  · exact ⟨⟨hadd, trivial⟩, ⟨trivial, trivial⟩, ⟨trivial, trivial⟩, ⟨trivial, trivial⟩,
      ⟨trivial, trivial⟩, ⟨trivial, trivial⟩, ⟨trivial, trivial⟩, ⟨trivial, trivial⟩, trivial⟩
  · exact ⟨⟨hremove, trivial⟩, ⟨trivial, trivial⟩, ⟨trivial, trivial⟩, ⟨trivial, trivial⟩,
      ⟨trivial, trivial⟩, ⟨trivial, trivial⟩, ⟨trivial, trivial⟩, trivial⟩

/-- **A connection survives the removal of its node**: node 1 is added, connects and is removed
while the supervisor waits, and the one wake-up finds neither a member nor a task. -/
theorem connection_survives_removal :
    ∃ s, (system nodeFive 7).Reach (start nodeFive .empty) s ∧ s.Settled ∧ s.changed = s.seen ∧
      (1, 0) ∈ s.conns ∧ ¬ s.IsEffective 1 := by
  refine ⟨nodeFiveAfter (iteration ++ addOne ++ connectOne ++ removeOne ++ .supervise :: iteration),
    ?_, ⟨by decide +kernel, registering_of_isEmpty (by decide +kernel)⟩, by decide +kernel,
    by decide +kernel, by decide +kernel⟩
  exact .of_foldl .init (by decide +kernel)

end Example

end State

end Supervision

end Replicore
