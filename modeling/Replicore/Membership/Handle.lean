import Mathlib.Data.Char
import Mathlib.Data.Finset.Basic
import Mathlib.Data.List.Lex
import Replicore.Lib.Lts
import Replicore.Membership.Roster

/-!
# The membership handle

`Membership` of `membership.rs`: the roster with the views derived from it, shared by the control
plane, gossip and the supervisor.  Every lock is held for one read or one swap only, so a call is a
sequence of atomic steps, and `Daemon` runs any number of calls of `merge_signed` and
`apply_reload` in any interleaving.  `merge_serial` is the one lock a call holds across steps.

* `seedPeers`, `overlay`, `fingerprints` : the stages of `recompute`;
* `MergePc`, `ReloadPc` : where a call stands, with its local variables;
* `Daemon.step` : one atomic step of one call.

The effective set is characterised by `get?_effectiveOf`.
-/

namespace Replicore

/-- A peer to dial. -/
structure Peer where
  nodeId : NodeId
  addr : SocketAddr
  fingerprint : Fingerprint
  deriving DecidableEq

/-- What membership reads of the configuration. -/
structure Config where
  nodeId : NodeId
  adminPubkey : Option AdminPubKey
  rosterPath : Path
  peers : List Peer

namespace Members

/-- The seeds by node id, the last of several winning. -/
def seedPeers (seeds : List Peer) : OrdMap NodeId Peer :=
  seeds.foldl (fun eff seed => eff.insert seed.nodeId seed) .empty

/-- The peer an entry announces. -/
def peerOf (e : SignedEntry) : Peer := ⟨e.nodeId, e.addr, e.fingerprint⟩

/-- One roster entry taken into the effective set; entries about ourselves are skipped. -/
def overlayEntry (ourNodeId : NodeId) (eff : OrdMap NodeId Peer) (entry : SignedEntry) :
    OrdMap NodeId Peer :=
  if entry.nodeId = ourNodeId then eff
  else match entry.kind with
    | .add => eff.insert entry.nodeId (peerOf entry)
    | .remove => eff.erase entry.nodeId

/-- Signed additions override, signed removals drop. -/
def overlay (ourNodeId : NodeId) (eff : OrdMap NodeId Peer) (roster : Roster) :
    OrdMap NodeId Peer :=
  roster.allEntries.foldl (overlayEntry ourNodeId) eff

/-- The fingerprints of a set of peers. -/
def fingerprints (eff : OrdMap NodeId Peer) : Finset Fingerprint :=
  (eff.entries.map fun e => e.2.fingerprint).toFinset

/-- The seeds overridden by the roster. -/
def effectiveOf (ourNodeId : NodeId) (seeds : List Peer) (roster : Roster) : OrdMap NodeId Peer :=
  overlay ourNodeId (seedPeers seeds) roster

section Effective

variable {ourNodeId : NodeId} {eff : OrdMap NodeId Peer} {n : NodeId}

theorem get?_overlayEntry_of_ne {e : SignedEntry} (h : e.nodeId ≠ n) :
    (overlayEntry ourNodeId eff e).get? n = eff.get? n := by
  unfold overlayEntry
  split_ifs
  · rfl
  · cases e.kind with
    | add => exact OrdMap.get?_insert_of_ne _ _ h
    | remove => exact OrdMap.get?_erase_of_ne _ h

theorem get?_overlayEntry_self {e : SignedEntry} (h : e.nodeId ≠ ourNodeId) :
    (overlayEntry ourNodeId eff e).get? e.nodeId =
      match e.kind with
      | .add => some (peerOf e)
      | .remove => none := by
  rw [overlayEntry, if_neg h]
  cases e.kind with
  | add => exact OrdMap.get?_insert_self _ _ _
  | remove => exact OrdMap.get?_erase_self _ _

/-- A node that no entry is about keeps its place. -/
theorem get?_foldl_overlayEntry {es : List SignedEntry} (h : ∀ e ∈ es, e.nodeId ≠ n) :
    (es.foldl (overlayEntry ourNodeId) eff).get? n = eff.get? n := by
  induction es generalizing eff with
  | nil => rfl
  | cons e es ih =>
    rw [List.foldl_cons, ih fun x hx => h x (List.mem_cons_of_mem _ hx)]
    exact get?_overlayEntry_of_ne (h e List.mem_cons_self)

/-- Entries about ourselves do nothing. -/
theorem get?_foldl_overlayEntry_our {es : List SignedEntry} :
    (es.foldl (overlayEntry ourNodeId) eff).get? ourNodeId = eff.get? ourNodeId := by
  induction es generalizing eff with
  | nil => rfl
  | cons e es ih =>
    rw [List.foldl_cons, ih]
    by_cases h : e.nodeId = ourNodeId
    · rw [overlayEntry, if_pos h]
    · exact get?_overlayEntry_of_ne h

theorem get?_foldl_overlayEntry_mem {es : List SignedEntry} {e : SignedEntry} (he : e ∈ es)
    (hd : (es.map SignedEntry.nodeId).Nodup) (hour : e.nodeId ≠ ourNodeId) :
    (es.foldl (overlayEntry ourNodeId) eff).get? e.nodeId =
      match e.kind with
      | .add => some (peerOf e)
      | .remove => none := by
  induction es generalizing eff with
  | nil => cases he
  | cons x es ih =>
    rw [List.map_cons, List.nodup_cons] at hd
    rw [List.foldl_cons]
    obtain rfl | he := List.mem_cons.1 he
    · rw [get?_foldl_overlayEntry, get?_overlayEntry_self hour]
      intro y hy heq
      exact hd.1 (heq ▸ List.mem_map_of_mem hy)
    · exact ih he hd.2

/-- The last seed of a node. -/
theorem get?_seedPeers (seeds : List Peer) (n : NodeId) :
    (seedPeers seeds).get? n = seeds.findRev? fun p => p.nodeId = n := by
  have hfold : ∀ (seeds : List Peer) (eff : OrdMap NodeId Peer),
      (seeds.foldl (fun eff seed => eff.insert seed.nodeId seed) eff).get? n =
        (seeds.findRev? fun p => p.nodeId = n).or (eff.get? n) := by
    intro seeds
    induction seeds with
    | nil => intro eff; rfl
    | cons p seeds ih =>
      intro eff
      rw [List.foldl_cons, ih, OrdMap.get?_insert, List.findRev?]
      cases seeds.findRev? fun p => p.nodeId = n with
      | some q => rfl
      | none => by_cases h : p.nodeId = n <;> simp [h]
  rw [seedPeers, hfold, OrdMap.get?_empty, Option.or_none]

/-- The order of the seeds does not matter if no node is given twice. -/
theorem seedPeers_perm {seeds seeds' : List Peer} (h : seeds.Perm seeds')
    (hd : (seeds.map (·.nodeId)).Nodup) : seedPeers seeds = seedPeers seeds' := by
  refine h.foldl_eq' (fun p hp q hq eff => ?_) OrdMap.empty
  by_cases hpq : p.nodeId = q.nodeId
  · rw [List.inj_on_of_nodup_map hd hp hq hpq]
  · refine OrdMap.ext_get? fun n => ?_
    simp only [OrdMap.get?_insert]
    by_cases hpn : p.nodeId = n
    · have hqn : q.nodeId ≠ n := fun heq => hpq (hpn.trans heq.symm)
      simp [hpn, hqn]
    · simp [hpn]

/-- Whom a node is dialled as: a signed addition beats the seeds, a signed removal drops a seed too,
and what the roster says about ourselves is ignored. -/
def peerFor (ourNodeId : NodeId) (seeds : List Peer) (roster : Roster) (n : NodeId) : Option Peer :=
  match if n = ourNodeId then none else roster.get n with
  | some e =>
    match e.kind with
    | .add => some (peerOf e)
    | .remove => none
  | none => seeds.findRev? fun p => p.nodeId = n

/-- **What `recompute` computes.** -/
theorem get?_effectiveOf (ourNodeId : NodeId) (seeds : List Peer) (roster : Roster) (n : NodeId) :
    (effectiveOf ourNodeId seeds roster).get? n = peerFor ourNodeId seeds roster n := by
  rw [peerFor, ← get?_seedPeers]
  by_cases hn : n = ourNodeId
  · subst hn
    rw [if_pos rfl]
    exact get?_foldl_overlayEntry_our
  · rw [if_neg hn]
    cases h : roster.get n with
    | none =>
      refine get?_foldl_overlayEntry fun e he heq => ?_
      have hget : roster.get e.nodeId = some e := Lww.mem_toList.1 he
      rw [heq, h] at hget
      cases hget
    | some e =>
      have hk : e.nodeId = n := roster.keyed n e h
      subst hk
      exact get?_foldl_overlayEntry_mem (Lww.mem_toList.2 h) roster.nodup_toList hn

end Effective

/-- The state behind the handle. -/
structure Inner where
  ourNodeId : NodeId
  adminPubkey : Option AdminPubKey
  rosterPath : Path
  seeds : List Peer
  roster : Roster
  effective : OrdMap NodeId Peer
  allowlist : Finset Fingerprint
  /-- Bumped on every applied change. -/
  changed : ℕ
  /-- The call that holds the lock. -/
  mergeSerial : Option ℕ

section Recompute

/-- Where `recompute` stands. -/
inductive RecomputePc
  | seeds
  | roster (eff : OrdMap NodeId Peer)
  | effective (eff : OrdMap NodeId Peer)
  | allowlist (allow : Finset Fingerprint)

/-- One step of `recompute`, and what is left of it. -/
def Inner.recompute (m : Inner) : RecomputePc → Inner × Option RecomputePc
  | .seeds => (m, some (.roster (seedPeers m.seeds)))
  | .roster eff => (m, some (.effective (overlay m.ourNodeId eff m.roster)))
  | .effective eff => ({ m with effective := eff }, some (.allowlist (fingerprints eff)))
  | .allowlist allow => ({ m with allowlist := allow }, none)

/-- `send_modify(|v| *v = v.wrapping_add(1))`. -/
def Inner.notify (m : Inner) : Inner := { m with changed := (m.changed + 1) % u64Bound }

end Recompute

/-- Where a call of `merge_signed` stands. -/
inductive MergePc
  | lock
  | stage
  | verify (staged : Roster)
  | path (staged : Roster)
  | save (staged : Roster) (path : Path)
  | commit (staged : Roster)
  | recompute (pc : RecomputePc)
  | notify

/-- Where a call of `apply_reload` stands. -/
inductive ReloadPc
  | load
  | adminKey (roster : Roster)
  | path (roster : Roster)
  | seeds (roster : Roster)
  | roster (roster : Roster)
  | recompute (pc : RecomputePc)
  | notify

/-- A call in progress. -/
inductive Call
  | merge (entry : SignedEntry) (pc : MergePc)
  | reload (cfg : Config) (pc : ReloadPc)

/-- How a save ends: the file is renamed into place and the directory synced, or it fails before or
after the rename. -/
inductive SaveResult
  | ok
  | failedBeforeRename
  | failedAfterRename
  deriving DecidableEq

/-- The handle, the roster files and the calls in progress. -/
structure Daemon where
  inner : Inner
  files : OrdMap Path RosterFile := .empty
  calls : OrdMap ℕ Call := .empty
  /-- History: the entries for which `merge_signed` returned `Applied`. -/
  applied : List SignedEntry := []

/-- What can happen: a call is made, or the call `t` takes its next step. -/
inductive Event
  | mergeSigned (t : ℕ) (entry : SignedEntry)
  | applyReload (t : ℕ) (cfg : Config)
  | step (t : ℕ) (io : SaveResult)

/-- The roster file at a path. -/
def fileAt (files : OrdMap Path RosterFile) (p : Path) : RosterFile := files.getD p .missing

@[simp] theorem fileAt_insert_self (files : OrdMap Path RosterFile) (p : Path) (f : RosterFile) :
    fileAt (files.insert p f) p = f := by
  simp [fileAt, OrdMap.getD]

/-- Load and re-verify the roster under the config's admin key; without one it is empty. -/
def loadRoster [Blake3] [Ed25519] (files : OrdMap Path RosterFile) (cfg : Config) :
    Except RosterError Roster :=
  match cfg.adminPubkey with
  | some pk => (Roster.load (fileAt files cfg.rosterPath) pk).map Prod.fst
  | none => .ok .empty

namespace Daemon

/-- The call `t` goes on with `c`. -/
def goto (d : Daemon) (t : ℕ) (c : Call) : Daemon := { d with calls := d.calls.insert t c }

/-- The call `t` returns. -/
def finish (d : Daemon) (t : ℕ) : Daemon := { d with calls := d.calls.erase t }

/-- The call `t` releases the lock and returns. -/
def unlock (d : Daemon) (t : ℕ) : Daemon :=
  { d with inner := { d.inner with mergeSerial := none }, calls := d.calls.erase t }

variable [Blake3] [Ed25519]

/-- One step of `merge_signed`. -/
def stepMerge (d : Daemon) (t : ℕ) (io : SaveResult) (entry : SignedEntry) : MergePc → Daemon
  | .lock =>
    match d.inner.mergeSerial with
    | none =>
      { d with inner := { d.inner with mergeSerial := some t } }.goto t (.merge entry .stage)
    | some _ => d
  | .stage => d.goto t (.merge entry (.verify d.inner.roster))
  | .verify staged =>
    match d.inner.adminPubkey with
    | none => d.unlock t
    | some pk =>
      match staged.mergeEntry entry pk with
      | (staged, .applied) => d.goto t (.merge entry (.path staged))
      | (_, _) => d.unlock t
  | .path staged => d.goto t (.merge entry (.save staged d.inner.rosterPath))
  | .save staged path =>
    match io with
    | .ok => { d with files := d.files.insert path staged.save }.goto t (.merge entry (.commit staged))
    | .failedBeforeRename => d.unlock t
    | .failedAfterRename => { d with files := d.files.insert path staged.save }.unlock t
  | .commit staged =>
    { d with inner := { d.inner with roster := staged } }.goto t (.merge entry (.recompute .seeds))
  | .recompute pc =>
    let (m, rest) := d.inner.recompute pc
    { d with inner := m }.goto t (.merge entry (match rest with
      | some pc => .recompute pc
      | none => .notify))
  | .notify => { d with inner := d.inner.notify, applied := entry :: d.applied }.unlock t

/-- One step of `apply_reload`. -/
def stepReload (d : Daemon) (t : ℕ) (cfg : Config) : ReloadPc → Daemon
  | .load =>
    match loadRoster d.files cfg with
    | .ok roster => d.goto t (.reload cfg (.adminKey roster))
    | .error _ => d.finish t
  | .adminKey roster =>
    { d with inner := { d.inner with adminPubkey := cfg.adminPubkey } }.goto t
      (.reload cfg (.path roster))
  | .path roster =>
    { d with inner := { d.inner with rosterPath := cfg.rosterPath } }.goto t
      (.reload cfg (.seeds roster))
  | .seeds roster =>
    { d with inner := { d.inner with seeds := cfg.peers } }.goto t (.reload cfg (.roster roster))
  | .roster roster =>
    { d with inner := { d.inner with roster } }.goto t (.reload cfg (.recompute .seeds))
  | .recompute pc =>
    let (m, rest) := d.inner.recompute pc
    { d with inner := m }.goto t (.reload cfg (match rest with
      | some pc => .recompute pc
      | none => .notify))
  | .notify => { d with inner := d.inner.notify }.finish t

/-- One event.  A call number in use is not used again, and a call that waits for the lock does
nothing. -/
def step (d : Daemon) : Event → Daemon
  | .mergeSigned t entry =>
    match d.calls.get? t with
    | none => d.goto t (.merge entry .lock)
    | some _ => d
  | .applyReload t cfg =>
    match d.calls.get? t with
    | none => d.goto t (.reload cfg .load)
    | some _ => d
  | .step t io =>
    match d.calls.get? t with
    | some (.merge entry pc) => d.stepMerge t io entry pc
    | some (.reload cfg pc) => d.stepReload t cfg pc
    | none => d

/-- The handle right after `Membership::load`, on the given roster files. -/
def start (cfg : Config) (files : OrdMap Path RosterFile) (roster : Roster) : Daemon where
  inner :=
    { ourNodeId := cfg.nodeId
      adminPubkey := cfg.adminPubkey
      rosterPath := cfg.rosterPath
      seeds := cfg.peers
      roster
      effective := effectiveOf cfg.nodeId cfg.peers roster
      allowlist := fingerprints (effectiveOf cfg.nodeId cfg.peers roster)
      changed := 0
      mergeSerial := none }
  files

/-- The interleavings of the calls. -/
def system : Lts Daemon Event := .ofFun (fun _ _ => True) step

end Daemon

end Members

end Replicore
