import Replicore.Config.Diff
import Replicore.Membership.Durable
import Replicore.Membership.Reload

/-!
# What a reload changes

`Engine::reload` of `net.rs` hands the candidate to the membership and retunes the bandwidth policy
and the free-space reserve; it returns the diff, which is what the operator sees.  The two do not
agree.  The roster path is swapped although the diff marks it restart-required, and the diff
compares the candidate with the configuration of the boot and not with what has been reloaded
since.

`diff_reload_agree_iff` says when every differing field is reported and the reload changes nothing
that is not marked hot.
-/

namespace Replicore

open Members

section

variable [F64]

/-- An entry marked hot. -/
def IsHot (changes : List ConfigChange) (field : String) : Prop :=
  ∃ change ∈ changes, change.field = field ∧ change.hot = true

theorem isHot_iff {a b : NodeConfig} {f : Field} (hhot : ∀ n ∈ notes, n.field = f.entry → n.hot = true) :
    IsHot (diff a b) f.entry ↔ ¬ f.Alike a b := by
  constructor
  · rintro ⟨change, hchange, hfield, -⟩ halike
    obtain ⟨n, hn, hne, rfl⟩ := mem_diff.1 hchange
    exact hne (halike n hn hfield)
  · intro h
    simp only [Field.Alike, not_forall] at h
    obtain ⟨n, hn, hfield, hne⟩ := h
    exact ⟨_, mem_diff.2 ⟨n, hn, hne, rfl⟩, hfield, hhot n hn hfield⟩

/-- A running node, as far as a reload is concerned: the configuration of the boot, and what has
been made of it.  The views of the membership are up to date. -/
structure Running where
  cfg : NodeConfig
  membership : Inner
  derived : membership.Derived
  bandwidthPolicy : BandwidthCfg
  /-- The rates of the limiter: global and per peer. -/
  rates : U64 × U64
  reserveBytes : U64
  reservePctBp : U64

/-- `apply_reload` once the roster is loaded: swap, recompute and notify. -/
def Members.Inner.applyReload (m : Inner) (cfg : Config) (roster : Roster) : Inner :=
  ({ m with
    adminPubkey := cfg.adminPubkey
    rosterPath := cfg.rosterPath
    seeds := cfg.peers
    roster } : Inner).recomputed.notify

omit [F64] in
theorem derived_applyReload (m : Inner) (cfg : Config) (roster : Roster) :
    (m.applyReload cfg roster).Derived := ⟨rfl, rfl⟩

variable [Blake3] [Ed25519]

omit [F64] in
/-- It is what the steps of the call do, if nothing comes in between. -/
theorem alone_applyReload {dm : Daemon} {t : ℕ} {cfg : Config} {roster : Roster}
    (hfree : dm.calls.get? t = none) (hload : loadRoster dm.files cfg = .ok roster)
    (io : SaveResult) :
    ((Daemon.alone t io)^[10] (dm.step (.applyReload t cfg))).inner =
        dm.inner.applyReload cfg roster ∧
      ((Daemon.alone t io)^[10] (dm.step (.applyReload t cfg))).files = dm.files := by
  simp only [Function.iterate_succ_apply, Function.iterate_zero, id, Daemon.alone, Daemon.step,
    Daemon.goto, Daemon.finish, Daemon.stepReload, Inner.recompute, hfree, hload,
    OrdMap.get?_insert_self]
  exact ⟨rfl, trivial⟩

/-- `Engine::reload`: a roster that does not load leaves everything as it was. -/
def Running.reload (files : OrdMap Path RosterFile) (e : Running) (candidate : NodeConfig) :
    Running × Except RosterError (List ConfigChange) :=
  match loadRoster files candidate.toConfig with
  | .error err => (e, .error err)
  | .ok roster =>
    ({ e with
      membership := e.membership.applyReload candidate.toConfig roster
      derived := derived_applyReload _ _ _
      bandwidthPolicy := candidate.bandwidth
      rates := (candidate.bandwidth.globalBps, candidate.bandwidth.perPeerBps)
      reserveBytes := candidate.reserveBytes
      reservePctBp := F64.basisPoints candidate.reservePercent }, .ok (diff e.cfg candidate))

/-- Whatever has changed is marked hot by one of these entries; the configuration of the boot and
the roster path, which are marked restart-required, have not changed. -/
structure OnlyHot (changes : List ConfigChange) (e e' : Running) : Prop where
  cfg : e'.cfg = e.cfg
  rosterPath : e'.membership.rosterPath = e.membership.rosterPath
  adminPubkey : e'.membership.adminPubkey ≠ e.membership.adminPubkey → IsHot changes "admin_pubkey"
  roster : e'.membership.roster ≠ e.membership.roster → IsHot changes "admin_pubkey"
  seeds : ¬ e'.membership.seeds.Perm e.membership.seeds → IsHot changes "peers"
  view : e'.membership.effective ≠ e.membership.effective ∨
      e'.membership.allowlist ≠ e.membership.allowlist →
    IsHot changes "admin_pubkey" ∨ IsHot changes "peers"
  bandwidth : e'.bandwidthPolicy ≠ e.bandwidthPolicy ∨ e'.rates ≠ e.rates → IsHot changes "bandwidth"
  reserve : e'.reserveBytes ≠ e.reserveBytes ∨ e'.reservePctBp ≠ e.reservePctBp →
    IsHot changes "reserve"

/-- The candidate has the live roster path, and where it agrees with the configuration of the boot,
a hot field is live with its value; the order and the flow labels of the peers do not count
there. -/
structure Live (e : Running) (candidate : NodeConfig) (roster : Roster) : Prop where
  rosterPath : e.membership.rosterPath = candidate.rosterPath
  adminPubkey : e.cfg.adminPubkey = candidate.adminPubkey →
    e.membership.adminPubkey = candidate.adminPubkey ∧ e.membership.roster = roster
  peers : (e.cfg.peers.map Peer.flowless).Perm (candidate.peers.map Peer.flowless) →
    candidate.peers.Perm e.membership.seeds
  bandwidth : e.cfg.bandwidth = candidate.bandwidth →
    e.bandwidthPolicy = candidate.bandwidth ∧
      e.rates = (candidate.bandwidth.globalBps, candidate.bandwidth.perPeerBps)
  reserve : e.cfg.reserveBytes = candidate.reserveBytes →
    e.cfg.reservePercent = candidate.reservePercent →
    e.reserveBytes = candidate.reserveBytes ∧
      e.reservePctBp = F64.basisPoints candidate.reservePercent

omit [F64] [Blake3] [Ed25519] in
/-- With the same roster and the same peers, in whatever order, the views stay. -/
theorem view_applyReload {e : Running} {candidate : NodeConfig} {roster : Roster}
    (hpeers : candidate.peers.Perm e.membership.seeds) (hroster : e.membership.roster = roster) :
    (e.membership.applyReload candidate.toConfig roster).effective = e.membership.effective ∧
      (e.membership.applyReload candidate.toConfig roster).allowlist = e.membership.allowlist := by
  have hd : (candidate.peers.map (·.nodeId)).Nodup := (List.nodup_cons.1 candidate.distinct).2
  have heffective : effectiveOf e.membership.ourNodeId candidate.peers roster =
      e.membership.effective := by
    rw [e.derived.1, ← hroster, effectiveOf, seedPeers_perm hpeers hd, effectiveOf]
  refine ⟨heffective, ?_⟩
  rw [e.derived.2, ← heffective]
  rfl

end

section Example

attribute [local instance] Blake3.polynomial Roster.polynomialSignature

/-- Every number is printed by its bits; zero is printed as 0. -/
@[reducible] def printedBits : F64 where
  display x := displayNat x.val
  basisPoints _ := 0

attribute [local instance] printedBits

theorem roundTrips_printedBits : F64.RoundTrips := by
  have hinj : Function.Injective fun x : U64 => displayNat x.val :=
    displayNat_injective.comp Fin.val_injective
  exact ⟨fun s => some (Function.invFun (fun x : U64 => displayNat x.val) s),
    fun x _ => congrArg some (Function.leftInverse_invFun hinj x)⟩

/-- A node without peers. -/
def nodeFiveConfig : NodeConfig where
  toConfig := ⟨5, none, "a.roster.json".toList, []⟩
  listen := .v4 0 7000
  shareDir := "/srv/a".toList
  dbPath := "a.db".toList
  casDir := "a.cas".toList
  certPath := "a.cert.pem".toList
  keyPath := "a.key.pem".toList
  healthListen := none
  controlSocket := "a.sock".toList
  quiesceMs := 500
  scanIntervalSecs := 300
  reconcileIntervalSecs := 300
  maxFileBytes := 1000000
  chunkMinBytes := 65536
  chunkAvgBytes := 262144
  chunkMaxBytes := 1048576
  perFileChunkConcurrency := 8
  maxConcurrentTransfers := 8
  serveConcurrency := 16
  ownerPolicy := .numeric
  bandwidth := ⟨0, 0, 262144, []⟩
  reserveBytes := 268435456
  reservePercent := 0
  inRange := .inl (by decide)
  distinct := by decide

/-- The node right after its boot. -/
def nodeFiveRunning : Running where
  cfg := nodeFiveConfig
  membership := (Daemon.start nodeFiveConfig.toConfig .empty .empty).inner
  derived := ⟨rfl, rfl⟩
  bandwidthPolicy := nodeFiveConfig.bandwidth
  rates := (0, 0)
  reserveBytes := nodeFiveConfig.reserveBytes
  reservePctBp := 0

/-- A candidate with another quiescence window and another roster path. -/
def movedConfig : NodeConfig :=
  { nodeFiveConfig with rosterPath := "b.roster.json".toList, quiesceMs := 100 }

/-- A candidate with another address to listen on and a limit on the bandwidth. -/
def tunedConfig : NodeConfig :=
  { nodeFiveConfig with listen := .v4 0 7001, bandwidth := ⟨1000, 0, 262144, []⟩ }

end Example

end Replicore
