import Mathlib.Data.List.Sort
import Replicore.Config.Display
import Replicore.Disk.Apply
import Replicore.Merkle.Leaf

/-!
# What a config diff reports

`Config::diff` of `config.rs` compares two configurations by what it prints of them, field by field,
and marks the fields that a reload applies.  The comment there says that every other field is
"honestly RESTART-REQUIRED"; but eleven fields are not compared at all.

* `notes` : what is compared, and how it is printed;
* `diff` : one entry for each of them that is printed differently;
* `fmtPeers_eq_iff` : what the printed peers tell.

What is printed tells the value of a field, but for the flow labels of addresses.  So every field on
which two configurations differ has its entry exactly if they agree on those eleven, and no address
has another flow label only (`covered_iff`).
-/

namespace Replicore

open Bytes Printed

/-! ### The configuration -/

/-- What is used of floating-point numbers, which are given by their 64 bits, as a parameter. -/
class F64 where
  /-- `Display`. -/
  display : U64 → List Char
  /-- `(x * 100.0) as u64`. -/
  basisPoints : U64 → U64

/-- `(0.0..=95.0).contains`: the bits of non-negative numbers have their order, and there is a
negative zero. -/
def IsReservePercent (x : U64) : Prop := x.val ≤ 0x4057c00000000000 ∨ x.val = 0x8000000000000000

/-- Such a number can be read back from what is printed of it. -/
def F64.RoundTrips [F64] : Prop :=
  ∃ parse : List Char → Option U64, ∀ x, IsReservePercent x → parse (F64.display x) = some x

/-- A validated configuration: `Config` with what membership does not read.  Paths are UTF-8, and
the percentage is given by its bits and in its range.  No node id is given twice. -/
structure NodeConfig extends Config where
  listen : SocketAddr
  shareDir : Path
  dbPath : Path
  casDir : Path
  certPath : Path
  keyPath : Path
  healthListen : Option SocketAddr
  controlSocket : Path
  quiesceMs : U64
  scanIntervalSecs : U64
  reconcileIntervalSecs : U64
  maxFileBytes : U64
  chunkMinBytes : U32
  chunkAvgBytes : U32
  chunkMaxBytes : U32
  perFileChunkConcurrency : U64
  maxConcurrentTransfers : U64
  serveConcurrency : U64
  ownerPolicy : Disk.OwnerPolicy
  bandwidth : BandwidthCfg
  reserveBytes : U64
  reservePercent : U64
  inRange : IsReservePercent reservePercent
  distinct : (nodeId :: peers.map (·.nodeId)).Nodup

/-! ### The diff -/

/-- One line of `fmt_peers`. -/
def fmtPeer (p : Peer) : List Char :=
  hexEncode p.nodeId.bytes ++ '@' :: p.addr.display ++ '#' :: hexEncode (beBytes 32 p.fingerprint.val)

/-- The peers, in any order. -/
def fmtPeers (peers : List Peer) : List Char :=
  [','].intercalate ((peers.map fmtPeer).mergeSort fun a b => decide (a ≤ b))

/-- A peer without the flow label of its address. -/
def Peer.flowless (p : Peer) : Peer := { p with addr := p.addr.flowless }

/-- The line of a peer determines it but for the flow label. -/
theorem fmtPeer_eq_iff {p q : Peer} : fmtPeer p = fmtPeer q ↔ p.flowless = q.flowless := by
  obtain ⟨nodeId, addr, fingerprint⟩ := p
  obtain ⟨nodeId', addr', fingerprint'⟩ := q
  rw [Peer.flowless, Peer.flowless, Peer.mk.injEq]
  simp only [fmtPeer, List.append_assoc, List.cons_append]
  constructor
  · intro h
    obtain ⟨hid, hrest⟩ := List.append_inj h (by simp [NodeId.bytes])
    obtain ⟨haddr, hfp⟩ := List.append_inj' (List.cons.inj hrest).2 (by simp)
    exact ⟨NodeId.bytes_inj (hexEncode_injective hid), SocketAddr.display_eq_iff.1 haddr,
      Hash.bytes_inj (hexEncode_injective (List.cons.inj hfp).2)⟩
  · rintro ⟨rfl, haddr, rfl⟩
    rw [SocketAddr.display_eq_iff.2 haddr]

theorem comma_not_mem_hexEncode (bs : List Byte) : ',' ∉ hexEncode bs := by
  have hdigit : ∀ n < 16, ',' ≠ hexDigit n := by decide
  induction bs with
  | nil => exact List.not_mem_nil
  | cons b bs ih =>
    rw [hexEncode, List.mem_cons, List.mem_cons, not_or, not_or]
    exact ⟨hdigit _ (by omega), hdigit _ (by omega), ih⟩

theorem comma_not_mem_fmtPeer (p : Peer) : ',' ∉ fmtPeer p := by
  intro h
  simp only [fmtPeer, List.append_assoc, List.cons_append, List.mem_append, List.mem_cons] at h
  obtain h | h | h | h | h := h
  · exact comma_not_mem_hexEncode _ h
  · cases h
  · exact absurd (mem_display _ h) (by decide)
  · cases h
  · exact comma_not_mem_hexEncode _ h

/-- Sorted lines of the same peers are the same. -/
theorem sort_eq_iff {ls ls' : List (List Char)} :
    (ls.mergeSort fun a b => decide (a ≤ b)) = (ls'.mergeSort fun a b => decide (a ≤ b)) ↔
      ls.Perm ls' := by
  constructor
  · intro h
    exact (List.mergeSort_perm ls _).symm.trans (h ▸ List.mergeSort_perm ls' _)
  · intro h
    have hperm := ((List.mergeSort_perm ls fun a b => decide (a ≤ b)).trans h).trans
      (List.mergeSort_perm ls' fun a b => decide (a ≤ b)).symm
    exact hperm.eq_of_sortedLE List.sortedLE_mergeSort List.sortedLE_mergeSort

/-- The lines in any order, as the peers without their flow labels in any order. -/
theorem perm_map_fmtPeer_iff {ps qs : List Peer} :
    (ps.map fmtPeer).Perm (qs.map fmtPeer) ↔
      (ps.map Peer.flowless).Perm (qs.map Peer.flowless) := by
  constructor
  · intro h
    have hpeer : Function.FactorsThrough (some ∘ Peer.flowless) fmtPeer := fun _ _ heq =>
      congrArg some (fmtPeer_eq_iff.1 heq)
    have hmap := h.map (Function.extend fmtPeer (some ∘ Peer.flowless) fun _ => none)
    rw [List.map_map, List.map_map, hpeer.extend_comp, ← List.map_map, ← List.map_map] at hmap
    exact (List.map_perm_map_iff (Option.some_injective _)).1 hmap
  · intro h
    have hmap := h.map fmtPeer
    have hline : fmtPeer ∘ Peer.flowless = fmtPeer := funext fun p =>
      fmtPeer_eq_iff.2 (by cases p with | mk _ addr _ => cases addr <;> rfl)
    rwa [List.map_map, List.map_map, hline] at hmap

/-- The lines of the peers determine them but for their order and flow labels. -/
theorem fmtPeers_eq_iff {ps qs : List Peer} :
    fmtPeers ps = fmtPeers qs ↔ (ps.map Peer.flowless).Perm (qs.map Peer.flowless) := by
  rw [← perm_map_fmtPeer_iff, ← sort_eq_iff]
  have hlines : ∀ ps : List Peer, ∀ l ∈ (ps.map fmtPeer).mergeSort fun a b => decide (a ≤ b),
      ',' ∉ l := by
    intro ps l hl
    obtain ⟨p, -, rfl⟩ := List.mem_map.1 (List.mem_mergeSort.1 hl)
    exact comma_not_mem_fmtPeer p
  have hempty : ∀ ps : List Peer, ps ≠ [] → fmtPeers ps ≠ [] := by
    intro ps hps
    refine intercalate_ne_nil (fun l hl => ?_) fun hnil => ?_
    · obtain ⟨p, -, rfl⟩ := List.mem_map.1 (List.mem_mergeSort.1 hl)
      exact List.ne_nil_of_mem (List.mem_append_right _ List.mem_cons_self)
    · have hlen := congrArg List.length hnil
      rw [List.length_mergeSort, List.length_map, List.length_nil] at hlen
      exact hps (List.length_eq_zero_iff.1 hlen)
  refine ⟨fun h => ?_, congrArg ([','].intercalate ·)⟩
  have hnil : fmtPeers [] = [] := by simp [fmtPeers]
  by_cases hps : ps = []
  · by_cases hqs : qs = []
    · rw [hps, hqs]
    · exact absurd (h.symm.trans (hps ▸ hnil)) (hempty qs hqs)
  · by_cases hqs : qs = []
    · exact absurd (h.trans (hqs ▸ hnil)) (hempty ps hps)
    · have hne : ∀ ps : List Peer, ps ≠ [] →
          ((ps.map fmtPeer).mergeSort fun a b => decide (a ≤ b)) ≠ [] := fun ps hps hnil =>
        hempty ps hps (by rw [fmtPeers, hnil]; rfl)
      exact intercalate_inj (hlines ps) (hlines qs) (hne ps hps) (hne qs hqs) h

/-- What is compared: the name of the field, whether a reload applies it, and how it is printed. -/
structure Note where
  field : String
  hot : Bool
  render : NodeConfig → List Char

/-- One reported change. -/
structure ConfigChange where
  field : String
  hot : Bool
  old : List Char
  new : List Char
  deriving DecidableEq

variable [F64]

/-- The comparisons of `diff`, in its order. -/
def notes : List Note :=
  [⟨"admin_pubkey", true, fun c => (c.adminPubkey.map fun k => hexEncode (beBytes 32 k.val)).getD []⟩,
    ⟨"peers", true, fun c => fmtPeers c.peers⟩,
    ⟨"bandwidth", true, fun c => c.bandwidth.debug⟩,
    ⟨"reserve", true, fun c =>
      displayNat c.reserveBytes.val ++ "B/".toList ++ F64.display c.reservePercent ++ ['%']⟩,
    ⟨"node_id", false, fun c => hexEncode c.nodeId.bytes⟩,
    ⟨"listen", false, fun c => c.listen.display⟩,
    ⟨"share_dir", false, fun c => c.shareDir⟩,
    ⟨"db_path", false, fun c => c.dbPath⟩,
    ⟨"cas_dir", false, fun c => c.casDir⟩,
    ⟨"cert_path", false, fun c => c.certPath⟩,
    ⟨"key_path", false, fun c => c.keyPath⟩,
    ⟨"roster_path", false, fun c => c.rosterPath⟩,
    ⟨"control_socket", false, fun c => c.controlSocket⟩,
    ⟨"health_listen", false, fun c => (c.healthListen.map (·.display)).getD []⟩]

/-- `Config::diff` of the running configuration and a candidate. -/
def diff (running candidate : NodeConfig) : List ConfigChange :=
  notes.filterMap fun n =>
    if n.render running ≠ n.render candidate then
      some ⟨n.field, n.hot, n.render running, n.render candidate⟩
    else none

variable {a b : NodeConfig}

/-- The fields of a configuration. -/
inductive Field
  | nodeId | listen | shareDir | dbPath | casDir | certPath | keyPath | healthListen | adminPubkey
  | rosterPath | controlSocket | peers | quiesceMs | scanIntervalSecs | reconcileIntervalSecs
  | maxFileBytes | chunkMinBytes | chunkAvgBytes | chunkMaxBytes | perFileChunkConcurrency
  | maxConcurrentTransfers | serveConcurrency | ownerPolicy | bandwidth | reserveBytes
  | reservePercent
  deriving DecidableEq

namespace Field

/-- The name of a field, or of the entry it shares. -/
def entry : Field → String
  | nodeId => "node_id"
  | listen => "listen"
  | shareDir => "share_dir"
  | dbPath => "db_path"
  | casDir => "cas_dir"
  | certPath => "cert_path"
  | keyPath => "key_path"
  | healthListen => "health_listen"
  | adminPubkey => "admin_pubkey"
  | rosterPath => "roster_path"
  | controlSocket => "control_socket"
  | peers => "peers"
  | quiesceMs => "quiesce_ms"
  | scanIntervalSecs => "scan_interval_secs"
  | reconcileIntervalSecs => "reconcile_interval_secs"
  | maxFileBytes => "max_file_bytes"
  | chunkMinBytes => "chunk_min_bytes"
  | chunkAvgBytes => "chunk_avg_bytes"
  | chunkMaxBytes => "chunk_max_bytes"
  | perFileChunkConcurrency => "per_file_chunk_concurrency"
  | maxConcurrentTransfers => "max_concurrent_transfers"
  | serveConcurrency => "serve_concurrency"
  | ownerPolicy => "owner_policy"
  | bandwidth => "bandwidth"
  | reserveBytes | reservePercent => "reserve"

/-- Two configurations agree on a field; the order of the peers does not matter. -/
def Same (a b : NodeConfig) : Field → Prop
  | nodeId => a.nodeId = b.nodeId
  | listen => a.listen = b.listen
  | shareDir => a.shareDir = b.shareDir
  | dbPath => a.dbPath = b.dbPath
  | casDir => a.casDir = b.casDir
  | certPath => a.certPath = b.certPath
  | keyPath => a.keyPath = b.keyPath
  | healthListen => a.healthListen = b.healthListen
  | adminPubkey => a.adminPubkey = b.adminPubkey
  | rosterPath => a.rosterPath = b.rosterPath
  | controlSocket => a.controlSocket = b.controlSocket
  | peers => a.peers.Perm b.peers
  | quiesceMs => a.quiesceMs = b.quiesceMs
  | scanIntervalSecs => a.scanIntervalSecs = b.scanIntervalSecs
  | reconcileIntervalSecs => a.reconcileIntervalSecs = b.reconcileIntervalSecs
  | maxFileBytes => a.maxFileBytes = b.maxFileBytes
  | chunkMinBytes => a.chunkMinBytes = b.chunkMinBytes
  | chunkAvgBytes => a.chunkAvgBytes = b.chunkAvgBytes
  | chunkMaxBytes => a.chunkMaxBytes = b.chunkMaxBytes
  | perFileChunkConcurrency => a.perFileChunkConcurrency = b.perFileChunkConcurrency
  | maxConcurrentTransfers => a.maxConcurrentTransfers = b.maxConcurrentTransfers
  | serveConcurrency => a.serveConcurrency = b.serveConcurrency
  | ownerPolicy => a.ownerPolicy = b.ownerPolicy
  | bandwidth => a.bandwidth = b.bandwidth
  | reserveBytes => a.reserveBytes = b.reserveBytes
  | reservePercent => a.reservePercent = b.reservePercent

/-- The fields that are not compared. -/
def unlisted : List Field :=
  [quiesceMs, scanIntervalSecs, reconcileIntervalSecs, maxFileBytes, chunkMinBytes, chunkAvgBytes,
    chunkMaxBytes, perFileChunkConcurrency, maxConcurrentTransfers, serveConcurrency, ownerPolicy]

end Field

/-- Every field on which the configurations differ has an entry. -/
def Covered (a b : NodeConfig) : Prop :=
  ∀ f : Field, ¬ f.Same a b → ∃ change ∈ diff a b, change.field = f.entry

/-- The configurations agree on the fields that are not compared, and no address in one differs from
that in the other in nothing but the flow label. -/
structure Reportable (a b : NodeConfig) : Prop where
  unlisted : ∀ f ∈ Field.unlisted, f.Same a b
  peers : (a.peers.map Peer.flowless).Perm (b.peers.map Peer.flowless) → a.peers.Perm b.peers
  listen : a.listen.flowless = b.listen.flowless → a.listen = b.listen
  healthListen : a.healthListen.map SocketAddr.flowless = b.healthListen.map SocketAddr.flowless →
    a.healthListen = b.healthListen

theorem mem_diff {change : ConfigChange} :
    change ∈ diff a b ↔ ∃ n ∈ notes, n.render a ≠ n.render b ∧
      change = ⟨n.field, n.hot, n.render a, n.render b⟩ := by
  simp only [diff, List.mem_filterMap]
  refine exists_congr fun n => and_congr_right fun _ => ?_
  by_cases h : n.render a = n.render b
  · simp [h]
  · simp [h, eq_comm]

theorem exists_entry_iff (f : Field) :
    (∃ change ∈ diff a b, change.field = f.entry) ↔
      ∃ n ∈ notes, n.field = f.entry ∧ n.render a ≠ n.render b := by
  constructor
  · rintro ⟨change, hchange, hfield⟩
    obtain ⟨n, hn, hne, rfl⟩ := mem_diff.1 hchange
    exact ⟨n, hn, hfield, hne⟩
  · rintro ⟨n, hn, hfield, hne⟩
    exact ⟨_, mem_diff.2 ⟨n, hn, hne, rfl⟩, hfield⟩

/-- What is printed of a field is the same for both. -/
def Field.Alike (a b : NodeConfig) (f : Field) : Prop :=
  ∀ n ∈ notes, n.field = f.entry → n.render a = n.render b

theorem covered_iff_alike : Covered a b ↔ ∀ f : Field, f.Alike a b → f.Same a b := by
  refine forall_congr' fun f => ?_
  rw [exists_entry_iff, not_imp_comm, Field.Alike]
  refine imp_congr_left ⟨fun h n hn hfield => ?_, fun h => ?_⟩
  · by_contra hne
    exact h ⟨n, hn, hfield, hne⟩
  · rintro ⟨n, hn, hfield, hne⟩
    exact hne (h n hn hfield)

/-- There is one comparison for each name. -/
theorem fields_notes : notes.map (·.field) = ["admin_pubkey", "peers", "bandwidth", "reserve",
    "node_id", "listen", "share_dir", "db_path", "cas_dir", "cert_path", "key_path", "roster_path",
    "control_socket", "health_listen"] := rfl

theorem nodup_fields : (notes.map (·.field)).Nodup := by
  rw [fields_notes]
  decide

/-- Nothing is printed of the fields that are not compared. -/
theorem alike_of_unlisted {f : Field} (h : f ∈ Field.unlisted) : f.Alike a b := by
  have hnone : f.entry ∉ notes.map (·.field) := by
    rw [fields_notes]
    revert f
    decide
  exact fun n hn hfield => absurd (List.mem_map_of_mem hn) (hfield ▸ hnone)

/-- So what is printed of a field is the same for both if the comparison under its name says so. -/
theorem alike_iff {f : Field} (i : Fin 14) (hfield : (notes.get i).field = f.entry) :
    f.Alike a b ↔ (notes.get i).render a = (notes.get i).render b := by
  refine ⟨fun h => h _ (List.get_mem _ _) hfield, fun h n hn heq => ?_⟩
  rw [List.inj_on_of_nodup_map nodup_fields hn (List.get_mem notes i) (heq.trans hfield.symm)]
  exact h

/-! ### What is printed of the compared fields -/

theorem alike_adminPubkey_iff : Field.Alike a b .adminPubkey ↔ a.adminPubkey = b.adminPubkey := by
  rw [alike_iff 0 rfl]
  refine ⟨fun h => ?_, fun h => by simp [notes, h]⟩
  have hrender : (a.adminPubkey.map fun k => hexEncode (beBytes 32 k.val)).getD [] =
      (b.adminPubkey.map fun k => hexEncode (beBytes 32 k.val)).getD [] := h
  have hlen := congrArg List.length hrender
  cases hk : a.adminPubkey with
  | none =>
    cases hk' : b.adminPubkey with
    | none => rfl
    | some k' => simp [hk, hk'] at hlen
  | some k =>
    cases hk' : b.adminPubkey with
    | none => simp [hk, hk'] at hlen
    | some k' =>
      rw [hk, hk'] at hrender
      exact congrArg some (Hash.bytes_inj (hexEncode_injective hrender))

theorem alike_peers_iff : Field.Alike a b .peers ↔
    (a.peers.map Peer.flowless).Perm (b.peers.map Peer.flowless) :=
  (alike_iff 1 rfl).trans fmtPeers_eq_iff

theorem alike_bandwidth_iff : Field.Alike a b .bandwidth ↔ a.bandwidth = b.bandwidth :=
  (alike_iff 2 rfl).trans BandwidthCfg.debug_injective.eq_iff

/-- The two fields that share an entry. -/
theorem alike_reserve_iff (hround : F64.RoundTrips) {f : Field} (hf : f.entry = "reserve") :
    f.Alike a b ↔ a.reserveBytes = b.reserveBytes ∧ a.reservePercent = b.reservePercent := by
  rw [alike_iff 3 hf.symm]
  refine ⟨fun h => ?_, fun ⟨hbytes, hpercent⟩ => by simp [notes, hbytes, hpercent]⟩
  have hrender : displayNat a.reserveBytes.val ++ ("B/".toList ++
      (F64.display a.reservePercent ++ ['%'])) = displayNat b.reserveBytes.val ++ ("B/".toList ++
      (F64.display b.reservePercent ++ ['%'])) := by
    simpa [notes, List.append_assoc] using h
  obtain ⟨hbytes, hrest⟩ := displayNat_append_inj (by decide) hrender
  obtain ⟨parse, hparse⟩ := hround
  have hpercent := congrArg parse (List.append_cancel_right hrest)
  rw [hparse _ a.inRange, hparse _ b.inRange] at hpercent
  exact ⟨Fin.ext hbytes, Option.some.inj hpercent⟩

theorem alike_listen_iff : Field.Alike a b .listen ↔ a.listen.flowless = b.listen.flowless :=
  (alike_iff 5 rfl).trans SocketAddr.display_eq_iff

theorem alike_healthListen_iff : Field.Alike a b .healthListen ↔
    a.healthListen.map SocketAddr.flowless = b.healthListen.map SocketAddr.flowless := by
  refine (alike_iff 13 rfl).trans ?_
  change (a.healthListen.map (·.display)).getD [] = (b.healthListen.map (·.display)).getD [] ↔ _
  have hne : ∀ addr : SocketAddr, addr.display ≠ [] := by
    intro addr
    cases addr with
    | v4 ip port => exact List.append_ne_nil_of_right_ne_nil _ (List.cons_ne_nil _ _)
    | v6 ip port flow scope => exact List.cons_ne_nil _ _
  cases a.healthListen with
  | none =>
    cases b.healthListen with
    | none => simp
    | some addr' => simp [hne addr']
  | some addr =>
    cases b.healthListen with
    | none => simp [hne addr]
    | some addr' => simp [SocketAddr.display_eq_iff]

/-- Every field on which two configurations differ has an entry exactly if they agree on the fields
that are not compared, and their addresses do not differ in flow labels only. -/
theorem covered_iff (hround : F64.RoundTrips) : Covered a b ↔ Reportable a b := by
  rw [covered_iff_alike]
  constructor
  · intro h
    exact ⟨fun f hf => h f (alike_of_unlisted hf), fun heq => h .peers (alike_peers_iff.2 heq),
      fun heq => h .listen (alike_listen_iff.2 heq),
      fun heq => h .healthListen (alike_healthListen_iff.2 heq)⟩
  · intro h f halike
    cases f with
    | adminPubkey => exact alike_adminPubkey_iff.1 halike
    | peers => exact h.peers (alike_peers_iff.1 halike)
    | bandwidth => exact alike_bandwidth_iff.1 halike
    | reserveBytes => exact ((alike_reserve_iff hround rfl).1 halike).1
    | reservePercent => exact ((alike_reserve_iff hround rfl).1 halike).2
    | nodeId => exact NodeId.bytes_inj (hexEncode_injective ((alike_iff 4 rfl).1 halike))
    | listen => exact h.listen (alike_listen_iff.1 halike)
    | shareDir => exact (alike_iff 6 rfl).1 halike
    | dbPath => exact (alike_iff 7 rfl).1 halike
    | casDir => exact (alike_iff 8 rfl).1 halike
    | certPath => exact (alike_iff 9 rfl).1 halike
    | keyPath => exact (alike_iff 10 rfl).1 halike
    | rosterPath => exact (alike_iff 11 rfl).1 halike
    | controlSocket => exact (alike_iff 12 rfl).1 halike
    | healthListen => exact h.healthListen (alike_healthListen_iff.1 halike)
    | _ => exact h.unlisted _ (by decide)

end Replicore
