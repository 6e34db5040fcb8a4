import Replicore.Lib.Code
import Replicore.Lib.Lww
import Replicore.Store.Types

/-!
# The membership roster

The agent-owned roster (`membership.rs`, `admin.rs`): one winning signed entry for each node, chosen
by `(epoch, rank of the kind, hash of the canonical bytes)`.  `Roster.mergeEntry` is the only way in
and verifies the signature first; loading a file goes through it entry by entry.

Ed25519 is a third-party crate: `Ed25519` gives what it answers for a key, a message and a
signature.  The roster file is what `serde_json` makes of its bytes.
-/

namespace Replicore

open Bytes

/-- An Ed25519 public key, 32 bytes. -/
abbrev AdminPubKey := Fin (2 ^ 256)

/-- The SHA-256 fingerprint of a pinned certificate. -/
abbrev Fingerprint := Fin (2 ^ 256)

/-- An Ed25519 signature, 64 bytes: its two halves. -/
abbrev Signature := Fin (2 ^ 256) × Fin (2 ^ 256)

/-- Signature verification, as a parameter. -/
class Ed25519 where
  /-- The signature is one of the message under the key. -/
  verify : AdminPubKey → List Byte → Signature → Bool

/-- What a roster entry does. -/
inductive EntryKind
  | add
  | remove
  deriving DecidableEq, Repr

/-- Canonical value of a kind. -/
def EntryKind.asByte : EntryKind → Byte
  | add => 0
  | remove => 1

/-- A socket address.  The flow label and the scope of a v6 address are no part of the canonical
bytes. -/
inductive SocketAddr
  | v4 (ip : U32) (port : Fin (2 ^ 16))
  | v6 (ip : Fin (2 ^ 128)) (port : Fin (2 ^ 16)) (flowinfo scopeId : U32)
  deriving DecidableEq

/-- The family byte and the octets of the address. -/
def SocketAddr.ipBytes : SocketAddr → List Byte
  | v4 ip _ => 4 :: beBytes 4 ip.val
  | v6 ip _ _ _ => 6 :: beBytes 16 ip.val

/-- The port. -/
def SocketAddr.port : SocketAddr → Fin (2 ^ 16)
  | v4 _ port => port
  | v6 _ port _ _ => port

/-- `b"replicore-roster-v1\0"`. -/
def domainTag : List Byte := utf8 "replicore-roster-v1".toList ++ [0]

/-- The bytes that are signed and hashed. -/
def canonicalEntryBytes (nodeId : NodeId) (addr : SocketAddr) (fingerprint : Fingerprint)
    (epoch : U64) (kind : EntryKind) : List Byte :=
  domainTag ++ nodeId.bytes ++ addr.ipBytes ++ beBytes 2 addr.port.val ++
    beBytes 32 fingerprint.val ++ beBytes 8 epoch.val ++ [kind.asByte]

/-- Verify an entry's signature against a trust anchor. -/
def verifyEntry [Ed25519] (pk : AdminPubKey) (nodeId : NodeId) (addr : SocketAddr)
    (fingerprint : Fingerprint) (epoch : U64) (kind : EntryKind) (sig : Signature) : Bool :=
  Ed25519.verify pk (canonicalEntryBytes nodeId addr fingerprint epoch kind) sig

/-- One admin-signed membership mutation. -/
structure SignedEntry where
  nodeId : NodeId
  addr : SocketAddr
  fingerprint : Fingerprint
  epoch : U64
  kind : EntryKind
  sig : Signature
  deriving DecidableEq

namespace SignedEntry

/-- The order of entries: epoch, then removals over additions, then the content hash. -/
abbrev OrderKey := U64 ×ₗ Fin 2 ×ₗ Hash

/-- The bytes the signature covers and the tie-break hash is taken over. -/
def canonicalBytes (e : SignedEntry) : List Byte :=
  canonicalEntryBytes e.nodeId e.addr e.fingerprint e.epoch e.kind

/-- The place of a kind in the order. -/
def rank : EntryKind → Fin 2
  | .add => 0
  | .remove => 1

/-- The total-order key; the larger wins. -/
def orderKey [Blake3] (e : SignedEntry) : OrderKey :=
  toLex (e.epoch, toLex (rank e.kind, Blake3.hash e.canonicalBytes))

/-- The entry is signed by the holder of the key. -/
def verify [Ed25519] (e : SignedEntry) (pk : AdminPubKey) : Bool :=
  verifyEntry pk e.nodeId e.addr e.fingerprint e.epoch e.kind e.sig

/-! ### The canonical bytes -/

/-- The canonical bytes after the address. -/
def tailBytes (e : SignedEntry) : List Byte :=
  beBytes 2 e.addr.port.val ++ beBytes 32 e.fingerprint.val ++ beBytes 8 e.epoch.val ++
    [e.kind.asByte]

theorem canonicalBytes_eq (e : SignedEntry) :
    e.canonicalBytes = (domainTag ++ e.nodeId.bytes) ++ (e.addr.ipBytes ++ e.tailBytes) := by
  simp [canonicalBytes, canonicalEntryBytes, tailBytes]

theorem length_tailBytes (e : SignedEntry) : e.tailBytes.length = 43 := by
  simp [tailBytes]

/-- The family byte tells how long an address is. -/
theorem length_ipBytes_eq {a b : SocketAddr} {s t : List Byte}
    (h : a.ipBytes ++ s = b.ipBytes ++ t) : a.ipBytes.length = b.ipBytes.length := by
  have hhead := congrArg List.head? h
  cases a <;> cases b <;> simp [SocketAddr.ipBytes] at hhead ⊢

/-- The canonical bytes can be taken apart, whatever follows them. -/
theorem canonicalBytes_append {a b : SignedEntry} {s t : List Byte}
    (h : a.canonicalBytes ++ s = b.canonicalBytes ++ t) :
    a.nodeId.bytes = b.nodeId.bytes ∧ a.addr.ipBytes = b.addr.ipBytes ∧
      a.tailBytes = b.tailBytes := by
  simp only [canonicalBytes_eq, List.append_assoc] at h
  have hlen : a.nodeId.bytes.length = b.nodeId.bytes.length := by simp [NodeId.bytes]
  have hnode := List.append_inj (List.append_cancel_left h) hlen
  have hip := List.append_inj hnode.2 (length_ipBytes_eq hnode.2)
  have htail := List.append_inj hip.2 (by rw [length_tailBytes, length_tailBytes])
  exact ⟨hnode.1, hip.1, htail.1⟩

/-- No canonical form begins another one. -/
theorem selfDelimiting_canonicalBytes : SelfDelimiting canonicalBytes := by
  intro a b s t h
  obtain ⟨hnode, hip, htail⟩ := canonicalBytes_append h
  rw [canonicalBytes_eq, canonicalBytes_eq, hnode, hip, htail]

/-- The canonical bytes tell the node, the epoch and the kind. -/
theorem fields_of_canonicalBytes {a b : SignedEntry} (h : a.canonicalBytes = b.canonicalBytes) :
    a.nodeId = b.nodeId ∧ a.epoch = b.epoch ∧ a.kind = b.kind := by
  obtain ⟨hnode, -, htail⟩ :=
    canonicalBytes_append (congrArg (· ++ ([] : List Byte)) h)
  unfold tailBytes at htail
  have hkind := List.append_inj htail (by simp)
  have hepoch := List.append_inj hkind.1 (by simp)
  refine ⟨Fin.ext (beBytes_inj a.nodeId.isLt b.nodeId.isLt hnode),
    Fin.ext (beBytes_inj a.epoch.isLt b.epoch.isLt hepoch.2), ?_⟩
  have hbyte : a.kind.asByte = b.kind.asByte := by simpa using hkind.2
  cases ha : a.kind <;> cases hb : b.kind <;> simp [ha, hb, EntryKind.asByte] at hbyte ⊢

/-- Entries with the same canonical bytes have the same place in the order. -/
theorem orderKey_of_canonicalBytes [Blake3] {a b : SignedEntry}
    (h : a.canonicalBytes = b.canonicalBytes) : a.orderKey = b.orderKey := by
  obtain ⟨-, hepoch, hkind⟩ := fields_of_canonicalBytes h
  rw [orderKey, orderKey, hepoch, hkind, h]

theorem canonicalBytes_ne_nil (e : SignedEntry) : e.canonicalBytes ≠ [] := by
  simp [canonicalBytes, canonicalEntryBytes]

/-! ### The order -/

/-- Only an addition of a later epoch is above a removal. -/
theorem epoch_lt_of_remove_le_add [Blake3] {r a : SignedEntry} (hr : r.kind = .remove)
    (ha : a.kind = .add) (h : r.orderKey ≤ a.orderKey) : r.epoch < a.epoch := by
  obtain h | ⟨-, h⟩ := Prod.Lex.toLex_le_toLex.1 h
  · exact h
  · obtain h | ⟨h, -⟩ := Prod.Lex.toLex_le_toLex.1 h
    · simp [rank, hr, ha] at h
    · simp [rank, hr, ha] at h

theorem hash_eq_of_orderKey_eq [Blake3] {a b : SignedEntry} (h : a.orderKey = b.orderKey) :
    Blake3.hash a.canonicalBytes = Blake3.hash b.canonicalBytes := by
  have h' := congrArg (fun k : OrderKey => (ofLex (ofLex k).2).2) h
  exact h'

end SignedEntry

/-- Outcome of feeding one entry through the choke point. -/
inductive MergeOutcome
  | applied
  | superseded
  | rejected
  deriving DecidableEq, Repr

/-- What the roster file is to its reader. -/
inductive RosterFile
  | missing
  /-- Reading fails. -/
  | unreadable
  /-- Not a JSON list of entries. -/
  | invalid
  | rows (es : List SignedEntry)

/-- Why a roster cannot be loaded or saved. -/
inductive RosterError
  | io
  | json
  deriving DecidableEq, Repr

/-- The winners, one for each node, additions and removals alike. -/
abbrev Roster := Lww NodeId SignedEntry SignedEntry.nodeId

namespace Roster

/-- The winning entry for a node, if any. -/
def get (r : Roster) (nodeId : NodeId) : Option SignedEntry := r.get? nodeId

/-- Every winner in node order: what gets persisted and gossiped. -/
def allEntries (r : Roster) : List SignedEntry := r.toList

/-- `b"replicore-roster-digest-v1\0"`. -/
def digestTag : List Byte := utf8 "replicore-roster-digest-v1".toList ++ [0]

/-- The bytes the digest is taken over. -/
def digestBytes (r : Roster) : List Byte :=
  digestTag ++ r.allEntries.flatMap SignedEntry.canonicalBytes

/-- **The digest bytes tell the winners**, but for fields outside the canonical bytes. -/
theorem canonical_of_digestBytes {r r' : Roster} (h : r.digestBytes = r'.digestBytes) (n : NodeId) :
    (r.get n).map SignedEntry.canonicalBytes = (r'.get n).map SignedEntry.canonicalBytes := by
  have hflat := List.append_cancel_left h
  have hlist := SignedEntry.selfDelimiting_canonicalBytes.map_eq_of_flatMap_eq
    SignedEntry.canonicalBytes_ne_nil hflat
  exact Lww.get?_map_of_toList_map
    (fun a b hab => (SignedEntry.fields_of_canonicalBytes hab).1) hlist n

theorem get_put_self (r : Roster) (e : SignedEntry) : get (r.put e) e.nodeId = some e :=
  (Lww.get?_put r e e.nodeId).trans (if_pos rfl)

theorem get_put_of_ne {n : NodeId} {e : SignedEntry} (r : Roster) (h : e.nodeId ≠ n) :
    get (r.put e) n = r.get n :=
  (Lww.get?_put r e n).trans (if_neg h)

section Merge

variable [Blake3] [Ed25519] {r : Roster} {e : SignedEntry} {pk : AdminPubKey}

/-- The single insertion choke point: verify, then keep the greater of the two entries. -/
def mergeEntry (r : Roster) (entry : SignedEntry) (pk : AdminPubKey) : Roster × MergeOutcome :=
  if entry.verify pk then
    match r.get entry.nodeId with
    | some cur =>
      if entry.orderKey ≤ cur.orderKey then (r, .superseded) else (r.put entry, .applied)
    | none => (r.put entry, .applied)
  else (r, .rejected)

/-- Feed a list of entries through the choke point. -/
def mergeEntries (r : Roster) (entries : List SignedEntry) (pk : AdminPubKey) : Roster :=
  entries.foldl (fun r e => (r.mergeEntry e pk).1) r

/-- Order-independent fingerprint of the whole roster. -/
def digest (r : Roster) : Hash := Blake3.hash r.digestBytes

/-- Load the file, re-verifying every entry; also the number of entries dropped. -/
def load (file : RosterFile) (pk : AdminPubKey) : Except RosterError (Roster × ℕ) :=
  match file with
  | .missing => .ok (.empty, 0)
  | .unreadable => .error .io
  | .invalid => .error .json
  | .rows es => .ok (es.foldl (fun acc e =>
      let (r, outcome) := mergeEntry acc.1 e pk
      (r, if outcome = .rejected then acc.2 + 1 else acc.2)) (.empty, 0))

/-- What saving leaves in the file. -/
def save (r : Roster) : RosterFile := .rows r.allEntries

/-- The entries that verify are merged by key, the others are dropped. -/
theorem mergeEntry_fst (r : Roster) (e : SignedEntry) (pk : AdminPubKey) :
    (r.mergeEntry e pk).1 = if e.verify pk then Lww.merge SignedEntry.orderKey r e else r := by
  unfold mergeEntry Lww.merge get
  split_ifs
  · cases r.get? e.nodeId with
    | none => rfl
    | some cur => simp only; split_ifs <;> rfl
  · rfl

theorem mergeEntries_eq (r : Roster) (es : List SignedEntry) (pk : AdminPubKey) :
    r.mergeEntries es pk =
      Lww.mergeAll SignedEntry.orderKey r (es.filter fun e => e.verify pk) := by
  induction es generalizing r with
  | nil => rfl
  | cons e es ih =>
    change (r.mergeEntry e pk).1.mergeEntries es pk = _
    rw [ih, mergeEntry_fst, List.filter_cons]
    split_ifs <;> rfl

theorem load_rows (es : List SignedEntry) (pk : AdminPubKey) :
    ∃ dropped, load (.rows es) pk = .ok (mergeEntries .empty es pk, dropped) := by
  have hfold : ∀ (es : List SignedEntry) (acc : Roster × ℕ), (es.foldl (fun acc e =>
      let (r, outcome) := mergeEntry acc.1 e pk
      (r, if outcome = .rejected then acc.2 + 1 else acc.2)) acc).1 =
      mergeEntries acc.1 es pk := by
    intro es
    induction es with
    | nil => intro acc; rfl
    | cons e es ih => intro acc; exact ih _
  exact ⟨_, congrArg Except.ok (Prod.ext (hfold es (.empty, 0)) rfl)⟩

/-- What an applied merge did. -/
theorem mergeEntry_applied (h : (r.mergeEntry e pk).2 = .applied) :
    e.verify pk ∧ (r.mergeEntry e pk).1 = r.put e ∧
      r.rankAt SignedEntry.orderKey e.nodeId < ↑e.orderKey := by
  unfold mergeEntry at h ⊢
  by_cases hv : e.verify pk
  · rw [if_pos hv] at h ⊢
    cases hget : r.get e.nodeId with
    | none =>
      refine ⟨hv, rfl, ?_⟩
      rw [Lww.rankAt_eq_bot.2 hget]
      exact WithBot.bot_lt_coe _
    | some cur =>
      simp only [hget] at h ⊢
      by_cases hle : e.orderKey ≤ cur.orderKey
      · rw [if_pos hle] at h
        cases h
      · rw [if_neg hle, Lww.rankAt_of_get? hget, WithBot.coe_lt_coe]
        exact ⟨hv, rfl, not_le.1 hle⟩
  · rw [if_neg hv] at h
    cases h

/-- An entry that verifies and beats the one that is there is applied. -/
theorem mergeEntry_of_lt (hv : e.verify pk)
    (hlt : r.rankAt SignedEntry.orderKey e.nodeId < ↑e.orderKey) :
    r.mergeEntry e pk = (r.put e, .applied) := by
  unfold mergeEntry
  rw [if_pos hv]
  cases hget : r.get e.nodeId with
  | none => rfl
  | some cur =>
    rw [Lww.rankAt_of_get? hget, WithBot.coe_lt_coe] at hlt
    exact if_neg (not_le.2 hlt)

/-- What was loaded verifies and is in the file. -/
theorem load_spec {file : RosterFile} {dropped : ℕ} {n : NodeId}
    (h : load file pk = .ok (r, dropped)) (hget : r.get n = some e) :
    e.verify pk ∧ ∃ es, file = .rows es ∧ e ∈ es := by
  cases file with
  | missing => cases h; cases hget
  | unreadable => cases h
  | invalid => cases h
  | rows es =>
    obtain ⟨dropped', hload⟩ := load_rows es pk
    obtain rfl : mergeEntries .empty es pk = r := by
      rw [hload] at h
      cases h
      rfl
    rw [mergeEntries_eq] at hget
    obtain hget | hmem := Lww.get?_mergeAll hget
    · cases hget
    · exact ⟨(List.mem_filter.1 hmem).2, es, rfl, (List.mem_filter.1 hmem).1⟩

/-- The number of entries dropped is the number of those that do not verify. -/
theorem load_rows_eq (es : List SignedEntry) (pk : AdminPubKey) :
    load (.rows es) pk = .ok (mergeEntries .empty es pk, es.countP fun e => !e.verify pk) := by
  have hfold : ∀ (es : List SignedEntry) (acc : Roster × ℕ), es.foldl (fun acc e =>
      let (r, outcome) := mergeEntry acc.1 e pk
      (r, if outcome = .rejected then acc.2 + 1 else acc.2)) acc =
      (mergeEntries acc.1 es pk, acc.2 + es.countP fun e => !e.verify pk) := by
    intro es
    induction es with
    | nil => intro acc; rfl
    | cons e es ih =>
      intro acc
      rw [List.foldl_cons, ih, List.countP_cons]
      have hrejected : (acc.1.mergeEntry e pk).2 = .rejected ↔ (!e.verify pk) = true := by
        unfold mergeEntry
        by_cases hv : e.verify pk
        · rw [if_pos hv, hv]
          cases acc.1.get e.nodeId with
          | none => simp
          | some cur => by_cases hle : e.orderKey ≤ cur.orderKey <;> simp [hle]
        · rw [if_neg hv]
          simp [hv]
      refine Prod.ext rfl ?_
      by_cases h : (acc.1.mergeEntry e pk).2 = .rejected
      · simp only [if_pos h, if_pos (hrejected.1 h)]
        omega
      · simp only [if_neg h, if_neg (hrejected.not.1 h)]
        omega
  have hload := hfold es (.empty, 0)
  rw [Nat.zero_add] at hload
  exact congrArg Except.ok hload

/-- Of what was saved, the entries that verify come back. -/
theorem get_mergeEntries_allEntries (r : Roster) (pk : AdminPubKey) (n : NodeId) :
    (mergeEntries .empty r.allEntries pk).get n = (r.get n).filter fun e => e.verify pk := by
  -- what comes back was saved, and what was saved is at or below what comes back
  have hback : ∀ {n e}, (mergeEntries .empty r.allEntries pk).get n = some e →
      r.get n = some e ∧ e.verify pk := by
    intro n e hget
    have hn : e.nodeId = n := (mergeEntries .empty r.allEntries pk).keyed n e hget
    rw [mergeEntries_eq] at hget
    obtain hget | hmem := Lww.get?_mergeAll hget
    · cases hget
    · exact ⟨hn ▸ Lww.mem_toList.1 (List.mem_filter.1 hmem).1, (List.mem_filter.1 hmem).2⟩
  cases hget : (mergeEntries .empty r.allEntries pk).get n with
  | some e =>
    obtain ⟨hn, hv⟩ := hback hget
    rw [hn, Option.filter_some, if_pos hv]
  | none =>
    cases hn : r.get n with
    | none => rfl
    | some e =>
      have hkey : e.nodeId = n := r.keyed n e hn
      rw [Option.filter_some, if_neg]
      intro hv
      have hmem : e ∈ r.allEntries.filter fun e => e.verify pk :=
        List.mem_filter.2 ⟨Lww.mem_toList.2 (hkey ▸ hn), hv⟩
      have hle : ↑e.orderKey ≤
          (mergeEntries .empty r.allEntries pk).rankAt SignedEntry.orderKey e.nodeId := by
        rw [mergeEntries_eq]
        exact Lww.point_le_iff.1 (Lww.point_le_mergeAll .empty hmem)
      rw [hkey, Lww.rankAt_eq_bot.2 hget] at hle
      exact absurd hle (WithBot.not_coe_le_bot _)

/-- Loading what was saved gives it back. -/
theorem load_save (h : ∀ n e, r.get n = some e → e.verify pk) :
    ∃ r' dropped, load r.save pk = .ok (r', dropped) ∧ ∀ n, r'.get n = r.get n := by
  refine ⟨_, _, load_rows_eq r.allEntries pk, fun n => ?_⟩
  rw [get_mergeEntries_allEntries]
  cases hn : r.get n with
  | none => rfl
  | some e => rw [Option.filter_some, if_pos (h n e hn)]

end Merge

end Roster

end Replicore
