import Replicore.Membership.Converge

/-!
# What the canonical bytes and the digest identify

The canonical bytes of an entry are made of its node, IP address, port, fingerprint, epoch and kind,
and these can be read off them.

* `SignedEntry.canonicalBytes_eq_iff` : entries have the same canonical bytes exactly if they have
  the same fields;
* `SignedEntry.flatMap_canonicalBytes_eq_iff` : also the concatenation of canonical bytes, of which
  there are two lengths and no separators, tells the fields of all entries;
* `Roster.digestBytes_eq_iff` : so the digest bytes tell the winners.

The flow label and the scope of a v6 address are outside all of this: they can change under a
signature.
-/

namespace Replicore

open Bytes

/-- An IP address. -/
inductive IpAddr
  | v4 (octets : U32)
  | v6 (octets : Fin (2 ^ 128))
  deriving DecidableEq

/-- The address without its port. -/
def SocketAddr.ip : SocketAddr → IpAddr
  | v4 ip _ => .v4 ip
  | v6 ip _ _ _ => .v6 ip

/-- What the canonical bytes are made of. -/
structure EntryFields where
  nodeId : NodeId
  ip : IpAddr
  port : Fin (2 ^ 16)
  fingerprint : Fingerprint
  epoch : U64
  kind : EntryKind
  deriving DecidableEq

namespace SignedEntry

/-- The fields that are signed. -/
def fields (e : SignedEntry) : EntryFields :=
  ⟨e.nodeId, e.addr.ip, e.addr.port, e.fingerprint, e.epoch, e.kind⟩

/-! ### One entry -/

theorem ipBytes_eq_iff {a b : SocketAddr} : a.ipBytes = b.ipBytes ↔ a.ip = b.ip := by
  cases a with
  | v4 ip port =>
    cases b with
    | v4 ip' port' =>
      simp only [SocketAddr.ipBytes, SocketAddr.ip, List.cons.injEq, true_and, IpAddr.v4.injEq]
      exact ⟨fun h => Fin.ext (beBytes_inj ip.isLt ip'.isLt h), fun h => by rw [h]⟩
    | v6 ip' port' flowinfo' scopeId' => simp [SocketAddr.ipBytes, SocketAddr.ip]
  | v6 ip port flowinfo scopeId =>
    cases b with
    | v4 ip' port' => simp [SocketAddr.ipBytes, SocketAddr.ip]
    | v6 ip' port' flowinfo' scopeId' =>
      simp only [SocketAddr.ipBytes, SocketAddr.ip, List.cons.injEq, true_and, IpAddr.v6.injEq]
      exact ⟨fun h => Fin.ext (beBytes_inj ip.isLt ip'.isLt h), fun h => by rw [h]⟩

/-- The port and the fingerprint can be read off the bytes after the address. -/
theorem port_of_tailBytes {a b : SignedEntry} (h : a.tailBytes = b.tailBytes) :
    a.addr.port = b.addr.port ∧ a.fingerprint = b.fingerprint := by
  unfold tailBytes at h
  simp only [List.append_assoc] at h
  obtain ⟨hport, h⟩ := List.append_inj h (by simp)
  obtain ⟨hfingerprint, -⟩ := List.append_inj h (by simp)
  exact ⟨Fin.ext (beBytes_inj a.addr.port.isLt b.addr.port.isLt hport),
    Fin.ext (beBytes_inj a.fingerprint.isLt b.fingerprint.isLt hfingerprint)⟩

/-- **The canonical bytes identify the fields.** -/
theorem canonicalBytes_eq_iff {a b : SignedEntry} :
    a.canonicalBytes = b.canonicalBytes ↔ a.fields = b.fields := by
  constructor
  · intro h
    obtain ⟨hnode, hepoch, hkind⟩ := fields_of_canonicalBytes h
    obtain ⟨-, hip, htail⟩ := canonicalBytes_append (congrArg (· ++ ([] : List Byte)) h)
    obtain ⟨hport, hfingerprint⟩ := port_of_tailBytes htail
    rw [fields, fields, hnode, ipBytes_eq_iff.1 hip, hport, hfingerprint, hepoch, hkind]
  · intro h
    simp only [fields, EntryFields.mk.injEq] at h
    obtain ⟨hnode, hip, hport, hfingerprint, hepoch, hkind⟩ := h
    rw [canonicalBytes_eq, canonicalBytes_eq, tailBytes, tailBytes, hnode, ipBytes_eq_iff.2 hip,
      hport, hfingerprint, hepoch, hkind]

/-- **Unique parsing**: canonical bytes put one behind the other tell the fields of every entry. -/
theorem flatMap_canonicalBytes_eq_iff {es es' : List SignedEntry} :
    es.flatMap canonicalBytes = es'.flatMap canonicalBytes ↔ es.map fields = es'.map fields := by
  have hfields : es.map canonicalBytes = es'.map canonicalBytes ↔
      es.map fields = es'.map fields := by
    induction es generalizing es' with
    | nil => simp
    | cons e es ih =>
      cases es' with
      | nil => simp
      | cons e' es' =>
        rw [List.map_cons, List.map_cons, List.map_cons, List.map_cons, List.cons.injEq,
          List.cons.injEq, canonicalBytes_eq_iff, ih]
  rw [← hfields]
  constructor
  · exact selfDelimiting_canonicalBytes.map_eq_of_flatMap_eq canonicalBytes_ne_nil
  · intro h
    rw [List.flatMap_def, List.flatMap_def, h]

/-- The fields of two entries that a roster may hold for a node. -/
theorem map_canonicalBytes_eq_iff {o o' : Option SignedEntry} :
    o.map canonicalBytes = o'.map canonicalBytes ↔ o.map fields = o'.map fields := by
  cases o with
  | none => cases o' <;> simp
  | some e =>
    cases o' with
    | none => simp
    | some e' => simp [canonicalBytes_eq_iff]

/-- The signature is one of a single message: what a signature scheme promises of the signatures
that the holder of the key has made. -/
def SignsOne [Ed25519] (pk : AdminPubKey) (sig : Signature) : Prop :=
  ∀ m m', Ed25519.verify pk m sig → Ed25519.verify pk m' sig → m = m'

/-- A signature belongs to the fields it was made for. -/
theorem fields_of_verify [Ed25519] {pk : AdminPubKey} {e e' : SignedEntry} (h : SignsOne pk e.sig)
    (hsig : e'.sig = e.sig) (he : e.verify pk) (he' : e'.verify pk) : e'.fields = e.fields := by
  have hmessage : e'.canonicalBytes = e.canonicalBytes := by
    refine h _ _ ?_ he
    rw [← hsig]
    exact he'
  exact canonicalBytes_eq_iff.1 hmessage

end SignedEntry

namespace Roster

/-- **The digest bytes identify the roster**: they are equal exactly for rosters with the same
winners. -/
theorem digestBytes_eq_iff {r r' : Roster} : r.digestBytes = r'.digestBytes ↔
    ∀ n, (r.get n).map SignedEntry.fields = (r'.get n).map SignedEntry.fields := by
  constructor
  · intro h n
    exact SignedEntry.map_canonicalBytes_eq_iff.1 (canonical_of_digestBytes h n)
  · intro h
    have hlist : r.allEntries.map SignedEntry.canonicalBytes =
        r'.allEntries.map SignedEntry.canonicalBytes :=
      Lww.toList_map_congr fun n => SignedEntry.map_canonicalBytes_eq_iff.2 (h n)
    rw [digestBytes, digestBytes, List.flatMap_def, List.flatMap_def, hlist]

/-- **Canonical bytes and digest identify the roster.**  The canonical bytes are equal exactly for
equal fields, so an entry that carries the signature of another one is rejected wherever it is
offered; canonical bytes put one behind the other can be taken apart; and rosters have the same
digest exactly if they have the same winners, unless BLAKE3 collides on the two. -/
theorem digest_identifies [Blake3] [Ed25519] :
    (∀ nodeId addr fingerprint epoch kind nodeId' addr' fingerprint' epoch' kind',
      canonicalEntryBytes nodeId addr fingerprint epoch kind =
          canonicalEntryBytes nodeId' addr' fingerprint' epoch' kind' ↔
        nodeId = nodeId' ∧ addr.ip = addr'.ip ∧ addr.port = addr'.port ∧
          fingerprint = fingerprint' ∧ epoch = epoch' ∧ kind = kind') ∧
      (∀ (pk : AdminPubKey) (r : Roster) (e e' : SignedEntry), SignedEntry.SignsOne pk e.sig →
        e.verify pk → e'.sig = e.sig → e'.fields ≠ e.fields →
          r.mergeEntry e' pk = (r, .rejected)) ∧
      (∀ es es' : List SignedEntry, es.flatMap SignedEntry.canonicalBytes =
          es'.flatMap SignedEntry.canonicalBytes ↔
        es.map SignedEntry.fields = es'.map SignedEntry.fields) ∧
      ∀ r r' : Roster, (Blake3.hash r.digestBytes = Blake3.hash r'.digestBytes →
          r.digestBytes = r'.digestBytes) →
        (r.digest = r'.digest ↔
          ∀ n, (r.get n).map SignedEntry.fields = (r'.get n).map SignedEntry.fields) := by
  refine ⟨?_, ?_, fun _ _ => SignedEntry.flatMap_canonicalBytes_eq_iff, ?_⟩
  · intro nodeId addr fingerprint epoch kind nodeId' addr' fingerprint' epoch' kind'
    have hentry := SignedEntry.canonicalBytes_eq_iff
      (a := ⟨nodeId, addr, fingerprint, epoch, kind, (0, 0)⟩)
      (b := ⟨nodeId', addr', fingerprint', epoch', kind', (0, 0)⟩)
    simpa only [SignedEntry.canonicalBytes, SignedEntry.fields, EntryFields.mk.injEq] using hentry
  · intro pk r e e' hone he hsig hne
    have hreject : ¬ e'.verify pk := fun he' =>
      hne (SignedEntry.fields_of_verify hone hsig he he')
    rw [mergeEntry, if_neg hreject]
  · intro r r' hcollide
    rw [← digestBytes_eq_iff]
    exact ⟨hcollide, congrArg Blake3.hash⟩

/-- The scope of an address is not signed. -/
example : canonicalEntryBytes 1 (.v6 1 7000 0 0) 17 1 .add =
    canonicalEntryBytes 1 (.v6 1 7000 0 3) 17 1 .add := rfl

section Example

/-- The entry that adds a node at a v4 address. -/
def added : SignedEntry := ⟨1, .v4 0x0A000001 7000, 17, 1, .add, (1, 1)⟩

/-- A signature scheme in which one message has been signed. -/
@[reducible] def addedSignature : Ed25519 where
  verify _ m sig := m == added.canonicalBytes && sig == added.sig

attribute [local instance] Blake3.polynomial addedSignature

theorem signsOne_added : SignedEntry.SignsOne 7 added.sig := by
  intro m m' hm hm'
  have hone : m = added.canonicalBytes := by simpa [Ed25519.verify] using hm
  have hone' : m' = added.canonicalBytes := by simpa [Ed25519.verify] using hm'
  rw [hone, hone']

/-- The roster with this entry. -/
def withAdded : Roster := (mergeEntry .empty added 7).1

/-- The signature of an addition does not carry over to a removal, and the digest tells the roster
with the addition from the empty one. -/
theorem digest_identifies_transplant :
    mergeEntry .empty { added with kind := .remove } 7 = (.empty, .rejected) ∧
      withAdded.digest ≠ digest .empty := by
  refine ⟨digest_identifies.2.1 7 .empty added { added with kind := .remove } signsOne_added
    (by decide +kernel) rfl (by decide), fun hdigest => ?_⟩
  have happart : Blake3.hash withAdded.digestBytes = Blake3.hash (digestBytes .empty) →
      withAdded.digestBytes = digestBytes .empty := fun h => absurd h (by decide +kernel)
  have hfields := (digest_identifies.2.2.2 withAdded .empty happart).1 hdigest 1
  revert hfields
  decide +kernel

end Example

end Roster

end Replicore
