import Mathlib.Data.Set.Function
import Replicore.Membership.Roster

/-!
# Convergence of the roster

Whatever entries a roster is offered, in whatever order, it ends with the greatest verifying entry
for every node (`Roster.isWinner_mergeEntries`), and rosters with the same winners have the same
digest (`Roster.digest_congr`).  An addition never displaces a removal of its epoch or a later one
(`Roster.roster_convergence`).
-/

namespace Replicore

namespace Roster

open Bytes

/-- Everything a roster was started with or offered, of what it accepts. -/
def seen [Ed25519] (pk : AdminPubKey) (start : Roster) (es : List SignedEntry) : Set SignedEntry :=
  {e | start.get e.nodeId = some e ∨ e ∈ es ∧ e.verify pk}

section Winners

variable [Blake3] {S : Set SignedEntry} {pk : AdminPubKey} {start r r' : Roster}
  {es : List SignedEntry}

/-- What a roster that has seen `S` has to hold for a node: the greatest entry, which no other has
the key of but for fields outside the canonical bytes; or nothing, if `S` has nothing. -/
def IsWinner (S : Set SignedEntry) (nodeId : NodeId) : Option SignedEntry → Prop
  | some e => e ∈ S ∧ e.nodeId = nodeId ∧ ∀ e' ∈ S, e'.nodeId = nodeId →
      e'.orderKey ≤ e.orderKey ∧
        (e'.orderKey = e.orderKey → e'.canonicalBytes = e.canonicalBytes)
  | none => ∀ e ∈ S, e.nodeId ≠ nodeId

/-- No two entries of the set collide under BLAKE3. -/
def EntriesApart (S : Set SignedEntry) : Prop :=
  Set.InjOn Blake3.hash (SignedEntry.canonicalBytes '' S)

theorem EntriesApart.canonical_eq (h : EntriesApart S) {a b : SignedEntry} (ha : a ∈ S)
    (hb : b ∈ S) (hkey : a.orderKey = b.orderKey) : a.canonicalBytes = b.canonicalBytes :=
  h ⟨a, ha, rfl⟩ ⟨b, hb, rfl⟩ (SignedEntry.hash_eq_of_orderKey_eq hkey)

theorem EntriesApart.of_list {es : List SignedEntry} (hS : ∀ e ∈ S, e ∈ es)
    (h : ∀ a ∈ es, ∀ b ∈ es, Blake3.hash a.canonicalBytes = Blake3.hash b.canonicalBytes →
      a.canonicalBytes = b.canonicalBytes) : EntriesApart S := by
  rintro _ ⟨a, ha, rfl⟩ _ ⟨b, hb, rfl⟩ hab
  exact h a (hS a ha) b (hS b hb) hab

/-- Winners of one set agree in the canonical bytes. -/
theorem IsWinner.canonical_eq {n : NodeId} {o o' : Option SignedEntry} (h : IsWinner S n o)
    (h' : IsWinner S n o') :
    o.map SignedEntry.canonicalBytes = o'.map SignedEntry.canonicalBytes := by
  cases o with
  | none =>
    cases o' with
    | none => rfl
    | some e' => exact absurd h'.2.1 (h e' h'.1)
  | some e =>
    cases o' with
    | none => exact absurd h.2.1 (h' e h.1)
    | some e' =>
      have hle := h.2.2 e' h'.1 h'.2.1
      have hge := h'.2.2 e h.1 h.2.1
      exact congrArg some (hge.2 (le_antisymm hge.1 hle.1))

/-- The digest depends on the canonical bytes of the winners only. -/
theorem digest_congr (h : ∀ n, (r.get n).map SignedEntry.canonicalBytes =
    (r'.get n).map SignedEntry.canonicalBytes) : r.digest = r'.digest := by
  have hbytes : r.digestBytes = r'.digestBytes := by
    simp only [digestBytes, allEntries, List.flatMap_def]
    rw [Lww.toList_map_congr h]
  exact congrArg Blake3.hash hbytes

variable [Ed25519]

/-- **The greatest verifying entry wins**, for every node. -/
theorem isWinner_mergeEntries (hapart : EntriesApart (seen pk start es)) (n : NodeId) :
    IsWinner (seen pk start es) n ((start.mergeEntries es pk).get n) := by
  -- whatever was seen is at or below the rank of the result
  have hbelow : ∀ e ∈ seen pk start es, e.nodeId = n →
      ↑e.orderKey ≤ (start.mergeEntries es pk).rankAt SignedEntry.orderKey n := by
    rintro e (he | ⟨he, hv⟩) rfl
    · rw [mergeEntries_eq, ← Lww.rankAt_of_get? he]
      exact Lww.rankAt_le_mergeAll start _ e.nodeId
    · rw [mergeEntries_eq]
      exact Lww.point_le_iff.1 (Lww.point_le_mergeAll start (List.mem_filter.2 ⟨he, hv⟩))
  cases hget : (start.mergeEntries es pk).get n with
  | none =>
    intro e he hn
    have := hbelow e he hn
    rw [Lww.rankAt_eq_bot.2 hget] at this
    exact absurd this (WithBot.not_coe_le_bot _)
  | some w =>
    have hn : w.nodeId = n := (start.mergeEntries es pk).keyed n w hget
    have hmem : w ∈ seen pk start es := by
      subst hn
      rw [mergeEntries_eq] at hget
      obtain h | h := Lww.get?_mergeAll hget
      · exact .inl h
      · exact .inr (List.mem_filter.1 h)
    refine ⟨hmem, hn, fun e he hen => ⟨?_, hapart.canonical_eq he hmem⟩⟩
    have := hbelow e he hen
    rwa [Lww.rankAt_of_get? hget, WithBot.coe_le_coe] at this

/-- The key stored for a node never decreases. -/
theorem orderKey_le_of_append {pre post : List SignedEntry} {n : NodeId} {e : SignedEntry}
    (h : (start.mergeEntries pre pk).get n = some e) :
    ∃ e', (start.mergeEntries (pre ++ post) pk).get n = some e' ∧ e.orderKey ≤ e'.orderKey := by
  have hle : (start.mergeEntries pre pk).rankAt SignedEntry.orderKey n ≤
      (start.mergeEntries (pre ++ post) pk).rankAt SignedEntry.orderKey n := by
    simp only [mergeEntries_eq, List.filter_append, Lww.mergeAll_append]
    exact Lww.rankAt_le_mergeAll _ _ n
  rw [Lww.rankAt_of_get? h] at hle
  obtain ⟨x, hx, hex⟩ := WithBot.coe_le_iff.1 hle
  obtain ⟨e', he', rfl⟩ := Lww.get?_of_rankAt hx
  exact ⟨e', he', hex⟩

/-- **Roster convergence.**  From any start and for any list of entries: the greatest verifying
entry stands for every node; whoever has seen the same has the same digest; and the entry of a node
only ever gives way to a greater one, so never a removal to an addition of its epoch or before. -/
theorem roster_convergence (pk : AdminPubKey) (start : Roster) (es : List SignedEntry)
    (hapart : EntriesApart (seen pk start es)) :
    (∀ n, IsWinner (seen pk start es) n ((start.mergeEntries es pk).get n)) ∧
      (∀ start' es', seen pk start' es' = seen pk start es →
        (start'.mergeEntries es' pk).digest = (start.mergeEntries es pk).digest) ∧
      ∀ pre post, es = pre ++ post → ∀ n e, (start.mergeEntries pre pk).get n = some e →
        ∃ e', (start.mergeEntries es pk).get n = some e' ∧ e.orderKey ≤ e'.orderKey ∧
          (e.kind = .remove → e'.kind = .add → e.epoch < e'.epoch) := by
  refine ⟨isWinner_mergeEntries hapart, ?_, ?_⟩
  · intro start' es' hseen
    refine digest_congr fun n => ?_
    have h := isWinner_mergeEntries hapart n
    have h' := isWinner_mergeEntries (hseen ▸ hapart) n
    exact (hseen ▸ h').canonical_eq h
  · rintro pre post rfl n e he
    obtain ⟨e', he', hle⟩ := orderKey_le_of_append he
    exact ⟨e', he', hle, fun hr ha => SignedEntry.epoch_lt_of_remove_le_add hr ha hle⟩

end Winners

section Example

/-- A signature scheme that can be evaluated: the digest of the key and the message. -/
@[reducible] def polynomialSignature : Ed25519 where
  verify pk bs sig := sig.1 == Blake3.polynomial.hash (beBytes 32 pk.val ++ bs)

attribute [local instance] Blake3.polynomial polynomialSignature

/-- An entry about node 1, signed by the holder of key 7. -/
def signedEntry (epoch : U64) (kind : EntryKind) : SignedEntry :=
  let addr := SocketAddr.v4 0x0A000001 7000
  { nodeId := 1, addr, fingerprint := 17, epoch, kind
    sig := (Blake3.polynomial.hash
      (beBytes 32 7 ++ canonicalEntryBytes 1 addr 17 epoch kind), 0) }

/-- A removal between two additions, the later of which is forged. -/
def offered : List SignedEntry :=
  [signedEntry 1 .add, signedEntry 2 .remove, { signedEntry 3 .add with sig := (0, 0) }]

theorem entriesApart_offered : EntriesApart (seen 7 .empty offered) := by
  have hmem : ∀ e ∈ seen 7 .empty offered, e ∈ offered := by
    rintro e (he | he)
    · cases he
    · exact he.1
  exact EntriesApart.of_list hmem (by decide +kernel)

theorem roster_convergence_forged_add :
    EntriesApart (seen 7 .empty offered) ∧
      (mergeEntries .empty offered 7).get 1 = some (signedEntry 2 .remove) ∧
      ∀ start' es', seen 7 start' es' = seen 7 .empty offered →
        (start'.mergeEntries es' 7).digest =
          (mergeEntries .empty offered 7).digest :=
  ⟨entriesApart_offered, by decide +kernel,
    (roster_convergence 7 .empty offered entriesApart_offered).2.1⟩

end Example

end Roster

end Replicore
