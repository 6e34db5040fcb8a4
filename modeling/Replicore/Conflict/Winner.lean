import Mathlib.Order.Bounds.Basic
import Replicore.Conflict.Plan

/-!
# The rank of a version

A resolution orders versions by key, and settles what the key does not see: among the kept versions
of the winning key the largest uuid is taken.  Both together are the rank of a version, and the
winner's row has the best rank of all kept candidates (`rank_winnerRow`).
-/

namespace Replicore

/-- Key, then uuid. -/
abbrev Rank := Key ×ₗ NodeId

/-- The rank of a version. -/
def Version.rank (v : Version) : Rank := toLex (v.key, v.uuid.getD 0)

/-- A version whose derived fields are in order: the metadata hash is that of the metadata, a
tombstone has no metadata, and there is an identity. -/
structure Version.Tidy [Blake3] (v : Version) : Prop where
  metaHash : v.metaHash = Meta.hashOf v.metadata
  tombstone : v.tombstone = true → v.metadata = none
  uuid : v.uuid.isSome

/-- The uuid of the winner's row is the largest of those of the winning key. -/
theorem uuid_winnerRow (path : Path) (cs : List Version) {maximal : List Version}
    {winner : Version} (hw : winner ∈ maximal) (hu : winner.uuid.isSome) :
    ∃ u, (winnerRow path cs maximal winner).uuid = some u ∧
      (∃ k ∈ maximal, k.key = winner.key ∧ k.uuid = some u) ∧
      ∀ k ∈ maximal, k.key = winner.key → ∀ v, k.uuid = some v → v ≤ u := by
  set uuids := (maximal.filter fun m => m.key = winner.key).filterMap (·.uuid) with huuids
  have hmem : ∀ v, v ∈ uuids ↔ ∃ k ∈ maximal, k.key = winner.key ∧ k.uuid = some v := by
    intro v
    simp [huuids, and_assoc]
  obtain ⟨v, hv⟩ := Option.isSome_iff_exists.1 hu
  have hne : uuids ≠ [] := List.ne_nil_of_mem ((hmem v).2 ⟨winner, hw, rfl, hv⟩)
  obtain ⟨u, hmax⟩ := Option.isSome_iff_exists.1 (List.isSome_max?_of_ne_nil hne)
  obtain ⟨hu', hle⟩ := List.max?_eq_some_iff.1 hmax
  refine ⟨u, ?_, (hmem u).1 hu', fun k hk hkey v hv => hle v ((hmem v).2 ⟨k, hk, hkey, hv⟩)⟩
  change uuids.max?.or winner.uuid = some u
  rw [hmax]
  rfl

/-- The mode of a live winner's row is the largest of those of the winning key. -/
theorem mode_winnerRow (path : Path) (cs : List Version) {maximal : List Version}
    {winner : Version} (hw : winner ∈ maximal) (hlive : winner.tombstone = false) :
    IsGreatest {m | ∃ k ∈ maximal, k.key = winner.key ∧ k.mode = m}
      (winnerRow path cs maximal winner).mode := by
  set modes := (maximal.filter fun m => m.key = winner.key).map (·.mode) with hmodes
  have hmem : ∀ m, m ∈ modes ↔ ∃ k ∈ maximal, k.key = winner.key ∧ k.mode = m := by
    intro m
    simp [hmodes, and_assoc]
  have hne : modes ≠ [] := List.ne_nil_of_mem ((hmem winner.mode).2 ⟨winner, hw, rfl, rfl⟩)
  obtain ⟨m, hmax⟩ := Option.isSome_iff_exists.1 (List.isSome_max?_of_ne_nil hne)
  obtain ⟨hm, hle⟩ := List.max?_eq_some_iff.1 hmax
  have hmode : (winnerRow path cs maximal winner).mode = m := by
    change (if winner.tombstone then 0 else modes.max?.getD winner.mode) = m
    rw [hlive, hmax]
    rfl
  rw [hmode]
  exact ⟨(hmem m).1 hm, fun x hx => hle x ((hmem x).2 hx)⟩

variable [Blake3]

theorem key_winnerRow (path : Path) (cs maximal : List Version) {winner : Version}
    (h : winner.Tidy) :
    (Version.fromRow (winnerRow path cs maximal winner).toRow).key = winner.key := by
  have hmeta : Meta.hashOf (if winner.tombstone then none else winner.metadata) =
      winner.metaHash := by
    split_ifs with ht
    · rw [h.metaHash, h.tombstone ht]
    · rw [h.metaHash]
  simp only [Version.key, Version.fromRow, winnerRow, hmeta]

/-- The winner's row has the best rank of the kept candidates. -/
theorem rank_winnerRow (path : Path) {cs losers : List Version} {winner : Version}
    (h : antichain cs = winner :: losers) (htidy : ∀ c ∈ cs, c.Tidy) :
    (∃ k ∈ antichain cs,
      k.rank = (Version.fromRow (winnerRow path cs (winner :: losers) winner).toRow).rank) ∧
    ∀ k ∈ antichain cs,
      k.rank ≤ (Version.fromRow (winnerRow path cs (winner :: losers) winner).toRow).rank := by
  have hkept : ∀ k ∈ antichain cs, k.Tidy := fun k hk => htidy k (mem_of_mem_antichain hk)
  have hw : winner ∈ antichain cs := h ▸ List.mem_cons_self
  have hkey := key_winnerRow path cs (winner :: losers) (hkept winner hw)
  obtain ⟨u, hu, ⟨k₀, hk₀, hkey₀, hu₀⟩, hle⟩ :=
    uuid_winnerRow path cs (h ▸ hw) (hkept winner hw).uuid
  have hrank : (Version.fromRow (winnerRow path cs (winner :: losers) winner).toRow).rank =
      toLex (winner.key, u) := by
    rw [Version.rank, hkey]
    change toLex (winner.key, (winnerRow path cs (winner :: losers) winner).uuid.getD 0) = _
    rw [hu]
    rfl
  rw [hrank]
  refine ⟨⟨k₀, h ▸ hk₀, ?_⟩, fun k hk => ?_⟩
  · rw [Version.rank, hkey₀, hu₀]
    rfl
  · rw [Version.rank, Prod.Lex.toLex_le_toLex]
    rcases (key_le_head h hk).lt_or_eq with hlt | heq
    · exact .inl hlt
    · obtain ⟨v, hv⟩ := Option.isSome_iff_exists.1 (hkept k hk).uuid
      rw [hv]
      exact .inr ⟨heq, hle k (h ▸ hk) heq v hv⟩

end Replicore
