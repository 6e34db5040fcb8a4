import Mathlib.Data.List.Pairwise
import Mathlib.Order.MinMax
import Replicore.Lib.Text
import Replicore.Store.Types
import Replicore.Vv.Lattice

/-!
# Deterministic conflict resolution, the pure half

The planner of `conflict.rs`: which version of a conflicted path wins, and which rows the losers
become.

* `antichain` reduces the candidates to those that no other candidate dominates, by one scan that
  keeps a list of pairwise concurrent versions, and sorts them by `Version.key`, largest first;
* `planCandidates` derives the planned rows: the winner at the path, and every loser that has
  content at its content-derived name, with a bounded chain when that name is taken
  (`placeCopy`).

The first part of the file is the translation; the second says what a scan and a plan do.
-/

namespace Replicore

open Bytes

/-- A full version descriptor: one candidate in a resolution. -/
structure Version extends Row where
  /-- Canonical hash of the metadata. -/
  metaHash : Hash
  deriving DecidableEq

/-- The total-order key: kind rank, content hash, metadata hash. -/
abbrev Key := ℕ ×ₗ Hash ×ₗ Hash

namespace Version

/-- The total-order key.  Larger wins. -/
def key (v : Version) : Key :=
  toLex (if v.tombstone then 0 else 1, toLex (v.contentHash.getD 0, v.metaHash))

/-- A candidate from the `files` index. -/
def fromRow [Blake3] (r : Row) : Version := { r with metaHash := Meta.hashOf r.metadata }

@[simp] theorem fromRow_vv [Blake3] (r : Row) : (fromRow r).vv = r.vv := rfl

end Version

/-- Marker embedded in every conflict-copy file name. -/
def copyMarker : List Char := ".sync-conflict-".toList

/-- Copy chains longer than this are refused. -/
def maxCopyDepth : ℕ := 4

/-! ### The antichain scan -/

/-- The inner loop of the scan for one candidate: what remains of the kept list, and whether the
candidate is to be pushed (it is not when a kept version dominates or equals it). -/
def scanKept (c : Version) : List Version → List Version × Bool
  | [] => ([], true)
  | k :: ks =>
    match c.vv.compare k.vv with
    | .dominated | .equal => (k :: ks, false)
    | .dominates => scanKept c ks
    | .concurrent => (k :: (scanKept c ks).1, (scanKept c ks).2)

/-- One round of the scan. -/
def keepCandidate (keep : List Version) (c : Version) : List Version :=
  if (scanKept c keep).2 then (scanKept c keep).1 ++ [c] else (scanKept c keep).1

/-- Reduce candidates to the maximal antichain, by key descending. -/
def antichain (candidates : List Version) : List Version :=
  (candidates.foldl keepCandidate []).insertionSort fun a b => b.key ≤ a.key

/-! ### Conflict copies -/

section

variable [Blake3]

/-- The 16 hex digits of a conflict-copy name. -/
def copyHex (loserHash loserMeta : Hash) : List Char :=
  hexEncode ((Blake3.hash (loserHash.bytes ++ loserMeta.bytes)).bytes.take 8)

/-- The part of a path up to and including its last separator, and the rest. -/
def splitDir (path : Path) : Path × Path :=
  match Text.rsplitOnce '/' path with
  | some (dir, name) => (dir ++ ['/'], name)
  | none => ([], path)

/-- A file name with the conflict marker before its extension; a leading dot is not an
extension. -/
def markName (name hex : List Char) : List Char :=
  match Text.rsplitOnce '.' name with
  | some (x :: stem, ext) => x :: stem ++ copyMarker ++ hex ++ '.' :: ext
  | _ => name ++ copyMarker ++ hex

/-- Conflict-copy name for a losing version. -/
def copyPathFor (path : Path) (loserHash loserMeta : Hash) : Path :=
  (splitDir path).1 ++ markName (splitDir path).2 (copyHex loserHash loserMeta)

/-- Synthetic origin for a conflict-copy row: `blake3("replicore-conflict" ‖ copy_path)`,
truncated. -/
def copyOrigin (copyPath : Path) : NodeId :=
  (Blake3.hash (utf8 ("replicore-conflict".toList ++ copyPath))).first16

/-- The copy row's version vector. -/
def copyVv (copyPath : Path) : VersionVector := VersionVector.fromIter [(copyOrigin copyPath, 1)]

/-! ### The plan -/

/-- Merge of the vectors of all candidates. -/
def mergeAll (candidates : List Version) : VersionVector :=
  candidates.foldl (fun vv c => vv.merge c.vv) VersionVector.new

/-- The row of the winner: it absorbs every contender's vector; `mode` and `uuid`, which are part
of no key, are normalized over the members of equal key. -/
def winnerRow (path : Path) (candidates maximal : List Version) (winner : Version) : PlannedRow :=
  let equalKey := maximal.filter fun m => m.key = winner.key
  { path
    contentHash := winner.contentHash
    mode := if winner.tombstone then 0 else (equalKey.map (·.mode)).max?.getD winner.mode
    size := if winner.tombstone then 0 else winner.size
    tombstone := winner.tombstone
    vv := mergeAll candidates
    uuid := ((equalKey.filterMap (·.uuid)).max?).or winner.uuid
    metadata := if winner.tombstone then none else winner.metadata }

/-- The row of a conflict copy at a free name. -/
def copyRow (cp : Path) (content : Version) : PlannedRow where
  path := cp
  contentHash := content.contentHash
  mode := content.mode
  size := content.size
  tombstone := false
  vv := copyVv cp
  uuid := some (copyOrigin cp)
  metadata := content.metadata

/-- The version a copy contends with when its name is taken. -/
def asCopy (cp : Path) (content : Version) : Version :=
  { content with tombstone := false, vv := copyVv cp, uuid := some (copyOrigin cp) }

/-- The row at a taken copy name: the winner `w` of the occupant and the copy, absorbing both
vectors. -/
def collisionRow (cp : Path) (existing w l : Version) : PlannedRow where
  path := cp
  contentHash := w.contentHash
  mode := if w.key = l.key then max w.mode l.mode else w.mode
  size := w.size
  tombstone := false
  vv := existing.vv.merge (copyVv cp)
  uuid := if w.key = l.key then (w.uuid.toList ++ l.uuid.toList).max?
    else w.uuid.or (some (copyOrigin cp))
  metadata := w.metadata

/-- The copy chain: place `content` at `cp`; a collision with a row that occupies the name pushes
the loser one link further.  `none` when the depth is exhausted. -/
def placeCopy (lookup : Path → Option Version) :
    ℕ → List PlannedRow → Path → Version → Option (List PlannedRow)
  | 0, _, _, _ => none
  | depth + 1, rows, cp, content =>
    if rows.any fun r => r.path = cp then some rows
    else match lookup cp with
      | none => some (rows ++ [copyRow cp content])
      | some existing =>
        match (copyVv cp).compare existing.vv with
        | .dominates => some (rows ++ [copyRow cp content])
        | .equal | .dominated => some rows
        | .concurrent =>
          match antichain [existing, asCopy cp content] with
          | w :: l :: _ =>
            match l.contentHash with
            | some lh =>
              if l.key = w.key then some (rows ++ [collisionRow cp existing w l])
              else placeCopy lookup depth (rows ++ [collisionRow cp existing w l])
                (copyPathFor cp lh (Meta.namingHash l.metadata)) l
            | none => some (rows ++ [collisionRow cp existing w l])
          | _ => some rows

/-- The copies of the losers, in key order. -/
def planCopies (lookup : Path → Option Version) (path : Path) (winner : Version) :
    List PlannedRow → List Version → Option (List PlannedRow)
  | rows, [] => some rows
  | rows, loser :: losers =>
    match loser.contentHash with
    | none => planCopies lookup path winner rows losers
    | some hash =>
      if loser.key = winner.key then planCopies lookup path winner rows losers
      else match placeCopy lookup maxCopyDepth rows
          (copyPathFor path hash (Meta.namingHash loser.metadata)) loser with
        | none => none
        | some rows' => planCopies lookup path winner rows' losers

/-- Derive the full row plan for one conflicted path. -/
def planCandidates (path : Path) (candidates : List Version) (lookup : Path → Option Version) :
    Option (List PlannedRow) :=
  match antichain candidates with
  | [] => none
  | winner :: losers =>
    planCopies lookup path winner
      [winnerRow path candidates (winner :: losers) winner] losers

end

/-! ### What the scan keeps -/

/-- Two versions neither of which is at or above the other. -/
def Concurrent (a b : Version) : Prop := ¬ a.vv ≤ b.vv ∧ ¬ b.vv ≤ a.vv

theorem Concurrent.symm {a b : Version} (h : Concurrent a b) : Concurrent b a := ⟨h.2, h.1⟩

instance : Std.Symm Concurrent := ⟨fun _ _ => Concurrent.symm⟩

theorem scanKept_sublist (c : Version) (ks : List Version) : (scanKept c ks).1.Sublist ks := by
  induction ks with
  | nil => exact List.Sublist.refl _
  | cons k ks ih =>
    simp only [scanKept]
    split
    · exact List.Sublist.refl _
    · exact List.Sublist.refl _
    · exact ih.cons k
    · exact ih.cons_cons k

/-- A pushed candidate is concurrent with everything that stays. -/
theorem concurrent_of_mem_scanKept {c : Version} {ks : List Version}
    (hp : (scanKept c ks).2 = true) : ∀ k ∈ (scanKept c ks).1, Concurrent c k := by
  induction ks with
  | nil => intro k hk; cases hk
  | cons k ks ih =>
    cases hc : c.vv.compare k.vv with
    | dominated => simp [scanKept, hc] at hp
    | equal => simp [scanKept, hc] at hp
    | dominates =>
      simp only [scanKept, hc] at hp ⊢
      exact ih hp
    | concurrent =>
      simp only [scanKept, hc] at hp ⊢
      intro x hx
      rcases List.mem_cons.1 hx with rfl | hx
      · exact VersionVector.compare_eq_concurrent.1 hc
      · exact ih hp x hx

/-- A candidate that is not pushed is at or below a kept version. -/
theorem exists_ge_of_not_push {c : Version} {ks : List Version}
    (hp : (scanKept c ks).2 = false) : ∃ k ∈ (scanKept c ks).1, c.vv ≤ k.vv := by
  induction ks with
  | nil => simp [scanKept] at hp
  | cons k ks ih =>
    cases hc : c.vv.compare k.vv with
    | dominated =>
      exact ⟨k, by simp [scanKept, hc], (VersionVector.compare_eq_dominated.1 hc).le⟩
    | equal => exact ⟨k, by simp [scanKept, hc], (VersionVector.compare_eq_equal.1 hc).1⟩
    | dominates =>
      simp only [scanKept, hc] at hp ⊢
      exact ih hp
    | concurrent =>
      simp only [scanKept, hc] at hp ⊢
      obtain ⟨x, hx, hle⟩ := ih hp
      exact ⟨x, List.mem_cons_of_mem _ hx, hle⟩

/-- A kept version that the scan drops is strictly below the candidate. -/
theorem lt_of_dropped {c : Version} {ks : List Version} {k : Version} (hk : k ∈ ks)
    (hd : k ∉ (scanKept c ks).1) : k.vv < c.vv := by
  induction ks with
  | nil => cases hk
  | cons x ks ih =>
    cases hc : c.vv.compare x.vv with
    | dominated => simp only [scanKept, hc] at hd; exact absurd hk hd
    | equal => simp only [scanKept, hc] at hd; exact absurd hk hd
    | dominates =>
      simp only [scanKept, hc] at hd
      rcases List.mem_cons.1 hk with rfl | hk
      · exact VersionVector.compare_eq_dominates.1 hc
      · exact ih hk hd
    | concurrent =>
      simp only [scanKept, hc, List.mem_cons, not_or] at hd
      rcases List.mem_cons.1 hk with rfl | hk
      · exact absurd rfl hd.1
      · exact ih hk hd.2

/-- The invariant of the scan: the kept versions are pairwise concurrent, come from the candidates
seen so far, and every candidate seen is at or below a kept one. -/
structure ScanInv (seen keep : List Version) : Prop where
  pairwise : keep.Pairwise Concurrent
  subset : ∀ k ∈ keep, k ∈ seen
  cover : ∀ c ∈ seen, ∃ k ∈ keep, c.vv ≤ k.vv

theorem ScanInv.step {seen keep : List Version} (h : ScanInv seen keep) (c : Version) :
    ScanInv (seen ++ [c]) (keepCandidate keep c) := by
  have hsub := scanKept_sublist c keep
  -- a version dropped in this round is below the candidate, so what it covered stays covered
  have hcover : ∀ x ∈ seen, (∃ k ∈ (scanKept c keep).1, x.vv ≤ k.vv) ∨ x.vv ≤ c.vv := by
    intro x hx
    obtain ⟨k, hk, hle⟩ := h.cover x hx
    by_cases hk' : k ∈ (scanKept c keep).1
    · exact .inl ⟨k, hk', hle⟩
    · exact .inr (hle.trans (lt_of_dropped hk hk').le)
  unfold keepCandidate
  split_ifs with hp
  · refine ⟨?_, ?_, ?_⟩
    · refine List.pairwise_append.2 ⟨h.pairwise.sublist hsub, List.pairwise_singleton _ _, ?_⟩
      intro a ha b hb
      rw [List.mem_singleton.1 hb]
      exact (concurrent_of_mem_scanKept hp a ha).symm
    · intro k hk
      rcases List.mem_append.1 hk with hk | hk
      · exact List.mem_append_left _ (h.subset k (hsub.subset hk))
      · exact List.mem_append_right _ hk
    · intro x hx
      rcases List.mem_append.1 hx with hx | hx
      · rcases hcover x hx with ⟨k, hk, hle⟩ | hle
        · exact ⟨k, List.mem_append_left _ hk, hle⟩
        · exact ⟨c, by simp, hle⟩
      · exact ⟨c, by simp, by rw [List.mem_singleton.1 hx]⟩
  · have hp' : (scanKept c keep).2 = false := by simpa using hp
    obtain ⟨k₀, hk₀, hle₀⟩ := exists_ge_of_not_push hp'
    refine ⟨h.pairwise.sublist hsub, fun k hk => ?_, fun x hx => ?_⟩
    · exact List.mem_append_left _ (h.subset k (hsub.subset hk))
    · rcases List.mem_append.1 hx with hx | hx
      · rcases hcover x hx with h' | hle
        · exact h'
        · exact ⟨k₀, hk₀, hle.trans hle₀⟩
      · exact ⟨k₀, hk₀, by rwa [List.mem_singleton.1 hx]⟩

theorem scanInv_foldl (cs : List Version) {seen keep : List Version} (h : ScanInv seen keep) :
    ScanInv (seen ++ cs) (cs.foldl keepCandidate keep) := by
  induction cs generalizing seen keep with
  | nil => simpa using h
  | cons c cs ih => simpa using ih (h.step c)

theorem perm_antichain (cs : List Version) : (antichain cs).Perm (cs.foldl keepCandidate []) :=
  List.perm_insertionSort _ _

theorem scanInv_antichain (cs : List Version) : ScanInv cs (antichain cs) := by
  have h : ScanInv cs (cs.foldl keepCandidate []) := by
    simpa using @scanInv_foldl cs [] [] ⟨List.Pairwise.nil, by simp, by simp⟩
  have hp := perm_antichain cs
  refine ⟨hp.symm.pairwise h.pairwise Concurrent.symm, fun k hk => ?_, fun c hc => ?_⟩
  · exact h.subset k (hp.mem_iff.1 hk)
  · obtain ⟨k, hk, hle⟩ := h.cover c hc
    exact ⟨k, hp.mem_iff.2 hk, hle⟩

theorem mem_of_mem_antichain {cs : List Version} {c : Version} (h : c ∈ antichain cs) : c ∈ cs :=
  (scanInv_antichain cs).subset c h

/-- Every candidate is at or below a kept one. -/
theorem exists_ge_antichain {cs : List Version} {c : Version} (h : c ∈ cs) :
    ∃ k ∈ antichain cs, c.vv ≤ k.vv :=
  (scanInv_antichain cs).cover c h

/-- No candidate strictly dominates a kept one. -/
theorem not_lt_of_mem_antichain {cs : List Version} {k c : Version} (hk : k ∈ antichain cs)
    (hc : c ∈ cs) : ¬ k.vv < c.vv := by
  intro hlt
  obtain ⟨k', hk', hle⟩ := exists_ge_antichain hc
  have hne : k ≠ k' := by rintro rfl; exact absurd hle (not_le_of_gt hlt)
  have := (scanInv_antichain cs).pairwise.forall hk hk' hne
  exact this.1 (hlt.le.trans hle)

/-- The kept versions are sorted by key, largest first. -/
theorem sorted_antichain (cs : List Version) :
    (antichain cs).Pairwise fun a b => b.key ≤ a.key := by
  have : IsTrans Version fun a b => b.key ≤ a.key := ⟨fun _ _ _ h h' => le_trans h' h⟩
  have : Std.Total fun a b : Version => b.key ≤ a.key := ⟨fun a b => le_total _ _⟩
  exact List.pairwise_insertionSort _ _

/-- The first kept version has the largest key. -/
theorem key_le_head {cs : List Version} {w : Version} {ls : List Version}
    (h : antichain cs = w :: ls) {k : Version} (hk : k ∈ antichain cs) : k.key ≤ w.key := by
  have hs := sorted_antichain cs
  rw [h] at hs hk
  rcases List.mem_cons.1 hk with rfl | hk
  · exact le_rfl
  · exact (List.pairwise_cons.1 hs).1 k hk

/-- Two concurrent candidates, the second of larger key. -/
theorem antichain_pair {a b : Version} (hc : Concurrent a b) (hkey : a.key < b.key) :
    antichain [a, b] = [b, a] := by
  have hcmp : b.vv.compare a.vv = .concurrent := VersionVector.compare_eq_concurrent.2 ⟨hc.2, hc.1⟩
  simp [antichain, keepCandidate, scanKept, hcmp, List.insertionSort, hkey]

/-- Two concurrent candidates are both kept, the one of larger key first. -/
theorem antichain_of_concurrent {a b : Version} (h : Concurrent a b) :
    antichain [a, b] = [a, b] ∧ b.key ≤ a.key ∨ antichain [a, b] = [b, a] ∧ a.key < b.key := by
  have hcmp : b.vv.compare a.vv = .concurrent := VersionVector.compare_eq_concurrent.2 ⟨h.2, h.1⟩
  by_cases hkey : b.key ≤ a.key
  · exact .inl ⟨by simp [antichain, keepCandidate, scanKept, hcmp, List.insertionSort, hkey], hkey⟩
  · exact .inr ⟨antichain_pair h (not_le.1 hkey), not_le.1 hkey⟩

/-- Of two concurrent candidates the one of larger key wins, and the first of them where the keys
tie. -/
theorem antichain_collision {a b : Version} (h : Concurrent a b) :
    ∃ w l, antichain [a, b] = [w, l] ∧
      (w = a ∧ l = b ∧ l.key ≤ w.key ∨ w = b ∧ l = a ∧ l.key < w.key) := by
  obtain ⟨hac, hkey⟩ | ⟨hac, hkey⟩ := antichain_of_concurrent h
  · exact ⟨_, _, hac, .inl ⟨rfl, rfl, hkey⟩⟩
  · exact ⟨_, _, hac, .inr ⟨rfl, rfl, hkey⟩⟩

theorem antichain_ne_nil {cs : List Version} (h : cs ≠ []) : antichain cs ≠ [] := by
  obtain ⟨c, hc⟩ := List.exists_mem_of_ne_nil cs h
  obtain ⟨k, hk, -⟩ := exists_ge_antichain hc
  exact List.ne_nil_of_mem hk

/-! ### The merged vector -/

theorem get_foldl_merge (cs : List Version) (v : VersionVector) (n : NodeId) :
    v.get n ≤ (cs.foldl (fun vv c => vv.merge c.vv) v).get n ∧
      (∀ c ∈ cs, c.vv.get n ≤ (cs.foldl (fun vv c => vv.merge c.vv) v).get n) ∧
      ((cs.foldl (fun vv c => vv.merge c.vv) v).get n = v.get n ∨
        ∃ c ∈ cs, (cs.foldl (fun vv c => vv.merge c.vv) v).get n = c.vv.get n) := by
  induction cs generalizing v with
  | nil => simp
  | cons c cs ih =>
    obtain ⟨h1, h2, h3⟩ := ih (v.merge c.vv)
    simp only [List.foldl_cons, VersionVector.get_merge] at h1 h2 h3 ⊢
    refine ⟨(le_max_left _ _).trans h1, ?_, ?_⟩
    · intro x hx
      rcases List.mem_cons.1 hx with rfl | hx
      · exact (le_max_right _ _).trans h1
      · exact h2 x hx
    · rcases h3 with h3 | ⟨x, hx, h3⟩
      · rcases max_choice (v.get n) (c.vv.get n) with hm | hm
        · exact .inl (h3.trans hm)
        · exact .inr ⟨c, List.mem_cons_self, h3.trans hm⟩
      · exact .inr ⟨x, List.mem_cons_of_mem _ hx, h3⟩

theorem le_mergeAll {cs : List Version} {c : Version} (h : c ∈ cs) : c.vv ≤ mergeAll cs :=
  fun n => (get_foldl_merge cs VersionVector.new n).2.1 c h

/-- A non-zero component of the merge is a component of some candidate. -/
theorem exists_get_mergeAll {cs : List Version} {n : NodeId} (h : 0 < (mergeAll cs).get n) :
    ∃ c ∈ cs, (mergeAll cs).get n = c.vv.get n := by
  rcases (get_foldl_merge cs VersionVector.new n).2.2 with h0 | h'
  · rw [mergeAll, h0] at h; exact absurd h (by simp)
  · exact h'

theorem mergeAll_le {cs : List Version} {v : VersionVector} (h : ∀ c ∈ cs, c.vv ≤ v) :
    mergeAll cs ≤ v := by
  intro n
  rcases Nat.eq_zero_or_pos ((mergeAll cs).get n) with h0 | h0
  · rw [h0]; exact Nat.zero_le _
  · obtain ⟨c, hc, he⟩ := exists_get_mergeAll h0
    rw [he]; exact h c hc n

theorem VersionVector.JoinClosed.mergeAll {P : VersionVector → Prop} (hP : JoinClosed P)
    {cs : List Version} (h : ∀ c ∈ cs, P c.vv) : P (mergeAll cs) := by
  have hfold : ∀ v : VersionVector, P v → P (cs.foldl (fun vv c => vv.merge c.vv) v) := by
    induction cs with
    | nil => exact fun v hv => hv
    | cons c cs ih =>
      intro v hv
      exact ih (fun x hx => h x (List.mem_cons_of_mem _ hx)) _
        (hP.merge hv (h c List.mem_cons_self))
  exact hfold _ hP.new

/-! ### What a plan consists of -/

section

variable [Blake3]

/-- The path is a conflict-copy name. -/
def IsCopyName (p : Path) : Prop := ∃ q h m, p = copyPathFor q h m

/-- A conflict-copy name contains the marker. -/
theorem IsCopyName.marker_infix {p : Path} (h : IsCopyName p) : copyMarker <:+: p := by
  obtain ⟨q, hash, naming, rfl⟩ := h
  have hmark : ∀ name hex, copyMarker <:+: markName name hex := by
    intro name hex
    unfold markName
    split
    · exact ⟨_, hex ++ '.' :: _, by simp only [List.append_assoc]; rfl⟩
    · exact ⟨name, hex, rfl⟩
  exact (hmark _ _).trans (List.suffix_append _ _).isInfix

@[simp] theorem get_copyVv (cp : Path) (n : NodeId) :
    (copyVv cp).get n = if copyOrigin cp = n then 1 else 0 := by
  simp [copyVv, VersionVector.fromIter, VersionVector.fromIterEntry, VersionVector.get_mergeEntry]

/-- What the planner may add beside the winner: rows at copy names, live, carrying the synthetic
component of their name, strictly above whatever row occupies that name, and with its components
otherwise. -/
structure CopyOk (lookup : Path → Option Version) (r : PlannedRow) : Prop where
  isCopyName : IsCopyName r.path
  live : r.tombstone = false
  synthetic : copyVv r.path ≤ r.vv
  above : ∀ e, lookup r.path = some e → e.vv < r.vv
  others : ∀ a, a ≠ copyOrigin r.path →
    r.vv.get a = ((lookup r.path).map (·.vv.get a)).getD 0

theorem copyOk_copyRow {lookup : Path → Option Version} {cp : Path} (content : Version)
    (hcp : IsCopyName cp) (h : ∀ e, lookup cp = some e → e.vv < copyVv cp) :
    CopyOk lookup (copyRow cp content) := by
  refine ⟨hcp, rfl, le_rfl, h, fun a ha => ?_⟩
  have hzero : (copyVv cp).get a = 0 := by
    rw [get_copyVv, if_neg]
    exact Ne.symm ha
  change (copyVv cp).get a = ((lookup cp).map (·.vv.get a)).getD 0
  cases he : lookup cp with
  | none => simpa using hzero
  | some e =>
    -- an occupant below the copy's vector has no other component either
    have hle : e.vv.get a ≤ (copyVv cp).get a := (h e he).le a
    simp only [Option.map_some, Option.getD_some]
    omega

theorem copyOk_collisionRow {lookup : Path → Option Version} {cp : Path} {existing : Version}
    (w l : Version) (hcp : IsCopyName cp) (hl : lookup cp = some existing)
    (hc : ¬ copyVv cp ≤ existing.vv) : CopyOk lookup (collisionRow cp existing w l) := by
  refine ⟨hcp, rfl, VersionVector.le_merge_right _ _, fun e he => ?_, fun a ha => ?_⟩
  · rw [show e = existing from Option.some_injective _ (he.symm.trans hl)]
    refine lt_iff_le_not_ge.2 ⟨VersionVector.le_merge_left _ _, fun hle => hc ?_⟩
    exact (VersionVector.le_merge_right _ _).trans hle
  · have hzero : (copyVv cp).get a = 0 := by
      rw [get_copyVv, if_neg]
      exact Ne.symm ha
    change (existing.vv.merge (copyVv cp)).get a = ((lookup cp).map (·.vv.get a)).getD 0
    rw [hl, VersionVector.get_merge, hzero]
    simp

/-- What the copy chain places at a name: the copy itself where the name is free or its row is below
the copy's vector, and the outcome of a collision where that row is concurrent with it. -/
def Placed (lookup : Path → Option Version) (r : PlannedRow) : Prop :=
  (∃ content, r = copyRow r.path content ∧
    ∀ e, lookup r.path = some e → e.vv < copyVv r.path) ∨
  ∃ existing w l, r = collisionRow r.path existing w l ∧ lookup r.path = some existing ∧
    ¬ copyVv r.path ≤ existing.vv

/-- A row is placed only where the copy has not been taken in. -/
theorem Placed.not_le {lookup : Path → Option Version} {r : PlannedRow} (h : Placed lookup r)
    {e : Version} (he : lookup r.path = some e) : ¬ copyVv r.path ≤ e.vv := by
  rcases h with ⟨content, -, hlt⟩ | ⟨existing, w, l, -, hl, hnot⟩
  · exact not_le_of_gt (hlt e he)
  · rwa [show e = existing from Option.some_injective _ (he.symm.trans hl)]

theorem VersionVector.JoinClosed.placed {P : VersionVector → Prop} (hP : JoinClosed P)
    {lookup : Path → Option Version} {r : PlannedRow} (h : Placed lookup r)
    (hl : ∀ p e, lookup p = some e → P e.vv) : P r.vv := by
  obtain ⟨content, hr, -⟩ | ⟨existing, w, l, hr, he, -⟩ := h
  · rw [hr]
    exact hP.single _
  · rw [hr]
    exact hP.merge (hl r.path existing he) (hP.single _)

theorem Placed.copyOk {lookup : Path → Option Version} {r : PlannedRow} (h : Placed lookup r)
    (hcp : IsCopyName r.path) : CopyOk lookup r := by
  rcases h with ⟨content, hr, hlt⟩ | ⟨existing, w, l, hr, he, hnot⟩
  · rw [hr]
    exact copyOk_copyRow content hcp hlt
  · rw [hr]
    exact copyOk_collisionRow w l hcp he hnot

/-- The four ways in which a copy is placed: its name is planned already; it is free; its row has
taken the copy in; or its row is concurrent, and the one of the two that loses is left where it is
or goes one link further. -/
theorem placeCopy_cases {lookup : Path → Option Version} {depth : ℕ} {rows rows' : List PlannedRow}
    {cp : Path} {content : Version} (h : placeCopy lookup depth rows cp content = some rows') :
    ∃ d, depth = d + 1 ∧
      ((∃ r ∈ rows, r.path = cp) ∧ rows' = rows ∨
      (∀ r ∈ rows, r.path ≠ cp) ∧ (∀ e, lookup cp = some e → e.vv < copyVv cp) ∧
        rows' = rows ++ [copyRow cp content] ∨
      (∃ e, lookup cp = some e ∧ copyVv cp ≤ e.vv) ∧ rows' = rows ∨
      (∀ r ∈ rows, r.path ≠ cp) ∧ ∃ e w l, lookup cp = some e ∧ Concurrent e (asCopy cp content) ∧
        (w = e ∧ l = asCopy cp content ∧ l.key ≤ w.key ∨
          w = asCopy cp content ∧ l = e ∧ l.key < w.key) ∧
        ((l.contentHash = none ∨ l.key = w.key) ∧ rows' = rows ++ [collisionRow cp e w l] ∨
          ∃ lh, l.contentHash = some lh ∧ l.key ≠ w.key ∧
            placeCopy lookup d (rows ++ [collisionRow cp e w l])
              (copyPathFor cp lh (Meta.namingHash l.metadata)) l = some rows')) := by
  cases depth with
  | zero => cases h
  | succ d =>
    refine ⟨d, rfl, ?_⟩
    simp only [placeCopy] at h
    split_ifs at h with hany
    · cases h
      obtain ⟨r, hr, hpath⟩ := List.any_eq_true.1 hany
      exact .inl ⟨⟨r, hr, by simpa using hpath⟩, rfl⟩
    have hfree : ∀ r ∈ rows, r.path ≠ cp := by simpa [List.any_eq_true] using hany
    cases he : lookup cp with
    | none =>
      simp only [he, Option.some.injEq] at h
      exact .inr (.inl ⟨hfree, by simp, h.symm⟩)
    | some e =>
      simp only [he] at h
      cases hcmp : (copyVv cp).compare e.vv with
      | dominates =>
        simp only [hcmp, Option.some.injEq] at h
        refine .inr (.inl ⟨hfree, ?_, h.symm⟩)
        rintro _ ⟨⟩
        exact VersionVector.compare_eq_dominates.1 hcmp
      | equal =>
        simp only [hcmp, Option.some.injEq] at h
        exact .inr (.inr (.inl ⟨⟨e, rfl, (VersionVector.compare_eq_equal.1 hcmp).1⟩, h.symm⟩))
      | dominated =>
        simp only [hcmp, Option.some.injEq] at h
        exact .inr (.inr (.inl ⟨⟨e, rfl, (VersionVector.compare_eq_dominated.1 hcmp).le⟩, h.symm⟩))
      | concurrent =>
        have hconc : Concurrent e (asCopy cp content) :=
          (VersionVector.compare_eq_concurrent.1 hcmp).symm
        obtain ⟨w, l, hac, hwl⟩ := antichain_collision hconc
        refine .inr (.inr (.inr ⟨hfree, e, w, l, rfl, hconc, hwl, ?_⟩))
        simp only [hcmp, hac] at h
        cases hl : l.contentHash with
        | none =>
          simp only [hl, Option.some.injEq] at h
          exact .inl ⟨.inl rfl, h.symm⟩
        | some lh =>
          simp only [hl] at h
          split_ifs at h with hkey
          · exact .inl ⟨.inr hkey, (Option.some.inj h).symm⟩
          · exact .inr ⟨lh, rfl, hkey, h⟩

/-- A copy chain appends rows at names that are not yet planned. -/
theorem placeCopy_spec {lookup : Path → Option Version} {depth : ℕ} {rows rows' : List PlannedRow}
    {cp : Path} {content : Version} (hcp : IsCopyName cp)
    (h : placeCopy lookup depth rows cp content = some rows') :
    ∃ added, rows' = rows ++ added ∧ (∀ r ∈ added, IsCopyName r.path ∧ Placed lookup r) ∧
      ((rows.map (·.path)).Nodup → (rows'.map (·.path)).Nodup) := by
  induction depth generalizing rows cp content with
  | zero => cases h
  | succ depth ih =>
    have hfresh : ∀ r : PlannedRow, r.path = cp → (∀ r ∈ rows, r.path ≠ cp) →
        (rows.map (·.path)).Nodup → ((rows ++ [r]).map (·.path)).Nodup := by
      intro r hr hfree hnd
      simp only [List.map_append, List.map_cons, List.map_nil, List.nodup_append, hnd,
        List.nodup_singleton, true_and]
      intro a ha b hb
      obtain ⟨x, hx, rfl⟩ := List.mem_map.1 ha
      rw [List.mem_singleton.1 hb, hr]
      exact hfree x hx
    obtain ⟨d, hd, hcases⟩ := placeCopy_cases h
    obtain rfl := Nat.succ.inj hd
    rcases hcases with ⟨-, rfl⟩ | ⟨hfree, hlt, rfl⟩ | ⟨-, rfl⟩ | ⟨hfree, e, w, l, he, hconc, -, hlast⟩
    · exact ⟨[], by simp, by simp, id⟩
    · exact ⟨[copyRow cp content], rfl, by simpa using ⟨hcp, .inl ⟨content, rfl, hlt⟩⟩,
        hfresh _ rfl hfree⟩
    · exact ⟨[], by simp, by simp, id⟩
    · have hok : IsCopyName (collisionRow cp e w l).path ∧ Placed lookup (collisionRow cp e w l) :=
        ⟨hcp, .inr ⟨e, w, l, rfl, he, hconc.2⟩⟩
      rcases hlast with ⟨-, rfl⟩ | ⟨lh, -, -, hnext⟩
      · exact ⟨[collisionRow cp e w l], rfl, by simpa using hok, hfresh _ rfl hfree⟩
      · obtain ⟨added, rfl, hadd, hnd⟩ := ih ⟨_, _, _, rfl⟩ hnext
        refine ⟨collisionRow cp e w l :: added, by simp, ?_, fun hr => hnd (hfresh _ rfl hfree hr)⟩
        intro r hr
        rcases List.mem_cons.1 hr with rfl | hr
        · exact hok
        · exact hadd r hr

theorem planCopies_spec {lookup : Path → Option Version} {path : Path} {winner : Version}
    {rows rows' : List PlannedRow} {losers : List Version}
    (h : planCopies lookup path winner rows losers = some rows') :
    ∃ added, rows' = rows ++ added ∧ (∀ r ∈ added, IsCopyName r.path ∧ Placed lookup r) ∧
      ((rows.map (·.path)).Nodup → (rows'.map (·.path)).Nodup) := by
  induction losers generalizing rows with
  | nil => cases h; exact ⟨[], by simp, by simp, id⟩
  | cons loser losers ih =>
    simp only [planCopies] at h
    split at h
    · exact ih h
    · split_ifs at h with hk
      · exact ih h
      · split at h
        · cases h
        · rename_i rows₁ h₁
          obtain ⟨a₁, rfl, hok₁, hnd₁⟩ := placeCopy_spec ⟨_, _, _, rfl⟩ h₁
          obtain ⟨a₂, rfl, hok₂, hnd₂⟩ := ih h
          refine ⟨a₁ ++ a₂, by simp, ?_, fun hr => hnd₂ (hnd₁ hr)⟩
          intro r hr
          rcases List.mem_append.1 hr with hr | hr
          · exact hok₁ r hr
          · exact hok₂ r hr

theorem planCopies_placed {lookup : Path → Option Version} {path : Path} {winner : Version}
    {row : PlannedRow} {copies : List PlannedRow} {losers : List Version}
    (h : planCopies lookup path winner [row] losers = some (row :: copies)) :
    ∀ r ∈ copies, Placed lookup r := by
  obtain ⟨added, heq, hok, -⟩ := planCopies_spec h
  obtain rfl : copies = added := (List.cons.inj heq).2
  exact fun r hr => (hok r hr).2

/-- A plan is the winner's row, then rows at further, distinct copy names. -/
theorem planCandidates_spec {path : Path} {cs : List Version} {lookup : Path → Option Version}
    {rows : List PlannedRow} (h : planCandidates path cs lookup = some rows) :
    ∃ winner losers copies, antichain cs = winner :: losers ∧
      rows = winnerRow path cs (winner :: losers) winner :: copies ∧
      (∀ r ∈ copies, CopyOk lookup r) ∧ (rows.map (·.path)).Nodup := by
  unfold planCandidates at h
  split at h
  · cases h
  · rename_i winner losers hac
    obtain ⟨copies, rfl, hok, hnd⟩ := planCopies_spec h
    exact ⟨winner, losers, copies, hac, rfl, fun r hr => (hok r hr).2.copyOk (hok r hr).1,
      hnd (by simp)⟩

end

end Replicore
