import Mathlib.Data.List.Sort
import Mathlib.Data.List.TakeWhile
import Replicore.Conflict.Copies
import Replicore.Conflict.Names

/-!
# The plan and the order of its candidates

Each node derives its plan from the candidates in the order in which they came.  The antichain scan
keeps the same versions in every order, and the sort by key leaves only versions of equal key to the
order of arrival (`perm_antichain_of_perm`).  The winner's row is normalized over these.  The copies
are not: of several losers with one copy name the first is taken, with its mode.

So the plan depends on the order exactly if there are versions of equal key that differ in more than
what the plan normalizes: losers with content, not shadowed by a loser of larger key with the same
copy name, that have different modes (`planCandidates_perm_iff`).
-/

namespace Replicore

/-- A candidate that no other one strictly dominates. -/
def Undominated (cs : List Version) (a : Version) : Prop := a ∈ cs ∧ ∀ c ∈ cs, ¬ a.vv < c.vv

/-- Equal vectors belong to one version, equal contents have equal sizes, and equal metadata hashes
belong to equal metadata. -/
structure Coherent (cs : List Version) : Prop where
  version : ∀ a ∈ cs, ∀ b ∈ cs, a.vv.compare b.vv = .equal → a = b
  size : ∀ a ∈ cs, ∀ b ∈ cs, a.contentHash = b.contentHash → a.size = b.size
  metadata : ∀ a ∈ cs, ∀ b ∈ cs, a.metaHash = b.metaHash → a.metadata = b.metadata

theorem Coherent.perm {cs cs' : List Version} (h : Coherent cs) (hp : cs'.Perm cs) :
    Coherent cs' where
  version a ha b hb := h.version a (hp.mem_iff.1 ha) b (hp.mem_iff.1 hb)
  size a ha b hb := h.size a (hp.mem_iff.1 ha) b (hp.mem_iff.1 hb)
  metadata a ha b hb := h.metadata a (hp.mem_iff.1 ha) b (hp.mem_iff.1 hb)

theorem undominated_perm {cs cs' : List Version} (hp : cs'.Perm cs) {a : Version} :
    Undominated cs' a ↔ Undominated cs a := by
  simp only [Undominated, hp.mem_iff]

/-! ### The antichain -/

theorem undominated_of_mem_antichain {cs : List Version} {a : Version} (h : a ∈ antichain cs) :
    Undominated cs a :=
  ⟨mem_of_mem_antichain h, fun _ hc => not_lt_of_mem_antichain h hc⟩

/-- An undominated candidate has a kept version of equal vector. -/
theorem exists_equal_antichain {cs : List Version} {a : Version} (ha : Undominated cs a) :
    ∃ k ∈ antichain cs, a.vv.compare k.vv = .equal := by
  obtain ⟨k, hk, hle⟩ := exists_ge_antichain ha.1
  have hge : k.vv ≤ a.vv := by
    by_contra hnot
    exact ha.2 k (mem_of_mem_antichain hk) (lt_iff_le_not_ge.2 ⟨hle, hnot⟩)
  exact ⟨k, hk, VersionVector.compare_eq_equal.2 ⟨hle, hge⟩⟩

/-- The scan keeps exactly the undominated candidates. -/
theorem mem_antichain {cs : List Version}
    (hcs : ∀ a ∈ cs, ∀ b ∈ cs, a.vv.compare b.vv = .equal → a = b) {a : Version} :
    a ∈ antichain cs ↔ Undominated cs a := by
  constructor
  · exact undominated_of_mem_antichain
  · intro ha
    obtain ⟨k, hk, heq⟩ := exists_equal_antichain ha
    rwa [hcs a ha.1 k (mem_of_mem_antichain hk) heq]

theorem nodup_antichain (cs : List Version) : (antichain cs).Nodup := by
  refine (scanInv_antichain cs).pairwise.imp ?_
  rintro a _ hc rfl
  exact hc.1 le_rfl

theorem perm_antichain_of_perm {cs cs' : List Version}
    (hcs : ∀ a ∈ cs, ∀ b ∈ cs, a.vv.compare b.vv = .equal → a = b) (hp : cs'.Perm cs) :
    (antichain cs').Perm (antichain cs) := by
  refine (List.perm_ext_iff_of_nodup (nodup_antichain cs') (nodup_antichain cs)).2 fun a => ?_
  have hcs' : ∀ a ∈ cs', ∀ b ∈ cs', a.vv.compare b.vv = .equal → a = b := fun a ha b hb =>
    hcs a (hp.mem_iff.1 ha) b (hp.mem_iff.1 hb)
  rw [mem_antichain hcs', mem_antichain hcs, undominated_perm hp]

/-- Of pairwise concurrent versions one at most has a given vector. -/
theorem countP_equal_le_one {ks : List Version} (h : ks.Pairwise Concurrent) (v : VersionVector) :
    ks.countP (fun k => v.compare k.vv = .equal) ≤ 1 := by
  induction ks with
  | nil => exact Nat.zero_le 1
  | cons k ks ih =>
    obtain ⟨hk, hks⟩ := List.pairwise_cons.1 h
    rw [List.countP_cons]
    split_ifs with heq
    · have hle := VersionVector.compare_eq_equal.1 (of_decide_eq_true heq)
      have hnone : ks.countP (fun k => v.compare k.vv = .equal) = 0 := by
        refine List.countP_eq_zero.2 fun x hx hx' => ?_
        have hle' := VersionVector.compare_eq_equal.1 (of_decide_eq_true hx')
        exact (hk x hx).1 (hle.2.trans hle'.1)
      rw [hnone]
    · exact ih hks

/-- **The antichain is the maximal versions.**  It consists of candidates that no candidate strictly
dominates, is pairwise concurrent, has an element at or above every candidate, exactly one for every
class of causally equal maximal vectors, and is sorted by key in descending order; and where equal
vectors belong to one version its elements do not depend on the order of the candidates. -/
theorem antichain_maximal (cs : List Version) :
    (∀ a ∈ antichain cs, a ∈ cs ∧ ∀ c ∈ cs, c.vv.dominates a.vv = false) ∧
      (antichain cs).Pairwise (fun a b => a.vv.compare b.vv = .concurrent) ∧
      (∀ c ∈ cs, ∃ k ∈ antichain cs, c.vv.compare k.vv = .equal ∨ c.vv.compare k.vv = .dominated) ∧
      (∀ a ∈ cs, (∀ c ∈ cs, c.vv.dominates a.vv = false) →
        (antichain cs).countP (fun k => a.vv.compare k.vv = .equal) = 1) ∧
      (antichain cs).Pairwise (fun a b => b.key ≤ a.key) ∧
      ((∀ a ∈ cs, ∀ b ∈ cs, a.vv.compare b.vv = .equal → a = b) →
        ∀ cs', cs'.Perm cs → ∀ a, a ∈ antichain cs' ↔ a ∈ antichain cs) := by
  have hdom : ∀ a c : Version, c.vv.dominates a.vv = false ↔ ¬ a.vv < c.vv := fun a c => by
    rw [VersionVector.dominates, beq_eq_false_iff_ne, ne_eq, VersionVector.compare_eq_dominates]
  simp only [hdom]
  have hconc := (scanInv_antichain cs).pairwise
  refine ⟨fun a ha => undominated_of_mem_antichain ha, ?_, fun c hc => ?_, fun a ha hmax => ?_,
    sorted_antichain cs, fun hcs cs' hp a => (perm_antichain_of_perm hcs hp).mem_iff⟩
  · exact hconc.imp fun hab => VersionVector.compare_eq_concurrent.2 hab
  · obtain ⟨k, hk, hle⟩ := exists_ge_antichain hc
    refine ⟨k, hk, ?_⟩
    rw [VersionVector.compare_eq_equal, VersionVector.compare_eq_dominated, lt_iff_le_not_ge]
    tauto
  · obtain ⟨k, hk, heq⟩ := exists_equal_antichain ⟨ha, hmax⟩
    refine le_antisymm (countP_equal_le_one hconc a.vv) ?_
    exact List.countP_pos_iff.2 ⟨k, hk, decide_eq_true heq⟩

/-- A file of the given content. -/
def fileAt (vv : VersionVector) (content : Hash) : Version where
  contentHash := some content
  mode := 420
  size := 3
  tombstone := false
  vv := vv
  uuid := none
  metadata := none
  metaHash := 0

/-- Two writers, the second write of one above its first. -/
def twoWriters : List Version :=
  [fileAt (.fromIter [(1, 1)]) 5, fileAt (.fromIter [(2, 1)]) 9, fileAt (.fromIter [(1, 2)]) 7]

theorem antichain_maximal_two_writers :
    (∀ a, a ∈ antichain twoWriters.reverse ↔ a ∈ antichain twoWriters) ∧
      (antichain twoWriters).countP
        (fun k => (VersionVector.fromIter [(1, 2)]).compare k.vv = .equal) = 1 := by
  obtain ⟨-, -, -, hone, -, hperm⟩ := antichain_maximal twoWriters
  exact ⟨hperm (by decide) _ twoWriters.reverse_perm,
    hone (fileAt (.fromIter [(1, 2)]) 7) (by decide) (by decide)⟩

/-- The scan never drops an undominated candidate that comes first. -/
theorem foldl_keepCandidate_cons {a : Version} {cs : List Version} (keep : List Version)
    (hmax : ∀ c ∈ cs, ¬ a.vv < c.vv) :
    ∃ keep', cs.foldl keepCandidate (a :: keep) = a :: keep' := by
  induction cs generalizing keep with
  | nil => exact ⟨keep, rfl⟩
  | cons c cs ih =>
    have hstep : ∃ keep', keepCandidate (a :: keep) c = a :: keep' := by
      cases hc : c.vv.compare a.vv with
      | dominated => exact ⟨keep, by simp [keepCandidate, scanKept, hc]⟩
      | equal => exact ⟨keep, by simp [keepCandidate, scanKept, hc]⟩
      | dominates =>
        exact absurd (VersionVector.compare_eq_dominates.1 hc) (hmax c List.mem_cons_self)
      | concurrent =>
        simp only [keepCandidate, scanKept, hc]
        split_ifs
        · exact ⟨_, rfl⟩
        · exact ⟨_, rfl⟩
    obtain ⟨keep', hkeep⟩ := hstep
    rw [List.foldl_cons, hkeep]
    exact ih keep' fun x hx => hmax x (List.mem_cons_of_mem _ hx)

/-- An undominated candidate that comes first stands before all others of its key. -/
theorem antichain_cons {a : Version} {cs : List Version} (hmax : ∀ c ∈ cs, ¬ a.vv < c.vv) :
    ∃ before after, antichain (a :: cs) = before ++ a :: after ∧ ∀ x ∈ before, a.key < x.key := by
  obtain ⟨keep, hkeep⟩ := foldl_keepCandidate_cons [] hmax
  have hfirst : keepCandidate [] a = [a] := rfl
  rw [antichain, List.foldl_cons, hfirst, hkeep, List.insertionSort_cons,
    List.orderedInsert_eq_take_drop]
  refine ⟨_, _, rfl, fun x hx => ?_⟩
  simpa using List.mem_takeWhile_imp hx

/-- An undominated candidate is moved to the front. -/
theorem antichain_first {cs : List Version} {a : Version} (ha : Undominated cs a) :
    ∃ before after, antichain (a :: cs.erase a) = before ++ a :: after ∧
      (∀ x ∈ before, Undominated cs x ∧ a.key < x.key) := by
  have hp : (a :: cs.erase a).Perm cs := (List.perm_cons_erase ha.1).symm
  have hmax : ∀ c ∈ cs.erase a, ¬ a.vv < c.vv := fun c hc => ha.2 c (List.mem_of_mem_erase hc)
  obtain ⟨before, after, hac, hlt⟩ := antichain_cons hmax
  refine ⟨before, after, hac, fun x hx => ⟨?_, hlt x hx⟩⟩
  have hmem : x ∈ antichain (a :: cs.erase a) := by
    rw [hac]
    exact List.mem_append_left _ hx
  exact ⟨hp.mem_iff.1 (mem_of_mem_antichain hmem), fun c hc =>
    not_lt_of_mem_antichain hmem (hp.mem_iff.2 hc)⟩

/-! ### The winner -/

theorem mergeAll_perm {cs cs' : List Version} (hp : cs'.Perm cs) : mergeAll cs' = mergeAll cs :=
  hp.foldl_eq' (fun a _ b _ vv => VersionVector.merge_right_comm vv a.vv b.vv) VersionVector.new

theorem max?_perm {α : Type*} [LinearOrder α] {l l' : List α} (hp : l'.Perm l) : l'.max? = l.max? := by
  refine Option.ext fun x => ?_
  rw [List.max?_eq_some_iff, List.max?_eq_some_iff, hp.mem_iff]
  simp only [hp.mem_iff]

/-- The fields that the key decides. -/
theorem tombstone_eq_of_key {a b : Version} (h : a.key = b.key) : a.tombstone = b.tombstone := by
  have hrank := congrArg (fun k : Key => (ofLex k).1) h
  simp only [Version.key, ofLex_toLex] at hrank
  cases ha : a.tombstone <;> cases hb : b.tombstone <;> simp_all

theorem contentHash_getD_eq_of_key {a b : Version} (h : a.key = b.key) :
    a.contentHash.getD 0 = b.contentHash.getD 0 :=
  congrArg (fun k : Key => (ofLex (ofLex k).2).1) h

theorem metaHash_eq_of_key {a b : Version} (h : a.key = b.key) : a.metaHash = b.metaHash :=
  congrArg (fun k : Key => (ofLex (ofLex k).2).2) h

/-- The winner's row does not depend on the order, nor on which of the winners comes first. -/
theorem winnerRow_perm (path : Path) {cs cs' maximal maximal' : List Version} {w w' : Version}
    (hp : cs'.Perm cs) (hmax : maximal'.Perm maximal) (hw : w ∈ maximal) (hw' : w' ∈ maximal)
    (hkey : w'.key = w.key) (hcontent : w'.contentHash = w.contentHash) (hsize : w'.size = w.size)
    (hmeta : w'.metadata = w.metadata) :
    winnerRow path cs' maximal' w' = winnerRow path cs maximal w := by
  have hfilter : (maximal'.filter fun m => m.key = w'.key).Perm
      (maximal.filter fun m => m.key = w.key) := by
    rw [hkey]
    exact hmax.filter _
  have htomb := tombstone_eq_of_key hkey
  have hmode : ∀ d, (((maximal.filter fun m => m.key = w.key).map (·.mode)).max?).getD d =
      (((maximal.filter fun m => m.key = w.key).map (·.mode)).max?).getD w.mode := by
    intro d
    have hne : ((maximal.filter fun m => m.key = w.key).map (·.mode)) ≠ [] :=
      List.ne_nil_of_mem (List.mem_map_of_mem (List.mem_filter.2 ⟨hw, by simp⟩))
    obtain ⟨m, hm⟩ := Option.isSome_iff_exists.1 (List.isSome_max?_of_ne_nil hne)
    rw [hm, Option.getD_some, Option.getD_some]
  have huuid : ∀ v ∈ maximal, v.key = w.key →
      (((maximal.filter fun m => m.key = w.key).filterMap (·.uuid)).max?).or v.uuid =
        ((maximal.filter fun m => m.key = w.key).filterMap (·.uuid)).max? := by
    intro v hv hvkey
    cases hu : v.uuid with
    | none => rw [Option.or_none]
    | some u =>
      have hne : ((maximal.filter fun m => m.key = w.key).filterMap (·.uuid)) ≠ [] :=
        List.ne_nil_of_mem (List.mem_filterMap.2 ⟨v, List.mem_filter.2 ⟨hv, by simp [hvkey]⟩, hu⟩)
      obtain ⟨m, hm⟩ := Option.isSome_iff_exists.1 (List.isSome_max?_of_ne_nil hne)
      rw [hm, Option.some_or]
  simp only [winnerRow, hcontent, hsize, hmeta, htomb, mergeAll_perm hp,
    max?_perm (hfilter.map (·.mode)), max?_perm (hfilter.filterMap (·.uuid)), hmode w'.mode,
    huuid w' hw' hkey, huuid w hw rfl]

/-! ### The copies -/

section

variable [Blake3]

/-- The digits of the copy name of a version with content. -/
def Version.copyDigits (v : Version) : Option (List Char) :=
  v.contentHash.map fun hash => copyHex hash (Meta.namingHash v.metadata)

/-- A name at which nothing more is planned: it is planned already, or its row has taken the copy
in. -/
def NameSettled (lookup : Path → Option Version) (rows : List PlannedRow) (cp : Path) : Prop :=
  (∃ r ∈ rows, r.path = cp) ∨ ∃ e, lookup cp = some e ∧ copyVv cp ≤ e.vv

variable {lookup : Path → Option Version} {rows rows' : List PlannedRow} {cp : Path}

theorem NameSettled.mono (h : NameSettled lookup rows cp) (added : List PlannedRow) :
    NameSettled lookup (rows ++ added) cp := by
  rcases h with ⟨r, hr, hpath⟩ | he
  · exact .inl ⟨r, List.mem_append_left _ hr, hpath⟩
  · exact .inr he

theorem placeCopy_of_settled (h : NameSettled lookup rows cp) (depth : ℕ) (content : Version) :
    placeCopy lookup (depth + 1) rows cp content = some rows := by
  simp only [placeCopy]
  split_ifs with hany
  · rfl
  · rcases h with ⟨r, hr, hpath⟩ | ⟨e, he, hle⟩
    · exact absurd (List.any_eq_true.2 ⟨r, hr, by simpa using hpath⟩) hany
    · rw [he]
      dsimp only
      by_cases hge : e.vv ≤ copyVv cp
      · rw [VersionVector.compare_eq_equal.2 ⟨hle, hge⟩]
      · rw [VersionVector.compare_eq_dominated.2 (lt_iff_le_not_ge.2 ⟨hle, hge⟩)]

/-- Placing a copy settles its name. -/
theorem settled_of_placeCopy {depth : ℕ} {content : Version}
    (h : placeCopy lookup depth rows cp content = some rows') : NameSettled lookup rows' cp := by
  have hone : ∀ r : PlannedRow, r.path = cp → ∀ added, NameSettled lookup (rows ++ r :: added) cp :=
    fun r hr added => .inl ⟨r, by simp, hr⟩
  obtain ⟨d, -, hcases⟩ := placeCopy_cases h
  rcases hcases with ⟨hr, rfl⟩ | ⟨-, -, rfl⟩ | ⟨he, rfl⟩ | ⟨-, e, w, l, -, -, -, hlast⟩
  · exact .inl hr
  · exact hone _ rfl []
  · exact .inr he
  · rcases hlast with ⟨-, rfl⟩ | ⟨lh, -, -, hnext⟩
    · exact hone _ rfl []
    · obtain ⟨added, rfl, -⟩ := placeCopy_spec ⟨_, _, _, rfl⟩ hnext
      exact (hone (collisionRow cp e w l) rfl []).mono added

/-- A copy is placed by what it copies: the vector and the identity of the version do not matter. -/
theorem placeCopy_congr {a b : Version} (h : asCopy cp a = asCopy cp b) (depth : ℕ) :
    placeCopy lookup depth rows cp a = placeCopy lookup depth rows cp b := by
  have hrow : copyRow cp a = copyRow cp b := by
    have hver := congrArg Version.toRow h
    simp only [asCopy, Row.mk.injEq] at hver
    simp [copyRow, hver]
  cases depth with
  | zero => rfl
  | succ depth => simp only [placeCopy, h, hrow]

/-- The losers that get a copy. -/
def copiers (w : Version) (maximal : List Version) : List Version :=
  maximal.filter fun v => v.contentHash.isSome ∧ v.key ≠ w.key

theorem planCopies_copiers (path : Path) (w : Version) (maximal : List Version) :
    planCopies lookup path w rows maximal = planCopies lookup path w rows (copiers w maximal) := by
  induction maximal generalizing rows with
  | nil => rfl
  | cons v maximal ih =>
    cases hv : v.contentHash with
    | none =>
      have hskip : copiers w (v :: maximal) = copiers w maximal := by simp [copiers, hv]
      rw [hskip, ← ih]
      simp only [planCopies, hv]
    | some hash =>
      by_cases hkey : v.key = w.key
      · have hskip : copiers w (v :: maximal) = copiers w maximal := by simp [copiers, hkey]
        rw [hskip, ← ih]
        simp only [planCopies, hv, hkey, if_true]
      · have hkeep : copiers w (v :: maximal) = v :: copiers w maximal := by simp [copiers, hv, hkey]
        rw [hkeep]
        simp only [planCopies, hv, hkey, if_false]
        cases placeCopy lookup maxCopyDepth rows (copyPathFor path hash (Meta.namingHash v.metadata))
          v with
        | none => rfl
        | some rows' => exact ih

/-- Of the winner, the copies need only the key. -/
theorem planCopies_congr_winner (path : Path) {w w' : Version} (h : w.key = w'.key)
    (losers : List Version) :
    planCopies lookup path w rows losers = planCopies lookup path w' rows losers := by
  induction losers generalizing rows with
  | nil => rfl
  | cons v losers ih => simp only [planCopies, h, ih]

/-- A loser of larger key has the same copy name. -/
def Shadowed (cs : List Version) (a : Version) : Prop :=
  ∃ c w, Undominated cs c ∧ Undominated cs w ∧ a.key < c.key ∧ c.key < w.key ∧
    c.copyDigits = a.copyDigits

open Classical in
/-- What the plan needs of a loser with content: nothing of its vector and identity, and the mode
only if it is not shadowed. -/
noncomputable def standIn (cs : List Version) (a : Version) : Version :=
  { a with vv := VersionVector.new, uuid := none, mode := if Shadowed cs a then 0 else a.mode }

@[simp] theorem key_standIn (cs : List Version) (a : Version) : (standIn cs a).key = a.key := rfl

theorem copyPathFor_eq_of_digits (path : Path) {hash hash' naming naming' : Hash}
    (h : copyHex hash naming = copyHex hash' naming') :
    copyPathFor path hash naming = copyPathFor path hash' naming' := by
  rw [copyPathFor, h, copyPathFor]

/-- A shadowed loser finds its name settled. -/
theorem settled_of_shadowed {cs maximal done rest : List Version} {path : Path} {a w : Version}
    {hash : Hash} (hmax : ∀ a, a ∈ maximal ↔ Undominated cs a)
    (hsorted : maximal.Pairwise fun a b => b.key ≤ a.key) (hw : ∀ a, Undominated cs a → a.key ≤ w.key)
    (hsplit : copiers w maximal = done ++ a :: rest) (hhash : a.contentHash = some hash)
    (hdone : ∀ a ∈ done, ∀ hash, a.contentHash = some hash →
      NameSettled lookup rows (copyPathFor path hash (Meta.namingHash a.metadata)))
    (h : Shadowed cs a) : NameSettled lookup rows (copyPathFor path hash (Meta.namingHash a.metadata)) := by
  obtain ⟨c, w', hc, hw', hlt, hlt', hdigits⟩ := h
  rw [Version.copyDigits, Version.copyDigits, hhash, Option.map_some, Option.map_eq_some_iff] at hdigits
  obtain ⟨hash', hhash', hdigits⟩ := hdigits
  have hcopier : c ∈ copiers w maximal := by
    have hkey : c.key ≠ w.key := (hlt'.trans_le (hw w' hw')).ne
    simp [copiers, (hmax c).2 hc, hhash', hkey]
  -- it has the larger key, so it came before
  have hmem : c ∈ done := by
    have hpair : (copiers w maximal).Pairwise fun a b => b.key ≤ a.key :=
      hsorted.sublist List.filter_sublist
    rw [hsplit] at hcopier hpair
    rcases List.mem_append.1 hcopier with hc | hc
    · exact hc
    · rcases List.mem_cons.1 hc with rfl | hc
      · exact absurd hlt (lt_irrefl _)
      · have hle := (List.pairwise_cons.1 (List.pairwise_append.1 hpair).2.1).1 c hc
        exact absurd hlt (not_lt_of_ge hle)
  rw [← copyPathFor_eq_of_digits path hdigits]
  exact hdone c hmem hash' hhash'

/-- The copies are those of the stand-ins. -/
theorem planCopies_standIn {cs maximal done rest : List Version} {path : Path} {w : Version}
    (hmax : ∀ a, a ∈ maximal ↔ Undominated cs a)
    (hsorted : maximal.Pairwise fun a b => b.key ≤ a.key) (hw : ∀ a, Undominated cs a → a.key ≤ w.key)
    (hsplit : copiers w maximal = done ++ rest)
    (hdone : ∀ a ∈ done, ∀ hash, a.contentHash = some hash →
      NameSettled lookup rows (copyPathFor path hash (Meta.namingHash a.metadata))) :
    planCopies lookup path w rows rest = planCopies lookup path w rows (rest.map (standIn cs)) := by
  induction rest generalizing done rows with
  | nil => rfl
  | cons a rest ih =>
    have ha : a ∈ copiers w maximal := by simp [hsplit]
    simp only [copiers, List.mem_filter, decide_eq_true_eq] at ha
    obtain ⟨-, hsome, hkey⟩ := ha
    obtain ⟨hash, hhash⟩ := Option.isSome_iff_exists.1 hsome
    have hstand : (standIn cs a).contentHash = some hash := hhash
    have hplace : placeCopy lookup maxCopyDepth rows
          (copyPathFor path hash (Meta.namingHash a.metadata)) a =
        placeCopy lookup maxCopyDepth rows
          (copyPathFor path hash (Meta.namingHash a.metadata)) (standIn cs a) := by
      by_cases hsh : Shadowed cs a
      · have hset := settled_of_shadowed hmax hsorted hw hsplit hhash hdone hsh
        rw [maxCopyDepth, placeCopy_of_settled hset, placeCopy_of_settled hset]
      · exact placeCopy_congr (by simp [asCopy, standIn, hsh]) _
    rw [List.map_cons]
    have hmetadata : (standIn cs a).metadata = a.metadata := rfl
    simp only [planCopies, hhash, hstand, hmetadata, key_standIn, hkey, if_false]
    rw [hplace]
    cases hrun : placeCopy lookup maxCopyDepth rows
      (copyPathFor path hash (Meta.namingHash a.metadata)) (standIn cs a) with
    | none => rfl
    | some rows' =>
      have hsplit' : copiers w maximal = (done ++ [a]) ++ rest := by simp [hsplit]
      refine ih hsplit' fun x hx hash' hhash' => ?_
      rcases List.mem_append.1 hx with hx | hx
      · obtain ⟨added, rfl, -⟩ := placeCopy_spec ⟨_, _, _, rfl⟩ hrun
        exact (hdone x hx hash' hhash').mono added
      · rw [List.mem_singleton.1 hx] at hhash' ⊢
        rw [hhash, Option.some.injEq] at hhash'
        rw [← hhash']
        exact settled_of_placeCopy hrun

/-- Versions of equal key that the plan does not treat alike agree in what it takes over: the
winners in the content hash, and the losers with content that are not shadowed in the mode. -/
structure OrderFree (cs : List Version) : Prop where
  winner : ∀ a b, Undominated cs a → Undominated cs b → a.key = b.key →
    (∀ c, Undominated cs c → c.key ≤ a.key) → a.contentHash = b.contentHash
  copies : ∀ a b, Undominated cs a → Undominated cs b → a.key = b.key → a.contentHash.isSome →
    b.contentHash.isSome → (∃ w, Undominated cs w ∧ a.key < w.key) → ¬ Shadowed cs a →
    a.mode = b.mode

/-- The stand-in of a loser with content is decided by its key. -/
theorem standIn_eq {cs : List Version} (hcs : Coherent cs) (hfree : OrderFree cs) {a b : Version}
    (ha : Undominated cs a) (hb : Undominated cs b) (hkey : a.key = b.key)
    (hca : a.contentHash.isSome) (hcb : b.contentHash.isSome)
    (hloser : ∃ w, Undominated cs w ∧ a.key < w.key) : standIn cs a = standIn cs b := by
  obtain ⟨x, hx⟩ := Option.isSome_iff_exists.1 hca
  obtain ⟨y, hy⟩ := Option.isSome_iff_exists.1 hcb
  have hcontent : a.contentHash = b.contentHash := by
    have hget := contentHash_getD_eq_of_key hkey
    rw [hx, hy, Option.getD_some, Option.getD_some] at hget
    rw [hx, hy, hget]
  have hmetaHash := metaHash_eq_of_key hkey
  have hmeta := hcs.metadata a ha.1 b hb.1 hmetaHash
  have hsize := hcs.size a ha.1 b hb.1 hcontent
  have hshadow : Shadowed cs a ↔ Shadowed cs b := by
    simp only [Shadowed, hkey, Version.copyDigits, hcontent, hmeta]
  have hmode : (standIn cs a).mode = (standIn cs b).mode := by
    simp only [standIn]
    by_cases hs : Shadowed cs a
    · rw [if_pos hs, if_pos (hshadow.1 hs)]
    · rw [if_neg hs, if_neg (mt hshadow.2 hs)]
      exact hfree.copies a b ha hb hkey hca hcb hloser hs
  have htomb := tombstone_eq_of_key hkey
  simp only [standIn] at hmode ⊢
  simp only [hcontent, hsize, htomb, hmeta, hmetaHash, hmode]

/-- The stand-ins of the losers with content come in the same order. -/
theorem map_standIn_perm {cs maximal maximal' : List Version} (hcs : Coherent cs)
    (hfree : OrderFree cs) (hmax : ∀ a, a ∈ maximal ↔ Undominated cs a)
    (hsorted : maximal.Pairwise fun a b => b.key ≤ a.key)
    (hsorted' : maximal'.Pairwise fun a b => b.key ≤ a.key) (hp : maximal'.Perm maximal)
    {w : Version} (hw : w ∈ maximal) (htop : ∀ a, Undominated cs a → a.key ≤ w.key) :
    (copiers w maximal').map (standIn cs) = (copiers w maximal).map (standIn cs) := by
  have hcopiers : (copiers w maximal').Perm (copiers w maximal) := hp.filter _
  have hkeys : ∀ {l : List Version}, l.Pairwise (fun a b => b.key ≤ a.key) →
      ((copiers w l).map (standIn cs)).Pairwise fun a b => b.key ≤ a.key := by
    intro l hl
    rw [List.pairwise_map]
    exact hl.sublist List.filter_sublist
  have hcopier : ∀ a ∈ copiers w maximal, Undominated cs a ∧ a.contentHash.isSome ∧
      ∃ w, Undominated cs w ∧ a.key < w.key := by
    intro a ha
    simp only [copiers, List.mem_filter, decide_eq_true_eq] at ha
    obtain ⟨ha, hsome, hne⟩ := ha
    exact ⟨(hmax a).1 ha, hsome, w, (hmax w).1 hw, lt_of_le_of_ne (htop a ((hmax a).1 ha)) hne⟩
  refine List.Perm.eq_of_pairwise ?_ (hkeys hsorted') (hkeys hsorted) (hcopiers.map _)
  intro x y hx hy hle hge
  obtain ⟨a, ha, rfl⟩ := List.mem_map.1 hx
  obtain ⟨b, hb, rfl⟩ := List.mem_map.1 hy
  obtain ⟨hunda, hsomea, hloser⟩ := hcopier a (hcopiers.mem_iff.1 ha)
  obtain ⟨hundb, hsomeb, -⟩ := hcopier b hb
  exact standIn_eq hcs hfree hunda hundb (le_antisymm hge hle) hsomea hsomeb hloser

/-- The copies of a plan, by the stand-ins of all kept candidates. -/
theorem planCopies_antichain {cs cs' losers : List Version} {w : Version} (path : Path)
    (h : antichain cs' = w :: losers) (hmax : ∀ a, a ∈ antichain cs' ↔ Undominated cs a)
    (htop : ∀ a, Undominated cs a → a.key ≤ w.key) :
    planCopies lookup path w rows losers =
      planCopies lookup path w rows ((copiers w (antichain cs')).map (standIn cs)) := by
  have htail : copiers w (antichain cs') = copiers w losers := by simp [copiers, h]
  rw [planCopies_copiers, ← htail]
  exact planCopies_standIn hmax (sorted_antichain cs') htop (List.nil_append _).symm (by simp)

/-- The plan is the same in every order. -/
theorem planCandidates_perm {cs cs' : List Version} (hcs : Coherent cs) (hfree : OrderFree cs)
    (hp : cs'.Perm cs) (path : Path) (lookup : Path → Option Version) :
    planCandidates path cs' lookup = planCandidates path cs lookup := by
  have hac := perm_antichain_of_perm hcs.version hp
  have hund : ∀ a, a ∈ antichain cs ↔ Undominated cs a := fun a => mem_antichain hcs.version
  have hund' : ∀ a, a ∈ antichain cs' ↔ Undominated cs a := fun a => hac.mem_iff.trans (hund a)
  unfold planCandidates
  cases hl : antichain cs with
  | nil =>
    rw [hl] at hac
    rw [hac.eq_nil]
  | cons w losers =>
    cases hl' : antichain cs' with
    | nil =>
      rw [hl, hl'] at hac
      exact absurd hac.symm.eq_nil (by simp)
    | cons w' losers' =>
      have hw : w ∈ antichain cs := by simp [hl]
      have hw' : w' ∈ antichain cs := hac.mem_iff.1 (by simp [hl'])
      have hkey : w'.key = w.key :=
        le_antisymm (key_le_head hl hw') (key_le_head hl' (hac.mem_iff.2 hw))
      have htop : ∀ a, Undominated cs a → a.key ≤ w.key := fun a ha =>
        key_le_head hl ((hund a).2 ha)
      have htop' : ∀ a, Undominated cs a → a.key ≤ w'.key := fun a ha => hkey ▸ htop a ha
      have hcontent := hfree.winner w' w ((hund w').1 hw') ((hund w).1 hw) hkey htop'
      have hsize := hcs.size w' (mem_of_mem_antichain hw') w (mem_of_mem_antichain hw) hcontent
      have hmeta := hcs.metadata w' (mem_of_mem_antichain hw') w (mem_of_mem_antichain hw)
        (metaHash_eq_of_key hkey)
      have hrow := winnerRow_perm path hp hac hw hw' hkey hcontent hsize hmeta
      have hcopiers : copiers w' (antichain cs') = copiers w (antichain cs') := by
        simp only [copiers, hkey]
      dsimp only
      rw [planCopies_antichain path hl' hund' htop', planCopies_antichain path hl hund htop,
        planCopies_congr_winner path hkey, hcopiers,
        map_standIn_perm hcs hfree hund (sorted_antichain cs) (sorted_antichain cs') hac hw htop,
        ← hl, ← hl', hrow]

/-! ### Orders that differ -/

theorem planCopies_append (path : Path) (w : Version) (xs ys : List Version) :
    planCopies lookup path w rows (xs ++ ys) =
      (planCopies lookup path w rows xs).bind fun rows' => planCopies lookup path w rows' ys := by
  induction xs generalizing rows with
  | nil => rfl
  | cons x xs ih =>
    rw [List.cons_append]
    simp only [planCopies]
    split
    · exact ih
    · split_ifs
      · exact ih
      · split
        · rfl
        · exact ih

/-- No row stands in the way of a copy. -/
def noRows : Path → Option Version := fun _ => none

theorem onlyCopies_noRows : OnlyCopies noRows := fun _ _ _ h => by cases h

/-- Of the losers with one copy name, the first is copied. -/
theorem copyRow_mem_plan {path : Path} {w a : Version} {before after : List Version} {hash : Hash}
    (hrows : ∀ r ∈ rows, r.path = path) (hhash : a.contentHash = some hash) (hkey : a.key ≠ w.key)
    (hfirst : ∀ x ∈ before, x.copyDigits = a.copyDigits → x.key = w.key)
    (h : planCopies noRows path w rows (before ++ a :: after) = some rows') :
    copyRow (copyNameOf path hash a) a ∈ rows' := by
  obtain ⟨added, hbefore, hadded, -⟩ := planCopies_of_copies onlyCopies_noRows path w rows before
  have hfree : (rows ++ added).any (fun r => r.path = copyNameOf path hash a) = false := by
    rw [List.any_eq_false]
    intro r hr heq
    have heq : r.path = copyNameOf path hash a := by simpa using heq
    rcases List.mem_append.1 hr with hr | hr
    · have hlen := length_lt_copyPathFor path hash (Meta.namingHash a.metadata)
      rw [← copyNameOf, ← heq, hrows r hr] at hlen
      exact absurd hlen (lt_irrefl _)
    · obtain ⟨-, x, hx, hxkey, hash', hhash', rfl⟩ := hadded r hr
      -- a name tells the digits
      have hdigits := (copyPathFor_inj heq).2
      refine hxkey (hfirst x hx ?_)
      rw [Version.copyDigits, Version.copyDigits, hhash, hhash', Option.map_some, Option.map_some, hdigits]
  have hplace : placeCopy noRows maxCopyDepth (rows ++ added) (copyNameOf path hash a) a =
      some (rows ++ added ++ [copyRow (copyNameOf path hash a) a]) := by
    have hname : IsCopyName (copyNameOf path hash a) := ⟨_, _, _, rfl⟩
    rw [maxCopyDepth, placeCopy_of_copies onlyCopies_noRows _ _ hname]
    simp [hfree, noRows]
  rw [planCopies_append, hbefore, Option.bind_some, planCopies_cons hhash hkey hplace] at h
  obtain ⟨rest, rfl, -⟩ := planCopies_spec h
  simp

/-- Where no row stands in the way there is a plan. -/
theorem planCandidates_noRows (path : Path) {cs losers : List Version} {w : Version}
    (h : antichain cs = w :: losers) :
    ∃ added, planCandidates path cs noRows = some (winnerRow path cs (w :: losers) w :: added) ∧
      planCopies noRows path w [winnerRow path cs (w :: losers) w] losers =
        some (winnerRow path cs (w :: losers) w :: added) := by
  obtain ⟨added, hplan, -⟩ := planCopies_of_copies onlyCopies_noRows path w
    [winnerRow path cs (w :: losers) w] losers
  refine ⟨added, ?_, hplan⟩
  rw [planCandidates, h]
  exact hplan

/-- If it comes first, a loser with content that is not shadowed is the one that is copied. -/
theorem copyRow_mem_of_first (path : Path) {cs : List Version} (hcs : Coherent cs) {a : Version}
    {hash : Hash} (ha : Undominated cs a) (hhash : a.contentHash = some hash)
    (hloser : ∃ w, Undominated cs w ∧ a.key < w.key) (hshadow : ¬ Shadowed cs a) :
    ∃ plan, planCandidates path (a :: cs.erase a) noRows = some plan ∧
      copyRow (copyNameOf path hash a) a ∈ plan := by
  have hp : (a :: cs.erase a).Perm cs := (List.perm_cons_erase ha.1).symm
  obtain ⟨before, after, hac, hbefore⟩ := antichain_first ha
  obtain ⟨w₀, hw₀, hlt₀⟩ := hloser
  cases before with
  | nil =>
    -- it would have the largest key
    have hmem : w₀ ∈ antichain (a :: cs.erase a) :=
      (mem_antichain (hcs.perm hp).version).2 ((undominated_perm hp).2 hw₀)
    exact absurd hlt₀ (not_lt_of_ge (key_le_head hac hmem))
  | cons w before =>
    obtain ⟨added, hplan, hcopies⟩ := planCandidates_noRows path hac
    refine ⟨_, hplan, copyRow_mem_plan (by simp [winnerRow]) hhash (hbefore w (by simp)).2.ne ?_ hcopies⟩
    intro x hx hdigits
    obtain ⟨hundx, hltx⟩ := hbefore x (List.mem_cons_of_mem _ hx)
    by_contra hne
    have hlex : x.key ≤ w.key := by
      refine key_le_head hac ?_
      rw [hac]
      simp [hx]
    exact hshadow ⟨x, w, hundx, (hbefore w (by simp)).1, hltx, lt_of_le_of_ne hlex hne, hdigits⟩

/-- A plan that is the same in every order has nothing left to the order. -/
theorem orderFree_of_perm {cs : List Version} (hcs : Coherent cs)
    (h : ∀ path lookup cs', cs'.Perm cs →
      planCandidates path cs' lookup = planCandidates path cs lookup) : OrderFree cs := by
  have hperm : ∀ {a}, Undominated cs a → (a :: cs.erase a).Perm cs := fun ha =>
    (List.perm_cons_erase ha.1).symm
  refine ⟨fun a b ha hb hkey htop => ?_, fun a b ha hb hkey hca hcb hloser hshadow => ?_⟩
  · have hrow : ∀ v, Undominated cs v → v.key = a.key → ∃ added row, row.contentHash = v.contentHash ∧
        planCandidates [] cs noRows = some (row :: added) := by
      intro v hv hvkey
      obtain ⟨before, after, hac, hbefore⟩ := antichain_first hv
      cases before with
      | nil =>
        obtain ⟨added, hplan, -⟩ := planCandidates_noRows [] hac
        exact ⟨added, _, rfl, (h [] noRows _ (hperm hv)).symm.trans hplan⟩
      | cons x before =>
        obtain ⟨hx, hlt⟩ := hbefore x (by simp)
        exact absurd (hvkey ▸ hlt) (not_lt_of_ge (htop x hx))
    obtain ⟨_, rowa, hrowa, hplana⟩ := hrow a ha rfl
    obtain ⟨_, rowb, hrowb, hplanb⟩ := hrow b hb hkey.symm
    rw [hplana, Option.some.injEq, List.cons.injEq] at hplanb
    rw [← hrowa, ← hrowb, hplanb.1]
  · obtain ⟨x, hx⟩ := Option.isSome_iff_exists.1 hca
    obtain ⟨y, hy⟩ := Option.isSome_iff_exists.1 hcb
    have hmeta := hcs.metadata a ha.1 b hb.1 (metaHash_eq_of_key hkey)
    have hxy : x = y := by
      have hget := contentHash_getD_eq_of_key hkey
      rwa [hx, hy, Option.getD_some, Option.getD_some] at hget
    subst hxy
    have hshadow' : ¬ Shadowed cs b := by
      rintro ⟨c, w, hc, hw, hlt, hlt', hdigits⟩
      refine hshadow ⟨c, w, hc, hw, hkey ▸ hlt, hlt', ?_⟩
      rw [hdigits, Version.copyDigits, Version.copyDigits, hx, hy, hmeta]
    obtain ⟨plan, hplan, hmem⟩ := copyRow_mem_of_first [] hcs ha hx hloser hshadow
    obtain ⟨plan', hplan', hmem'⟩ := copyRow_mem_of_first [] hcs hb hy (hkey ▸ hloser) hshadow'
    rw [h [] noRows _ (hperm ha)] at hplan
    rw [h [] noRows _ (hperm hb), hplan, Option.some.injEq] at hplan'
    subst hplan'
    obtain ⟨_, _, _, -, -, -, hnodup⟩ := planCandidates_spec hplan
    have hname : copyNameOf [] x a = copyNameOf [] x b := by rw [copyNameOf, hmeta, copyNameOf]
    have heq := List.inj_on_of_nodup_map hnodup hmem hmem' hname
    exact congrArg (·.mode) heq

/-- **The plan and the order of the candidates.**  For every list of candidates in which equal
vectors belong to one version, equal contents have equal sizes and equal metadata hashes belong to
equal metadata: the plan is the same for every path, every lookup and every permutation of the list
if and only if the winners have one content hash, and the losers of equal key that have content and
are not shadowed have one mode. -/
theorem planCandidates_perm_iff {cs : List Version} (hcs : Coherent cs) :
    (∀ path lookup cs', cs'.Perm cs →
      planCandidates path cs' lookup = planCandidates path cs lookup) ↔ OrderFree cs :=
  ⟨orderFree_of_perm hcs, fun hfree path lookup _ hp => planCandidates_perm hcs hfree hp path lookup⟩

end

section Example

attribute [local instance] Blake3.polynomial

/-- Node `n` has written the given content. -/
def writtenBy (n : NodeId) (content : Hash) (mode : U32) : Version where
  contentHash := some content
  mode := mode
  size := 3
  tombstone := false
  vv := VersionVector.fromIter [(n, 1)]
  uuid := some n
  metadata := none
  metaHash := Meta.hashOf none

/-- The two losers have the same content and the same mode. -/
theorem plan_perm_same_modes :
    planCandidates ['f'] [writtenBy 2 5 420, writtenBy 1 5 420, writtenBy 3 9 420] noRows =
      planCandidates ['f'] [writtenBy 1 5 420, writtenBy 2 5 420, writtenBy 3 9 420] noRows := by
  have hcs : Coherent [writtenBy 1 5 420, writtenBy 2 5 420, writtenBy 3 9 420] :=
    ⟨by decide, by decide, by decide⟩
  have hcontent : ∀ a ∈ [writtenBy 1 5 420, writtenBy 2 5 420, writtenBy 3 9 420],
      ∀ b ∈ [writtenBy 1 5 420, writtenBy 2 5 420, writtenBy 3 9 420],
        a.key = b.key → a.contentHash = b.contentHash := by decide
  have hmode : ∀ a ∈ [writtenBy 1 5 420, writtenBy 2 5 420, writtenBy 3 9 420],
      ∀ b ∈ [writtenBy 1 5 420, writtenBy 2 5 420, writtenBy 3 9 420], a.mode = b.mode := by decide
  exact (planCandidates_perm_iff hcs).2
    ⟨fun a b ha hb hkey _ => hcontent a ha.1 b hb.1 hkey, fun a b ha hb _ _ _ _ _ =>
      hmode a ha.1 b hb.1⟩ _ _ _ (by decide)

/-- **Two nodes plan different rows.**  The losers have the same content and different modes, and
the copy has the mode of the one that came first. -/
theorem plan_perm_different_modes :
    let cs := [writtenBy 1 5 420, writtenBy 2 5 384, writtenBy 3 9 420]
    let cs' := [writtenBy 2 5 384, writtenBy 1 5 420, writtenBy 3 9 420]
    Coherent cs ∧ cs'.Perm cs ∧
      planCandidates ['f'] cs' noRows ≠ planCandidates ['f'] cs noRows := by
  refine ⟨⟨by decide, by decide, by decide⟩, by decide, by decide +kernel⟩

end Example

end Replicore
