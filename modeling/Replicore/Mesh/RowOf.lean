import Replicore.Mesh.Agreement

/-!
# The row that a set of ops determines

`IsRowOf S w r` : the row `r` is what the ops `S` at one path come to.  Its vector is the merge of
theirs; `w` is an op of largest key among those of `S` that no other dominates, and the row has its
file, with the largest uuid of the maximal ops of that key.

The three ways in which a node takes in one more op keep this: the op is above all others
(`IsRowOf.of_lt`), at or below one of them (`IsRowOf.of_le`), or is resolved against all of them
(`isRowOf_winnerRow`).  And the row is determined by the set (`IsRowOf.unique`).
-/

namespace Replicore

/-- The ops of the list that no other op of it dominates. -/
def maximalOps (S : List OpRecord) : List OpRecord := S.filter fun o => ∀ y ∈ S, ¬ o.vv < y.vv

theorem mem_maximalOps {S : List OpRecord} {o : OpRecord} :
    o ∈ maximalOps S ↔ o ∈ S ∧ ∀ y ∈ S, ¬ o.vv < y.vv := by
  simp [maximalOps]

theorem maximalOps_congr {S T : List OpRecord} (h : ∀ o, o ∈ S ↔ o ∈ T) {o : OpRecord} :
    o ∈ maximalOps S ↔ o ∈ maximalOps T := by
  simp only [mem_maximalOps, h]

/-- An op at or below another adds nothing, unless it is that other. -/
theorem maximalOps_append_of_le {S : List OpRecord} {op o : OpRecord}
    (hanti : ∀ o ∈ S ++ [op], ∀ o' ∈ S ++ [op], o.vv ≤ o'.vv → o'.vv ≤ o.vv → o = o') (ho : o ∈ S)
    (hle : op.vv ≤ o.vv) (k : OpRecord) : k ∈ maximalOps (S ++ [op]) ↔ k ∈ maximalOps S := by
  simp only [mem_maximalOps, List.mem_append, List.mem_singleton]
  constructor
  · rintro ⟨hk | rfl, hkmax⟩
    · exact ⟨hk, fun y hy => hkmax y (.inl hy)⟩
    · have hge : o.vv ≤ k.vv := by
        by_contra hnot
        exact hkmax o (.inl ho) (lt_iff_le_not_ge.2 ⟨hle, hnot⟩)
      have heq := hanti k (by simp) o (by simp [ho]) hle hge
      exact ⟨heq ▸ ho, fun y hy => hkmax y (.inl hy)⟩
  · rintro ⟨hk, hkmax⟩
    refine ⟨.inl hk, fun y hy => ?_⟩
    rcases hy with hy | rfl
    · exact hkmax y hy
    · exact fun hlt => hkmax o ho (hlt.trans_le hle)

/-- An op above all others is the one maximal op. -/
theorem maximalOps_append_of_lt {S : List OpRecord} {op : OpRecord}
    (hlt : ∀ o ∈ S, o.vv < op.vv) (k : OpRecord) : k ∈ maximalOps (S ++ [op]) ↔ k = op := by
  simp only [mem_maximalOps, List.mem_append, List.mem_singleton]
  constructor
  · rintro ⟨hk | rfl, hkmax⟩
    · exact absurd (hlt k hk) (hkmax op (.inr rfl))
    · rfl
  · rintro rfl
    refine ⟨.inr rfl, fun y hy => ?_⟩
    rcases hy with hy | rfl
    · exact (hlt y hy).asymm
    · exact lt_irrefl _

section

variable [Blake3]

/-- The total-order key of an op. -/
def OpRecord.key (o : OpRecord) : Key := (opVersion o).key

/-- One op is maximal. -/
def Single (S : List OpRecord) : Prop := ∀ k ∈ maximalOps S, ∀ k' ∈ maximalOps S, k = k'

/-- The row that the ops `S` come to, `w` being one of the best of them.  The mode, like the uuid,
is the largest of those of the winning key; a tombstone that was resolved has mode 0. -/
structure IsRowOf (S : List OpRecord) (w : OpRecord) (r : Row) : Prop where
  mem : w ∈ maximalOps S
  best : ∀ k ∈ maximalOps S, k.key ≤ w.key
  tombstone : r.tombstone = decide (w.opType = .delete)
  contentHash : r.contentHash = w.contentHash
  size : r.size = w.size
  metadata : r.metadata = w.metadata
  uuid : ∃ u, r.uuid = some u ∧
    IsGreatest {u | ∃ k ∈ maximalOps S, k.key = w.key ∧ k.uuid = some u} u
  mode : r.tombstone = false ∨ Single S →
    IsGreatest {m | ∃ k ∈ maximalOps S, k.key = w.key ∧ k.mode = m} r.mode
  mode_resolved : r.tombstone = true → ¬ Single S → r.mode = 0
  vv : r.vv = mergeAll (S.map opVersion)

/-- The version is that of the op, but for the mode of a tombstone. -/
structure Version.Of (c : Version) (o : OpRecord) : Prop where
  tidy : c.Tidy
  file : c.SameFile o
  uuid : c.uuid = o.uuid
  vv : c.vv = o.vv
  size : c.size = o.size
  mode : c.tombstone = false → c.mode = o.mode

theorem Version.Of.key {c : Version} {o : OpRecord} (h : c.Of o) : c.key = o.key :=
  h.file.key_eq h.tidy.metaHash

theorem opVersion_of {o : OpRecord} (h : o.Plain) : (opVersion o).Of o :=
  ⟨h.opVersion.1, h.opVersion.2, rfl, rfl, rfl, fun _ => rfl⟩

theorem opAsCandidate_of {o : OpRecord} (h : o.Plain) : (Store.opAsCandidate o.path o).Of o := by
  obtain ⟨htidy, hfile⟩ := h.opAsCandidate
  refine ⟨htidy, hfile, rfl, rfl, ?_, fun hlive => ?_⟩
  · by_cases hop : o.opType = .delete
    · simp [Store.opAsCandidate, hop, (h.delete hop).2.1]
    · simp [Store.opAsCandidate, hop]
  · by_cases hop : o.opType = .delete
    · simp [Store.opAsCandidate, hop] at hlive
    · simp [Store.opAsCandidate, hop]

/-! ### Merged vectors -/

theorem mem_map_opVersion {S : List OpRecord} {o : OpRecord} (ho : o ∈ S) :
    o.vv ≤ mergeAll (S.map opVersion) :=
  le_mergeAll (List.mem_map_of_mem (f := opVersion) ho)

theorem mergeAll_opVersion_le {S : List OpRecord} {v : VersionVector} (h : ∀ o ∈ S, o.vv ≤ v) :
    mergeAll (S.map opVersion) ≤ v := by
  refine mergeAll_le fun c hc => ?_
  obtain ⟨o, ho, rfl⟩ := List.mem_map.1 hc
  exact h o ho

theorem normal_opVersions {S : List OpRecord} (h : ∀ o ∈ S, o.vv.Normal) :
    (mergeAll (S.map opVersion)).Normal := by
  refine VersionVector.joinClosed_normal.mergeAll fun c hc => ?_
  obtain ⟨o, ho, rfl⟩ := List.mem_map.1 hc
  exact h o ho

/-- A normal vector that is the least above the ops is their merge. -/
theorem eq_mergeAll {S : List OpRecord} {v : VersionVector} (hS : ∀ o ∈ S, o.vv.Normal)
    (hv : v.Normal) (hle : ∀ o ∈ S, o.vv ≤ v) (hleast : v ≤ mergeAll (S.map opVersion)) :
    v = mergeAll (S.map opVersion) :=
  hv.ext (normal_opVersions hS) hleast (mergeAll_opVersion_le hle)

/-! ### One more op -/

namespace IsRowOf

variable {S : List OpRecord} {w op : OpRecord} {r : Row}

/-- An op above all others. -/
theorem of_lt (hop : op.Plain) (hS : ∀ o ∈ S ++ [op], o.vv.Normal)
    (hlt : ∀ o ∈ S, o.vv < op.vv) :
    IsRowOf (S ++ [op]) op (effectRow op op.path op.vv) := by
  have hmax := maximalOps_append_of_lt hlt
  have hvv : op.vv = mergeAll ((S ++ [op]).map opVersion) := by
    refine eq_mergeAll hS (hS op (by simp)) (fun o ho => ?_) (mem_map_opVersion (by simp))
    rcases List.mem_append.1 ho with ho | ho
    · exact (hlt o ho).le
    · rw [List.mem_singleton.1 ho]
  obtain ⟨-, ⟨htomb, hcontent, hmeta⟩, huuid⟩ := hop.effectRow op.vv
  obtain ⟨u, hu⟩ := Option.isSome_iff_exists.1 hop.uuid
  have hsize : (effectRow op op.path op.vv).size = op.size ∧
      (effectRow op op.path op.vv).mode = op.mode := by
    rw [effectRow, if_pos rfl]
    unfold Store.appliedRow
    cases hty : op.opType with
    | write => exact ⟨rfl, rfl⟩
    | delete => exact ⟨(hop.delete hty).2.1.symm, rfl⟩
    | rename => exact absurd hty hop.not_rename
  refine ⟨(hmax op).2 rfl, fun k hk => ?_, htomb, hcontent, hsize.1, hmeta, ⟨u, ?_, ?_, ?_⟩,
    fun _ => ⟨?_, ?_⟩, fun _ hnot => ?_, ?_⟩
  · rw [(hmax k).1 hk]
  · exact huuid.trans hu
  · exact ⟨op, (hmax op).2 rfl, rfl, hu⟩
  · rintro v ⟨k, hk, -, hv⟩
    rw [(hmax k).1 hk, hu, Option.some.injEq] at hv
    exact hv.symm.le
  · exact ⟨op, (hmax op).2 rfl, rfl, hsize.2.symm⟩
  · rintro m ⟨k, hk, -, rfl⟩
    rw [(hmax k).1 hk, hsize.2]
  · exact absurd (fun k hk k' hk' => ((hmax k).1 hk).trans ((hmax k').1 hk').symm) hnot
  · rw [effectRow_vv]
    exact hvv

/-- The row depends on the set of ops only. -/
theorem congr {T : List OpRecord} (h : IsRowOf S w r)
    (hmax : ∀ o, o ∈ maximalOps T ↔ o ∈ maximalOps S)
    (hvv : mergeAll (T.map opVersion) = mergeAll (S.map opVersion)) : IsRowOf T w r := by
  have hsingle : Single T ↔ Single S := by
    simp only [Single, hmax]
  have hset : ∀ {α : Type} (f : OpRecord → α → Prop),
      {u | ∃ k ∈ maximalOps T, k.key = w.key ∧ f k u} =
        {u | ∃ k ∈ maximalOps S, k.key = w.key ∧ f k u} := by
    intro α f
    simp only [hmax]
  refine ⟨(hmax w).2 h.mem, fun k hk => h.best k ((hmax k).1 hk), h.tombstone, h.contentHash, h.size,
    h.metadata, ?_, fun hm => ?_, fun ht hs => h.mode_resolved ht (mt hsingle.2 hs), ?_⟩
  · rw [hset]
    exact h.uuid
  · rw [hset]
    exact h.mode (hm.imp_right hsingle.1)
  · rw [hvv]
    exact h.vv

/-- An op at or below one of the others. -/
theorem of_le (h : IsRowOf S w r) (hS : ∀ o ∈ S ++ [op], o.vv.Normal)
    (hanti : ∀ o ∈ S ++ [op], ∀ o' ∈ S ++ [op], o.vv ≤ o'.vv → o'.vv ≤ o.vv → o = o')
    {o : OpRecord} (ho : o ∈ S) (hle : op.vv ≤ o.vv) : IsRowOf (S ++ [op]) w r := by
  refine h.congr (maximalOps_append_of_le hanti ho hle) ?_
  refine (eq_mergeAll hS (normal_opVersions fun o ho => hS o (by simp [ho])) (fun y hy => ?_)
    (mergeAll_opVersion_le fun y hy => mem_map_opVersion (by simp [hy]))).symm
  rcases List.mem_append.1 hy with hy | hy
  · exact mem_map_opVersion hy
  · rw [List.mem_singleton.1 hy]
    exact hle.trans (mem_map_opVersion ho)

end IsRowOf

/-! ### A resolution -/

section

variable {S : List OpRecord} {cs : List Version}

/-- The kept candidates are the versions of the maximal ops. -/
theorem maximal_of_kept (hcs' : ∀ o ∈ S, ∃ c ∈ cs, c.Of o) {c : Version} (hc : c ∈ antichain cs)
    {o : OpRecord} (ho : o ∈ S) (hof : c.Of o) : o ∈ maximalOps S := by
  refine mem_maximalOps.2 ⟨ho, fun y hy hlt => ?_⟩
  obtain ⟨d, hd, hdof⟩ := hcs' y hy
  rw [← hof.vv, ← hdof.vv] at hlt
  exact not_lt_of_mem_antichain hc hd hlt

theorem kept_of_maximal (hcs : ∀ c ∈ cs, ∃ o ∈ S, c.Of o) (hcs' : ∀ o ∈ S, ∃ c ∈ cs, c.Of o)
    (hanti : ∀ o ∈ S, ∀ o' ∈ S, o.vv ≤ o'.vv → o'.vv ≤ o.vv → o = o') {o : OpRecord}
    (ho : o ∈ maximalOps S) : ∃ c ∈ antichain cs, c.Of o := by
  obtain ⟨hoS, hmax⟩ := mem_maximalOps.1 ho
  obtain ⟨d, hd, hdof⟩ := hcs' o hoS
  obtain ⟨c, hc, hle⟩ := exists_ge_antichain hd
  obtain ⟨o', ho', hof⟩ := hcs c (mem_of_mem_antichain hc)
  rw [hdof.vv, hof.vv] at hle
  have hge : o'.vv ≤ o.vv := by
    by_contra hnot
    exact hmax o' ho' (lt_iff_le_not_ge.2 ⟨hle, hnot⟩)
  obtain rfl := hanti o hoS o' ho' hle hge
  exact ⟨c, hc, hof⟩

/-- What the ops `S` come to when they are resolved. -/
theorem isRowOf_winnerRow (hS : ∀ o ∈ S, o.vv.Normal) (hplain : ∀ o ∈ S, o.Plain)
    (hanti : ∀ o ∈ S, ∀ o' ∈ S, o.vv ≤ o'.vv → o'.vv ≤ o.vv → o = o')
    (hcs : ∀ c ∈ cs, ∃ o ∈ S, c.Of o) (hcs' : ∀ o ∈ S, ∃ c ∈ cs, c.Of o) (hnot : ¬ Single S)
    {winner : Version} {losers : List Version} (hac : antichain cs = winner :: losers)
    (path : Path) : ∃ w, winner.Of w ∧
      IsRowOf S w (winnerRow path cs (winner :: losers) winner).toRow := by
  have hkept : ∀ k ∈ winner :: losers, ∃ o ∈ maximalOps S, k.Of o := by
    intro k hk
    rw [← hac] at hk
    obtain ⟨o, ho, hof⟩ := hcs k (mem_of_mem_antichain hk)
    exact ⟨o, maximal_of_kept hcs' hk ho hof, hof⟩
  have hmaximal : ∀ o ∈ maximalOps S, ∃ k ∈ winner :: losers, k.Of o := by
    intro o ho
    obtain ⟨c, hc, hof⟩ := kept_of_maximal hcs hcs' hanti ho
    exact ⟨c, hac ▸ hc, hof⟩
  obtain ⟨w, hw, hof⟩ := hkept winner List.mem_cons_self
  have hwplain := hplain w (mem_maximalOps.1 hw).1
  obtain ⟨u, hu, ⟨k₀, hk₀, hkey₀, hu₀⟩, hle⟩ :=
    uuid_winnerRow path cs List.mem_cons_self hof.tidy.uuid
  refine ⟨w, hof, hw, fun o ho => ?_, hof.file.1, hof.file.2.1, ?_, ?_, ⟨u, hu, ?_, ?_⟩,
    fun hm => ?_, fun ht _ => if_pos ht, ?_⟩
  · obtain ⟨k, hk, hkof⟩ := hmaximal o ho
    rw [← hkof.key, ← hof.key]
    exact key_le_head hac (hac ▸ hk)
  · change (if winner.tombstone then 0 else winner.size) = w.size
    split_ifs with ht
    · rw [hof.file.1, decide_eq_true_eq] at ht
      exact (hwplain.delete ht).2.1.symm
    · exact hof.size
  · change (if winner.tombstone then none else winner.metadata) = w.metadata
    split_ifs with ht
    · rw [← hof.file.2.2, hof.tidy.tombstone ht]
    · exact hof.file.2.2
  · obtain ⟨o, ho, hkof⟩ := hkept k₀ hk₀
    exact ⟨o, ho, by rw [← hkof.key, hkey₀, hof.key], by rw [← hkof.uuid, hu₀]⟩
  · rintro v ⟨o, ho, hkey, hv⟩
    obtain ⟨k, hk, hkof⟩ := hmaximal o ho
    exact hle k hk (by rw [hkof.key, hkey, hof.key]) v (by rw [hkof.uuid, hv])
  · have hlive : winner.tombstone = false := hm.resolve_right hnot
    obtain ⟨⟨k, hk, hkey, hmode⟩, hge⟩ := mode_winnerRow path cs
      (show winner ∈ winner :: losers from List.mem_cons_self) hlive
    have hklive : ∀ k ∈ winner :: losers, k.key = winner.key → k.tombstone = false := by
      intro k _ hkey
      simp only [Version.key, EmbeddingLike.apply_eq_iff_eq, Prod.mk.injEq] at hkey
      by_contra ht
      simp [hlive, ht] at hkey
    constructor
    · obtain ⟨o, ho, hkof⟩ := hkept k hk
      refine ⟨o, ho, by rw [← hkof.key, hkey, hof.key], ?_⟩
      rw [← hkof.mode (hklive k hk hkey)]
      exact hmode
    · rintro m ⟨o, ho, hkey', rfl⟩
      obtain ⟨k', hk', hkof⟩ := hmaximal o ho
      have hkw : k'.key = winner.key := by rw [hkof.key, hkey', hof.key]
      exact hge ⟨k', hk', hkw, hkof.mode (hklive k' hk' hkw)⟩
  · change mergeAll cs = _
    refine eq_mergeAll hS (VersionVector.joinClosed_normal.mergeAll fun c hc => ?_) (fun o ho => ?_) (mergeAll_le fun c hc => ?_)
    · obtain ⟨o, ho, hcof⟩ := hcs c hc
      rw [hcof.vv]
      exact hS o ho
    · obtain ⟨c, hc, hcof⟩ := hcs' o ho
      rw [← hcof.vv]
      exact le_mergeAll hc
    · obtain ⟨o, ho, hcof⟩ := hcs c hc
      rw [hcof.vv]
      exact mem_map_opVersion ho

end

/-! ### The row is determined -/

/-- No digest of a content or of metadata collides, so that the digest of a content determines its
size; and neither do the truncated names of conflict copies. -/
structure DigestsApart (ops : List OpRecord) : Prop extends History.HashesApart ops where
  size : ∀ o ∈ ops, ∀ o' ∈ ops, ∀ hash, o.contentHash = some hash → o'.contentHash = some hash →
    o.size = o'.size
  names : ∀ o ∈ ops, ∀ o' ∈ ops, ∀ hash hash', o.contentHash = some hash →
    o'.contentHash = some hash' →
    copyPathFor o.path hash (Meta.namingHash o.metadata) =
      copyPathFor o'.path hash' (Meta.namingHash o'.metadata) →
    hash = hash' ∧ Meta.namingHash o.metadata = Meta.namingHash o'.metadata

theorem DigestsApart.mono {ops ops' : List OpRecord} (h : DigestsApart ops') (hs : ops ⊆ ops') :
    DigestsApart ops where
  toHashesApart := h.toHashesApart.mono hs
  size o ho o' ho' := h.size o (hs ho) o' (hs ho')
  names o ho o' ho' := h.names o (hs ho) o' (hs ho')

/-- Ops of equal keys have equal files. -/
theorem DigestsApart.eq_of_key {ops : List OpRecord} (h : DigestsApart ops)
    (hplain : ∀ o ∈ ops, o.Plain) (hsized : ∀ o ∈ ops, o.contentHash = none → o.size = 0)
    {o o' : OpRecord} (ho : o ∈ ops) (ho' : o' ∈ ops) (hkey : o.key = o'.key) :
    (o.opType = .delete ↔ o'.opType = .delete) ∧ o.contentHash = o'.contentHash ∧
      o.size = o'.size ∧ o.metadata = o'.metadata := by
  have hof := opVersion_of (hplain o ho)
  have hof' := opVersion_of (hplain o' ho')
  obtain ⟨ht, hcontent, hmeta⟩ :=
    h.toHashesApart.eq_of_key hof.tidy hof'.tidy ⟨o, ho, hof.file⟩ ⟨o', ho', hof'.file⟩ hkey
  change o.contentHash = o'.contentHash at hcontent
  refine ⟨by simpa [opVersion] using ht, hcontent, ?_, hmeta⟩
  cases hc : o.contentHash with
  | none => rw [hsized o ho hc, hsized o' ho' (hcontent ▸ hc)]
  | some hash => exact h.size o ho o' ho' hash hc (hcontent ▸ hc)

theorem IsRowOf.unique {ops S T : List OpRecord} (h : DigestsApart ops)
    (hplain : ∀ o ∈ ops, o.Plain) (hsized : ∀ o ∈ ops, o.contentHash = none → o.size = 0)
    (hS : ∀ o ∈ S, o ∈ ops) (hnormal : ∀ o ∈ S, o.vv.Normal)
    (hset : ∀ o, o ∈ S ↔ o ∈ T) {w w' : OpRecord} {r r' : Row} (hr : IsRowOf S w r)
    (hr' : IsRowOf T w' r') : r = r' := by
  -- the other row is one of the same set
  have hvv : mergeAll (S.map opVersion) = mergeAll (T.map opVersion) := by
    refine (normal_opVersions hnormal).ext (normal_opVersions fun o ho => hnormal o ((hset o).2 ho))
      (mergeAll_opVersion_le fun o ho => mem_map_opVersion ((hset o).1 ho))
      (mergeAll_opVersion_le fun o ho => mem_map_opVersion ((hset o).2 ho))
  have hr'' := hr'.congr (fun o => maximalOps_congr hset) hvv
  have hkey : w.key = w'.key := le_antisymm (hr''.best w hr.mem) (hr.best w' hr''.mem)
  obtain ⟨htype, hcontent, hsize, hmeta⟩ := h.eq_of_key hplain hsized
    (hS w (mem_maximalOps.1 hr.mem).1) (hS w' (mem_maximalOps.1 hr''.mem).1) hkey
  have htomb : r.tombstone = r'.tombstone := by
    rw [hr.tombstone, hr''.tombstone, decide_eq_decide]
    exact htype
  have huuid : r.uuid = r'.uuid := by
    obtain ⟨u, hu, hgreatest⟩ := hr.uuid
    obtain ⟨u', hu', hgreatest'⟩ := hr''.uuid
    rw [← hkey] at hgreatest'
    rw [hu, hu', hgreatest.unique hgreatest']
  have hmode : r.mode = r'.mode := by
    by_cases hm : r.tombstone = false ∨ Single S
    · have hg := hr.mode hm
      have hg' := hr''.mode (htomb ▸ hm)
      rw [← hkey] at hg'
      exact hg.unique hg'
    · obtain ⟨ht, hs⟩ := not_or.1 hm
      rw [Bool.not_eq_false] at ht
      rw [hr.mode_resolved ht hs, hr''.mode_resolved (htomb ▸ ht) hs]
  obtain ⟨c, m, s, t, v, u, md⟩ := r
  obtain ⟨c', m', s', t', v', u', md'⟩ := r'
  have h1 := hr.contentHash.trans (hcontent.trans hr''.contentHash.symm)
  have h2 := hr.size.trans (hsize.trans hr''.size.symm)
  have h3 := hr.metadata.trans (hmeta.trans hr''.metadata.symm)
  have h4 := hr.vv.trans hr''.vv.symm
  simp only [Row.mk.injEq]
  exact ⟨h1, hmode, h2, htomb, h4, huuid, h3⟩

end

end Replicore
