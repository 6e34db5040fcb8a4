import Replicore.Conflict.Copies
import Replicore.Mesh.Fleet

/-!
# What a node has handled settles its rows

`NodeInv ops st S` : the store `st` is what the handled ops `S` come to, at every path that is no
conflict-copy name, and the rows at conflict-copy names are copies.  An op that comes in is above
the handled ones at its path (`NodeInv.above`), at or below one of them (`NodeInv.below`), or is
resolved against all of them, since the log explains the row (`NodeInv.resolve`).
-/

namespace Replicore

theorem filter_append_of_ne {S : List OpRecord} {op : OpRecord} {p : Path} (hp : op.path ≠ p) :
    (S ++ [op]).filter (fun o => o.path = p) = S.filter fun o => o.path = p := by
  simp [List.filter_append, hp]

theorem filter_append_self {S : List OpRecord} {op : OpRecord} :
    (S ++ [op]).filter (fun o => o.path = op.path) =
      (S.filter fun o => o.path = op.path) ++ [op] := by
  simp [List.filter_append]

/-- What a store has on record of the ops `S` that its node has handled. -/
structure Booked (ops : List OpRecord) (st : Store) (S : List OpRecord) : Prop where
  mem : ∀ o ∈ S, o ∈ ops
  log : ∀ o, o ∈ st.oplog ↔ o ∈ S
  applied : ∀ i ∈ st.applied, ∃ o ∈ S, o.opId = i

theorem Booked.append {ops S : List OpRecord} {st st' : Store} {op : OpRecord}
    (h : Booked ops st S) (hmem : op ∈ ops)
    (hlog : ∀ o, o ∈ st'.oplog ↔ o ∈ st.oplog ∨ o = op)
    (happ : ∀ i ∈ st'.applied, i ∈ st.applied ∨ i = op.opId) : Booked ops st' (S ++ [op]) := by
  refine ⟨fun o ho => ?_, fun o => ?_, fun i hi => ?_⟩
  · rcases List.mem_append.1 ho with ho | ho
    · exact h.mem o ho
    · rwa [List.mem_singleton.1 ho]
  · rw [hlog, h.log, List.mem_append, List.mem_singleton]
  · rcases happ i hi with hi | rfl
    · obtain ⟨o, ho, hid⟩ := h.applied i hi
      exact ⟨o, List.mem_append_left _ ho, hid⟩
    · exact ⟨op, by simp, rfl⟩

variable [Blake3]

/-- The row is a conflict copy of the content of one of the ops. -/
def IsCopyOf (ops : List OpRecord) (p : Path) (r : Row) : Prop :=
  r.vv = copyVv p ∧ ∃ o ∈ ops, ∃ hash, o.contentHash = some hash ∧
    p = copyPathFor o.path hash (Meta.namingHash o.metadata) ∧
    r.contentHash = some hash ∧ Meta.namingHash r.metadata = Meta.namingHash o.metadata

/-- A row at the copy name of an op's content has that content. -/
theorem IsCopyOf.content {ops : List OpRecord} (hdig : DigestsApart ops) {k : OpRecord} (hk : k ∈ ops)
    {hash : Hash} (hhash : k.contentHash = some hash) {c : Row}
    (hc : IsCopyOf ops (copyPathFor k.path hash (Meta.namingHash k.metadata)) c) :
    c.contentHash = some hash ∧ Meta.namingHash c.metadata = Meta.namingHash k.metadata := by
  obtain ⟨-, o, ho, hash', hhash', hname, hcontent, hnaming⟩ := hc
  obtain ⟨rfl, hsame⟩ := hdig.names k hk o ho hash hash' hhash hhash' hname
  exact ⟨hcontent, hnaming.trans hsame.symm⟩

/-- The content of `k` is kept at its copy name. -/
def KeepsCopy (st : Store) (p : Path) (k : OpRecord) : Prop :=
  ∀ hash, k.contentHash = some hash →
    ∃ c, st.files.get? (copyPathFor p hash (Meta.namingHash k.metadata)) = some c ∧
      c.contentHash = some hash ∧ Meta.namingHash c.metadata = Meta.namingHash k.metadata

/-- At `p`, the store is what the ops `S` come to. -/
structure Settled (st : Store) (S : List OpRecord) (p : Path) : Prop where
  none : st.files.get? p = none → S = []
  some : ∀ r, st.files.get? p = some r → ∃ w, IsRowOf S w r ∧
    ∀ k ∈ maximalOps S, k.key ≠ w.key → KeepsCopy st p k

/-- What a node's store is, when it has handled the ops `S`. -/
structure NodeInv (ops : List OpRecord) (st : Store) (S : List OpRecord) : Prop
    extends Booked ops st S where
  rows : ∀ p, ¬ IsCopyName p → Settled st (S.filter fun o => o.path = p) p
  copies : ∀ p r, IsCopyName p → st.files.get? p = some r → IsCopyOf ops p r

namespace NodeInv

variable {ops S : List OpRecord} {st st' : Store} {op : OpRecord} {p : Path}

theorem mono (h : NodeInv ops st S) {ops' : List OpRecord} (hs : ops ⊆ ops') :
    NodeInv ops' st S := by
  refine ⟨⟨fun o ho => hs (h.mem o ho), h.log, h.applied⟩, h.rows, fun p r hp hr => ?_⟩
  obtain ⟨hvv, o, ho, hrest⟩ := h.copies p r hp hr
  exact ⟨hvv, o, hs ho, hrest⟩

/-- The vector of a row is the merge of those of the handled ops. -/
theorem vvAt_eq (h : NodeInv ops st S) (hp : ¬ IsCopyName p) :
    st.vvAt p = mergeAll ((S.filter fun o => o.path = p).map opVersion) := by
  cases hr : st.files.get? p with
  | none =>
    rw [(h.rows p hp).none hr, Store.vvAt_eq_new hr]
    rfl
  | some r =>
    obtain ⟨w, hrow, -⟩ := (h.rows p hp).some r hr
    rw [Store.vvAt_eq hr]
    exact hrow.vv

theorem le_vvAt (h : NodeInv ops st S) {o : OpRecord} (ho : o ∈ S) (hp : ¬ IsCopyName o.path) :
    o.vv ≤ st.vvAt o.path := by
  rw [h.vvAt_eq hp]
  exact mem_map_opVersion (List.mem_filter.2 ⟨ho, by simp⟩)

/-- Elsewhere nothing has to change: rows and copies stay. -/
theorem settled_congr {T : List OpRecord} (h : Settled st T p)
    (hrow : st'.files.get? p = st.files.get? p)
    (hcopies : ∀ q c, IsCopyName q → st.files.get? q = some c → st'.files.get? q = some c) :
    Settled st' T p := by
  refine ⟨fun hn => h.none (hrow ▸ hn), fun r hr => ?_⟩
  obtain ⟨w, hisrow, hkeep⟩ := h.some r (hrow ▸ hr)
  refine ⟨w, hisrow, fun k hk hkey hash hhash => ?_⟩
  obtain ⟨c, hc, hrest⟩ := hkeep k hk hkey hash hhash
  exact ⟨c, hcopies _ c ⟨_, _, _, rfl⟩ hc, hrest⟩

theorem congr (h : NodeInv ops st S) (hfiles : st'.files = st.files) (hlog : st'.oplog = st.oplog)
    (happ : st'.applied = st.applied) : NodeInv ops st' S := by
  refine ⟨⟨h.mem, hlog ▸ h.log, happ ▸ h.applied⟩, fun p hp => ?_, hfiles ▸ h.copies⟩
  exact settled_congr (h.rows p hp) (by rw [hfiles]) fun q c _ hc => by rw [hfiles, hc]

/-- An op above all handled ones: a local change, or an op that is applied. -/
theorem above (h : NodeInv ops st S) (hmem : op ∈ ops) (hop : op.Plain)
    (hpath : ¬ IsCopyName op.path) (hnormal : ∀ o ∈ ops, o.vv.Normal)
    (hlog : ∀ o, o ∈ st'.oplog ↔ o ∈ st.oplog ∨ o = op)
    (happ : ∀ i ∈ st'.applied, i ∈ st.applied ∨ i = op.opId)
    (hrow : st'.files.get? op.path = some (effectRow op op.path op.vv))
    (hframe : ∀ p, p ≠ op.path → st'.files.get? p = st.files.get? p)
    (hlt : ∀ o ∈ S, o.path = op.path → o.vv < op.vv) : NodeInv ops st' (S ++ [op]) := by
  have hcopy : ∀ q, IsCopyName q → q ≠ op.path := by
    rintro q hq rfl
    exact hpath hq
  refine ⟨h.toBooked.append hmem hlog happ, fun p hp => ?_, fun p r hp hr => ?_⟩
  · by_cases hpp : p = op.path
    · subst hpp
      rw [filter_append_self]
      refine ⟨fun hn => ?_, fun r hr => ?_⟩
      · rw [hrow] at hn
        cases hn
      · rw [hrow, Option.some.injEq] at hr
        subst hr
        have hlt' : ∀ o ∈ S.filter fun o => o.path = op.path, o.vv < op.vv := by
          intro o ho
          obtain ⟨ho, hop⟩ := List.mem_filter.1 ho
          exact hlt o ho (by simpa using hop)
        refine ⟨op, IsRowOf.of_lt hop (fun o ho => ?_) hlt', fun k hk hkey => ?_⟩
        · rcases List.mem_append.1 ho with ho | ho
          · exact hnormal o (h.mem o (List.mem_filter.1 ho).1)
          · exact List.mem_singleton.1 ho ▸ hnormal op hmem
        · rw [(maximalOps_append_of_lt hlt' k).1 hk] at hkey
          exact absurd rfl hkey
    · rw [filter_append_of_ne (Ne.symm hpp)]
      exact settled_congr (h.rows p hp) (hframe p hpp) fun q c hq hc => by
        rw [hframe q (hcopy q hq), hc]
  · rw [hframe p (hcopy p hp)] at hr
    exact h.copies p r hp hr

/-- An op at or below a handled one: a duplicate, or an op that is ignored. -/
theorem below (h : NodeInv ops st S) (hmem : op ∈ ops) (hnormal : ∀ o ∈ ops, o.vv.Normal)
    (hanti : ∀ o ∈ ops, ∀ o' ∈ ops, o.path = o'.path → o.vv ≤ o'.vv → o'.vv ≤ o.vv → o = o')
    (hlog : ∀ o, o ∈ st'.oplog ↔ o ∈ st.oplog ∨ o = op)
    (happ : ∀ i ∈ st'.applied, i ∈ st.applied ∨ i = op.opId)
    (hfiles : st'.files = st.files) {o : OpRecord} (ho : o ∈ S) (hop : o.path = op.path)
    (hle : op.vv ≤ o.vv) : NodeInv ops st' (S ++ [op]) := by
  refine ⟨h.toBooked.append hmem hlog happ, fun p hp => ?_, fun p r hp hr => ?_⟩
  · have hsame : Settled st' (S.filter fun o => o.path = p) p :=
      settled_congr (h.rows p hp) (by rw [hfiles]) fun q c _ hc => by rw [hfiles, hc]
    by_cases hpp : p = op.path
    · subst hpp
      rw [filter_append_self]
      have hin : ∀ x ∈ (S.filter fun o => o.path = op.path) ++ [op], x ∈ ops ∧ x.path = op.path := by
        intro x hx
        rcases List.mem_append.1 hx with hx | hx
        · obtain ⟨hx, hxp⟩ := List.mem_filter.1 hx
          exact ⟨h.mem x hx, by simpa using hxp⟩
        · rw [List.mem_singleton.1 hx]
          exact ⟨hmem, rfl⟩
      have hoS : o ∈ S.filter fun o => o.path = op.path := List.mem_filter.2 ⟨ho, by simpa using hop⟩
      refine ⟨fun hn => ?_, fun r hr => ?_⟩
      · rw [hsame.none hn] at hoS
        cases hoS
      · obtain ⟨w, hisrow, hkeep⟩ := hsame.some r hr
        have hanti' : ∀ x ∈ (S.filter fun o => o.path = op.path) ++ [op],
            ∀ y ∈ (S.filter fun o => o.path = op.path) ++ [op],
              x.vv ≤ y.vv → y.vv ≤ x.vv → x = y := fun x hx y hy =>
          hanti x (hin x hx).1 y (hin y hy).1 ((hin x hx).2.trans (hin y hy).2.symm)
        refine ⟨w, hisrow.of_le (fun x hx => hnormal x (hin x hx).1) hanti' hoS hle,
          fun k hk => ?_⟩
        exact hkeep k ((maximalOps_append_of_le hanti' hoS hle k).1 hk)
    · rw [filter_append_of_ne (Ne.symm hpp)]
      exact hsame
  · rw [hfiles] at hr
    exact h.copies p r hp hr

/-! ### A resolution -/

/-- Handled ops and the new one, and the candidates of its resolution, correspond. -/
structure Contend (S : List OpRecord) (op : OpRecord) (cs : List Version) : Prop where
  of : ∀ c ∈ cs, ∃ o ∈ (S.filter fun o => o.path = op.path) ++ [op], c.Of o
  cand : ∀ o ∈ (S.filter fun o => o.path = op.path) ++ [op], ∃ c ∈ cs, c.Of o

/-- The log explains the row, so only ops contend. -/
theorem contend (h : NodeInv ops st S) (hplain : ∀ o ∈ ops, o.Plain) (hmem : op ∈ ops)
    (hpath : ¬ IsCopyName op.path) {loc : FileRow} (hloc : st.loadRow op.path = some loc) :
    Contend S op (st.candidates op.path (opVersion op) loc) := by
  have hvv : loc.vv = mergeAll ((S.filter fun o => o.path = op.path).map opVersion) := by
    rw [← h.vvAt_eq hpath, Store.vvAt_eq (Store.loadRow_eq_some.1 hloc).1]
  have hof : ∀ c ∈ st.opsAsCandidates op.path,
      ∃ o ∈ S.filter fun o => o.path = op.path, c.Of o := by
    intro c hc
    obtain ⟨o, ho, haff, rfl⟩ := Store.mem_opsAsCandidates.1 hc
    have hoS := (h.log o).1 ho
    have hop := hplain o (h.mem o hoS)
    have hp : o.path = op.path := hop.affects_iff.1 haff
    exact ⟨o, List.mem_filter.2 ⟨hoS, by simpa using hp⟩, hp ▸ opAsCandidate_of hop⟩
  have hcand : ∀ o ∈ S.filter fun o => o.path = op.path,
      ∃ c ∈ st.opsAsCandidates op.path, c.Of o := by
    intro o ho
    obtain ⟨hoS, hp⟩ := List.mem_filter.1 ho
    have hp : o.path = op.path := by simpa using hp
    refine ⟨Store.opAsCandidate op.path o, Store.mem_opsAsCandidates.2
      ⟨o, (h.log o).2 hoS, .inl hp, rfl⟩, ?_⟩
    exact hp ▸ opAsCandidate_of (hplain o (h.mem o hoS))
  rw [Store.candidates_of_explained]
  · refine ⟨fun c hc => ?_, fun o ho => ?_⟩
    · rcases List.mem_append.1 hc with hc | hc
      · obtain ⟨o, ho, hco⟩ := hof c hc
        exact ⟨o, List.mem_append_left _ ho, hco⟩
      · rw [List.mem_singleton.1 hc]
        exact ⟨op, by simp, opVersion_of (hplain op hmem)⟩
    · rcases List.mem_append.1 ho with ho | ho
      · obtain ⟨c, hc, hco⟩ := hcand o ho
        exact ⟨c, List.mem_append_left _ hc, hco⟩
      · rw [List.mem_singleton.1 ho]
        exact ⟨opVersion op, by simp, opVersion_of (hplain op hmem)⟩
  · rw [hvv]
    refine mergeAll_opVersion_le fun o ho => ?_
    obtain ⟨c, hc, hco⟩ := hcand o ho
    rw [← hco.vv]
    exact le_mergeAll (List.mem_append_left _ hc)

/-- Two maximal ops are left where the new op is concurrent with the row. -/
theorem Contend.not_single {cs : List Version} (h : Contend S op cs)
    (hrow : ¬ op.vv ≤ mergeAll ((S.filter fun o => o.path = op.path).map opVersion))
    (hop : ¬ mergeAll ((S.filter fun o => o.path = op.path).map opVersion) ≤ op.vv) :
    ¬ Single ((S.filter fun o => o.path = op.path) ++ [op]) := by
  -- every op is below a maximal one
  have habove : ∀ o ∈ (S.filter fun o => o.path = op.path) ++ [op],
      ∃ k ∈ maximalOps ((S.filter fun o => o.path = op.path) ++ [op]), o.vv ≤ k.vv := by
    intro o ho
    obtain ⟨c, hc, hco⟩ := h.cand o ho
    obtain ⟨d, hd, hle⟩ := exists_ge_antichain hc
    obtain ⟨k, hk, hdk⟩ := h.of d (mem_of_mem_antichain hd)
    exact ⟨k, maximal_of_kept h.cand hd hk hdk, hco.vv ▸ hdk.vv ▸ hle⟩
  intro hsingle
  obtain ⟨k, hk, hle⟩ := habove op (by simp)
  obtain rfl : k = op := by
    rcases List.mem_append.1 (mem_maximalOps.1 hk).1 with hkS | hkop
    · exact absurd (hle.trans (mem_map_opVersion hkS)) hrow
    · exact List.mem_singleton.1 hkop
  refine hop (mergeAll_opVersion_le fun o ho => ?_)
  obtain ⟨k', hk', hle'⟩ := habove o (List.mem_append_left _ ho)
  rwa [hsingle k' hk' k hk] at hle'

theorem onlyCopies (h : NodeInv ops st S) : OnlyCopies st.lookupVersion := by
  intro cp e hcp hl
  obtain ⟨r, hr, rfl⟩ := Option.map_eq_some_iff.1 hl
  rw [Version.fromRow_vv, (h.copies cp r hcp hr).1]
  exact VersionVector.compare_eq_equal.2 ⟨le_rfl, le_rfl⟩

/-- There is a plan. -/
theorem planFor_isSome (h : NodeInv ops st S) {path : Path} (remote : Version)
    (hd : Decision.decide (st.loadFile path) remote.vv = .concurrent) :
    (st.planFor path remote).isSome :=
  Store.planFor_isSome h.onlyCopies remote hd

/-- An op that is resolved against all handled ones, and recorded. -/
theorem resolve (h : NodeInv ops st S) (hdig : DigestsApart ops) (hmem : op ∈ ops)
    (hplain : ∀ o ∈ ops, o.Plain) (hpath : ¬ IsCopyName op.path)
    (hnormal : ∀ o ∈ ops, o.vv.Normal)
    (hanti : ∀ o ∈ ops, ∀ o' ∈ ops, o.path = o'.path → o.vv ≤ o'.vv → o'.vv ≤ o.vv → o = o')
    {st₁ : Store} (hres : Store.Resolved st st₁ op.path (opVersion op))
    (hlog : ∀ o, o ∈ st'.oplog ↔ o ∈ st.oplog ∨ o = op)
    (happ : ∀ i ∈ st'.applied, i ∈ st.applied ∨ i = op.opId)
    (hfiles : st'.files = st₁.files) : NodeInv ops st' (S ++ [op]) := by
  obtain ⟨loc, winner, losers, copies, hloc, hrow₁, hop₁, hac, hwin, hplan, hcopies, hframe⟩ :=
    hres.spec
  rw [← hfiles] at hwin
  have hcont := h.contend hplain hmem hpath hloc
  set cs := st.candidates op.path (opVersion op) loc with hcs
  set T := (S.filter fun o => o.path = op.path) ++ [op] with hT
  have hin : ∀ x ∈ T, x ∈ ops ∧ x.path = op.path := by
    intro x hx
    rcases List.mem_append.1 hx with hx | hx
    · obtain ⟨hx, hxp⟩ := List.mem_filter.1 hx
      exact ⟨h.mem x hx, by simpa using hxp⟩
    · rw [List.mem_singleton.1 hx]
      exact ⟨hmem, rfl⟩
  have hcopyNe : ∀ q, IsCopyName q → q ≠ op.path := by
    rintro q hq rfl
    exact hpath hq
  -- the copies of the plan stand at free names
  obtain ⟨added, hplan', hadded, htaken⟩ := planCopies_of_copies h.onlyCopies op.path winner
    [winnerRow op.path cs (winner :: losers) winner] losers
  obtain rfl : copies = added := by
    rw [hplan', Option.some.injEq] at hplan
    exact (List.cons.inj hplan).2.symm
  have hkeep : ∀ q c, IsCopyName q → st.files.get? q = some c → st'.files.get? q = some c := by
    intro q c hq hc
    rw [hfiles, hframe q (hcopyNe q hq), hc]
    rintro r hr rfl
    have hfree := (hadded r hr).1
    rw [Store.lookupVersion_eq hc] at hfree
    cases hfree
  have hcopies' : ∀ p r, IsCopyName p → st'.files.get? p = some r → IsCopyOf ops p r := by
    intro p r hp hr
    by_cases hnew : ∃ r₀ ∈ copies, r₀.path = p
    · obtain ⟨r₀, hr₀, rfl⟩ := hnew
      rw [hfiles, (hcopies r₀ hr₀).2.2, Option.some.injEq] at hr
      obtain ⟨-, l, hl, -, hash, hhash, rfl⟩ := hadded r₀ hr₀
      obtain ⟨o, ho, hof⟩ := hcont.of l
        (mem_of_mem_antichain (hac ▸ List.mem_cons_of_mem _ hl))
      have hcontent : o.contentHash = some hash := hof.file.2.1.symm.trans hhash
      subst hr
      refine ⟨rfl, o, (hin o ho).1, hash, hcontent, ?_, hhash, ?_⟩
      · rw [(hin o ho).2, ← hof.file.2.2]
        rfl
      · rw [← hof.file.2.2]
        rfl
    · push Not at hnew
      rw [hfiles, hframe p (hcopyNe p hp) hnew] at hr
      exact h.copies p r hp hr
  refine ⟨h.toBooked.append hmem hlog happ, fun p hp => ?_, hcopies'⟩
  by_cases hpp : p = op.path
  · subst hpp
    rw [filter_append_self, ← hT]
    have hanti' : ∀ x ∈ T, ∀ y ∈ T, x.vv ≤ y.vv → y.vv ≤ x.vv → x = y := fun x hx y hy =>
      hanti x (hin x hx).1 y (hin y hy).1 ((hin x hx).2.trans (hin y hy).2.symm)
    have hvv : loc.vv = mergeAll ((S.filter fun o => o.path = op.path).map opVersion) := by
      rw [← h.vvAt_eq hpath, Store.vvAt_eq (Store.loadRow_eq_some.1 hloc).1]
    obtain ⟨w, hwof, hisrow⟩ := isRowOf_winnerRow (fun o ho => hnormal o (hin o ho).1)
      (fun o ho => hplain o (hin o ho).1) hanti' hcont.of hcont.cand
      (Contend.not_single hcont (hvv ▸ hrow₁) (hvv ▸ hop₁)) hac op.path
    refine ⟨fun hn => ?_, fun r hr => ?_⟩
    · rw [hwin] at hn
      cases hn
    · rw [hwin, Option.some.injEq] at hr
      subst hr
      refine ⟨w, hisrow, fun k hk hkey hash hhash => ?_⟩
      have hkT := (mem_maximalOps.1 hk).1
      obtain ⟨c, hc, hof⟩ := kept_of_maximal hcont.of hcont.cand hanti' hk
      have hcw : c.key ≠ winner.key := by
        rw [hof.key, hwof.key]
        exact hkey
      have hcl : c ∈ losers := by
        rw [hac] at hc
        rcases List.mem_cons.1 hc with rfl | hc
        · exact absurd rfl hcw
        · exact hc
      have hname : copyNameOf op.path hash c =
          copyPathFor op.path hash (Meta.namingHash k.metadata) := by
        rw [copyNameOf, hof.file.2.2]
      -- the name is taken now, by a copy of this content
      have hsome : ∃ e, st'.files.get? (copyPathFor op.path hash (Meta.namingHash k.metadata)) =
          some e := by
        rw [← hname]
        rcases htaken c hcl hash (hof.file.2.1.trans hhash) hcw with ⟨r, hr, hrp⟩ | hsome
        · rcases List.mem_cons.1 hr with rfl | hr
          · exact absurd hrp.symm (hcopyNe _ ⟨_, _, _, rfl⟩)
          · exact ⟨r.toRow, by rw [← hrp, hfiles, (hcopies r hr).2.2]⟩
        · obtain ⟨e, he⟩ := Option.isSome_iff_exists.1 hsome
          obtain ⟨row, hrow, -⟩ := Option.map_eq_some_iff.1 he
          exact ⟨row, hkeep _ row ⟨_, _, _, rfl⟩ hrow⟩
      obtain ⟨e, he⟩ := hsome
      have hcopy := hcopies' _ e ⟨_, _, _, rfl⟩ he
      rw [← (hin k hkT).2] at hcopy
      exact ⟨e, he, hcopy.content hdig (hin k hkT).1 hhash⟩
  · rw [filter_append_of_ne (Ne.symm hpp)]
    refine settled_congr (h.rows p hp) ?_ hkeep
    rw [hfiles, hframe p hpp]
    rintro r hr rfl
    exact hp (hcopies r hr).1.isCopyName

end NodeInv

end Replicore
