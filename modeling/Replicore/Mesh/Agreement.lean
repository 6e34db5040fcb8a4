import Replicore.Conflict.Winner
import Replicore.Lib.Maximal
import Replicore.Mesh.Causal

/-!
# Agreement of rows with equal vectors

No renames here.  What a row should show is determined by its vector: of the ops at its path that
the vector covers, those that no other such op is above, and of these the one of best rank
(`History.Shows`).  Then rows with equal vectors agree, on whatever nodes they are.

Writing, recording an op and taking over a row keep this.  A resolution keeps it when all its
candidates are ops.  But a row can be a candidate too, a row of another node or the local row where
the log does not explain it, and it contends with the rank of the version it shows even if the other
candidates bring an op that has superseded that version.  `History.ResolveOk` says that no such row
wins.
-/

namespace Replicore

theorem eq_of_getD_eq {α : Type} {x y : Option α} {d : α} (hx : x ≠ some d) (hy : y ≠ some d)
    (h : x.getD d = y.getD d) : x = y := by
  cases x with
  | none =>
    cases y with
    | none => rfl
    | some b => exact absurd (congrArg some h.symm) hy
  | some a =>
    cases y with
    | none => exact absurd (congrArg some h) hx
    | some b => exact congrArg some h

/-- An op as local writes and deletes make it. -/
structure OpRecord.Plain (o : OpRecord) : Prop where
  not_rename : o.opType ≠ .rename
  pathOld : o.pathOld = none
  uuid : o.uuid.isSome
  delete : o.opType = .delete → o.contentHash = none ∧ o.size = 0 ∧ o.metadata = none

theorem OpRecord.Plain.affects_iff {o : OpRecord} {p : Path} (h : o.Plain) :
    o.Affects p ↔ o.path = p := by
  simp [OpRecord.Affects, h.pathOld]

/-- The version is the file as the op leaves it. -/
def Version.SameFile (c : Version) (o : OpRecord) : Prop :=
  c.tombstone = decide (o.opType = .delete) ∧ c.contentHash = o.contentHash ∧
    c.metadata = o.metadata

section

variable [Blake3]

/-- The rank of an op's version. -/
def OpRecord.rank (o : OpRecord) : Rank := (opVersion o).rank

theorem Version.SameFile.key_eq {c : Version} {o : OpRecord} (h : c.SameFile o)
    (hc : c.metaHash = Meta.hashOf c.metadata) : c.key = (opVersion o).key := by
  obtain ⟨ht, hcontent, hmeta⟩ := h
  rw [Version.key, Version.key, hc, ht, hcontent, hmeta]
  rfl

/-- Among the ops `H` at a path, the version is what its vector says it should be. -/
structure Shows (H : Set OpRecord) (c : Version) : Prop where
  tidy : c.Tidy
  file : ∃ o ∈ H, c.SameFile o
  greatest : IsGreatest (OpRecord.rank '' maximalBelow H OpRecord.vv c.vv) c.rank

namespace Shows

variable {H : Set OpRecord} {c c' : Version} {o : OpRecord}

/-- Up to the causal equality of the vectors. -/
theorem congr (h : Shows H c) (hle : c.vv ≤ c'.vv) (hge : c'.vv ≤ c.vv)
    (hsame : { c.toRow with vv := c'.vv } = c'.toRow) (hmeta : c'.metaHash = c.metaHash) :
    Shows H c' := by
  obtain ⟨⟨hh, ht, hu⟩, ⟨o, ho, hfile⟩, hgreatest⟩ := h
  obtain ⟨⟨content, mode, size, tomb, vv, uuid, metadata⟩, metaHash⟩ := c
  obtain ⟨⟨content', mode', size', tomb', vv', uuid', metadata'⟩, metaHash'⟩ := c'
  simp only [Row.mk.injEq] at hsame
  obtain ⟨rfl, rfl, rfl, rfl, -, rfl, rfl⟩ := hsame
  obtain rfl : metaHash' = metaHash := hmeta
  refine ⟨⟨hh, ht, hu⟩, ⟨o, ho, hfile⟩, ?_⟩
  rw [← maximalBelow.congr hle hge]
  exact hgreatest

/-- The version of an op. -/
theorem of_op (ho : o ∈ H) (hanti : ∀ y ∈ H, y.vv ≤ o.vv → o.vv ≤ y.vv → y = o)
    (htidy : c.Tidy) (hfile : c.SameFile o) (huuid : c.uuid = o.uuid) (hle : c.vv ≤ o.vv)
    (hge : o.vv ≤ c.vv) : Shows H c := by
  refine ⟨htidy, ⟨o, ho, hfile⟩, ?_⟩
  rw [maximalBelow.congr hle hge, maximalBelow.self ho hanti, Set.image_singleton]
  have hrank : c.rank = o.rank := by
    rw [OpRecord.rank, Version.rank, Version.rank, hfile.key_eq htidy.metaHash, huuid]
    rfl
  rw [hrank]
  exact isGreatest_singleton

/-- An op that the vector does not cover does not matter. -/
theorem insert (h : Shows H c) {e : OpRecord} (he : ¬ e.vv ≤ c.vv) :
    Shows (Insert.insert e H) c := by
  refine ⟨h.tidy, ?_, ?_⟩
  · obtain ⟨o, ho, hfile⟩ := h.file
    exact ⟨o, .inr ho, hfile⟩
  · rw [maximalBelow.insert he]
    exact h.greatest

/-- A kept candidate that is an op is maximal among the ops the merged vector covers. -/
theorem rank_mem_of_op {cs : List Version}
    (hcover : ∀ x ∈ H, x.vv ≤ mergeAll cs → ∃ c ∈ cs, x.vv ≤ c.vv) (hc : c ∈ antichain cs)
    (ho : o ∈ H) (hvv : c.vv = o.vv) (hrank : c.rank = o.rank) :
    c.rank ∈ OpRecord.rank '' maximalBelow H OpRecord.vv (mergeAll cs) := by
  refine ⟨o, maximalBelow.mem_of_kept {k | k ∈ cs} (fun k => k.vv) ho ?_ hcover
    fun k hk => ?_, hrank.symm⟩
  · exact hvv ▸ le_mergeAll (mem_of_mem_antichain hc)
  · exact hvv ▸ not_lt_of_mem_antichain hc hk

/-- The winner's row, when the best rank among the kept candidates is that of a maximal op. -/
theorem winner {cs losers : List Version} {winner : Version} (path : Path)
    (hshows : ∀ c ∈ cs, Shows H c) (hac : antichain cs = winner :: losers)
    (hcover : ∀ x ∈ H, x.vv ≤ mergeAll cs → ∃ c ∈ cs, x.vv ≤ c.vv)
    (hbest : ∀ c ∈ antichain cs, (∀ k ∈ antichain cs, k.rank ≤ c.rank) →
      c.rank ∈ OpRecord.rank '' maximalBelow H OpRecord.vv (mergeAll cs)) :
    Shows H (Version.fromRow (winnerRow path cs (winner :: losers) winner).toRow) := by
  have hw : winner ∈ antichain cs := hac ▸ List.mem_cons_self
  have hwin := hshows winner (mem_of_mem_antichain hw)
  obtain ⟨⟨k₀, hk₀, hrank⟩, hle⟩ := rank_winnerRow path hac fun c hc => (hshows c hc).tidy
  refine ⟨⟨rfl, fun ht => ?_, ?_⟩, ?_, ?_⟩
  · exact if_pos ht
  · obtain ⟨u, hu, -⟩ := uuid_winnerRow path cs (hac ▸ hw) hwin.tidy.uuid
    exact Option.isSome_iff_exists.2 ⟨u, hu⟩
  · obtain ⟨o, ho, ht, hcontent, hmeta⟩ := hwin.file
    refine ⟨o, ho, ht, hcontent, ?_⟩
    rw [← hmeta]
    change (if winner.tombstone then none else winner.metadata) = winner.metadata
    split_ifs with ht'
    · exact (hwin.tidy.tombstone ht').symm
    · rfl
  · refine maximalBelow.isGreatest_of_kept {k | k ∈ antichain cs}
      (fun k => k.vv) Version.rank (fun k hk => ?_) (fun x hx hxV => ?_)
      (fun k hk x hx => ?_) hle ?_
    · exact le_mergeAll (mem_of_mem_antichain hk)
    · obtain ⟨c, hc, hxc⟩ := hcover x hx hxV
      obtain ⟨k, hk, hck⟩ := exists_ge_antichain hc
      exact ⟨k, hk, hxc.trans hck⟩
    · exact (hshows k (mem_of_mem_antichain hk)).greatest.2 ⟨x, hx, rfl⟩
    · rw [← hrank]
      exact hbest k₀ hk₀ fun k hk => hrank ▸ hle k hk

end Shows

/-! ### Versions of plain ops -/

section

variable {o : OpRecord}

/-- The row that a plain op leaves. -/
theorem OpRecord.Plain.effectRow (h : o.Plain) (vv : VersionVector) :
    (Version.fromRow (effectRow o o.path vv)).Tidy ∧
      (Version.fromRow (Replicore.effectRow o o.path vv)).SameFile o ∧
      (Version.fromRow (Replicore.effectRow o o.path vv)).uuid = o.uuid := by
  have hu := h.uuid
  rw [Replicore.effectRow, if_pos rfl]
  unfold Store.appliedRow
  cases hop : o.opType with
  | write => exact ⟨⟨rfl, by simp [Version.fromRow], hu⟩, ⟨by simp [Version.fromRow, hop], rfl, rfl⟩, rfl⟩
  | delete =>
    obtain ⟨hcontent, -, hmeta⟩ := h.delete hop
    exact ⟨⟨rfl, fun _ => rfl, hu⟩,
      ⟨by simp [Version.fromRow, hop], hcontent.symm, hmeta.symm⟩, rfl⟩
  | rename => exact absurd hop h.not_rename

/-- The version under which it contends when it arrives. -/
theorem OpRecord.Plain.opVersion (h : o.Plain) :
    (opVersion o).Tidy ∧ (Replicore.opVersion o).SameFile o := by
  refine ⟨⟨rfl, fun ht => ?_, h.uuid⟩, rfl, rfl, rfl⟩
  exact (h.delete (by simpa [Replicore.opVersion] using ht)).2.2

/-- The version under which it contends when it is in the log. -/
theorem OpRecord.Plain.opAsCandidate (h : o.Plain) :
    (Store.opAsCandidate o.path o).Tidy ∧ (Store.opAsCandidate o.path o).SameFile o := by
  by_cases hop : o.opType = .delete
  · obtain ⟨hcontent, -, hmeta⟩ := h.delete hop
    refine ⟨⟨rfl, fun _ => by simp [Store.opAsCandidate, hop], h.uuid⟩, ?_, ?_, ?_⟩ <;>
      simp [Store.opAsCandidate, hop, hcontent, hmeta]
  · refine ⟨⟨rfl, fun ht => ?_, h.uuid⟩, ?_, ?_, ?_⟩
    · simp [Store.opAsCandidate, hop] at ht
    all_goals simp [Store.opAsCandidate, hop]

theorem plain_localOp (n : NodeId) (st : Store) {change : LocalChange} (h : change.Ingested) :
    (Store.localOp n st change).Plain :=
  ⟨h.1, rfl, rfl, h.2.1⟩

end

namespace History

/-! ### The condition -/

/-- If the row `c` is kept and nothing kept outranks it, then an op with its key and uuid is among
the ops that the merged vector covers and that no other such op is above. -/
def WinnerCurrent (h : History) (p : Path) (cs : List Version) (c : Version) : Prop :=
  c ∈ antichain cs → (∀ k ∈ antichain cs, k.rank ≤ c.rank) →
    ∃ o ∈ h.opsAt p, o.vv ≤ mergeAll cs ∧ o.rank = c.rank ∧
      ∀ y ∈ h.opsAt p, y.vv ≤ mergeAll cs → ¬ o.vv < y.vv

instance (h : History) (p : Path) (cs : List Version) (c : Version) :
    Decidable (h.WinnerCurrent p cs c) :=
  decidable_of_iff (c ∈ antichain cs → (∀ k ∈ antichain cs, k.rank ≤ c.rank) →
      ∃ o ∈ h.mesh.ops, o.Affects p ∧ o.vv ≤ mergeAll cs ∧ o.rank = c.rank ∧
        ∀ y ∈ h.mesh.ops, y.Affects p → y.vv ≤ mergeAll cs → ¬ o.vv < y.vv) <| by
    simp only [WinnerCurrent, opsAt, Set.mem_ofPred_eq, and_assoc, and_imp]

/-- No resolution is won by a row whose version one of the other candidates has superseded. -/
def ResolveOk (h : History) : Act → Prop
  | .resolve n op atSource _ order => ∀ p remote loc, conflictOf op atSource = some (p, remote) →
      (h.mesh.stores n).loadRow p = some loc → ¬ IsCopyName p →
      Decision.decide ((h.mesh.stores n).loadFile p) remote.vv = .concurrent →
      h.WinnerCurrent p ((h.mesh.stores n).candidates p remote loc order)
        (Version.fromRow loc.toRow)
  | .settle n m p _ order => ∀ row loc, (h.mesh.stores m).loadRow p = some row →
      (h.mesh.stores n).loadRow p = some loc → ¬ IsCopyName p →
      Decision.decide ((h.mesh.stores n).loadFile p) row.vv = .concurrent →
      ∀ c ∈ [Version.fromRow loc.toRow, Version.fromRow row.toRow],
        h.WinnerCurrent p ((h.mesh.stores n).candidates p (Version.fromRow row.toRow) loc order) c
  | _ => True

/-- Writes and deletes only. -/
def NoRename (_ : History) : Act → Prop
  | .rename _ _ _ => False
  | _ => True

instance (h : History) : DecidablePred h.NoRename
  | .rename _ _ _ => .isFalse id
  | .append _ _ | .record _ _ _ | .resolve _ _ _ _ _ | .adopt _ _ _ | .settle _ _ _ _ _ =>
    .isTrue trivial

end History

/-! ### The invariant -/

/-- Every row outside the conflict-copy names shows what its vector says. -/
structure AgreeInv (nodes : Set NodeId) (h : History) : Prop where
  causal : CausalInv nodes h
  plain : ∀ o ∈ h.mesh.ops, o.Plain
  shows : ∀ n p r, ¬ IsCopyName p → (h.mesh.stores n).files.get? p = some r →
    Shows (h.opsAt p) (Version.fromRow r)

namespace AgreeInv

variable {nodes : Set NodeId} {h : History} {n : NodeId} {cmd : Command} {p : Path}
variable {src : Path → List OpRecord} {op : OpRecord}

theorem init : AgreeInv nodes {} where
  causal := CausalInv.init
  plain := by simp
  shows n p r _ hr := by cases hr

theorem path_eq (hinv : AgreeInv nodes h) (hop : op ∈ h.opsAt p) : op.path = p :=
  (hinv.plain op hop.1).affects_iff.1 hop.2

/-- The version of an op of the mesh shows what it should. -/
theorem shows_op (hinv : AgreeInv nodes h) (hop : op ∈ h.opsAt p) {c : Version} (htidy : c.Tidy)
    (hfile : c.SameFile op) (huuid : c.uuid = op.uuid) (hle : c.vv ≤ op.vv) (hge : op.vv ≤ c.vv) :
    Shows (h.opsAt p) c :=
  Shows.of_op hop (fun y hy => hinv.causal.antisymm p y hy op hop) htidy hfile huuid hle hge

/-- A step without a new op: it is enough to look at the rows that change. -/
theorem of_quiet (hinv : AgreeInv nodes h) (hcausal : CausalInv nodes (h.exec n cmd src))
    (hem : cmd.emitted n (h.mesh.stores n) = none)
    (hrows : ∀ p r, ¬ IsCopyName p → ((h.mesh.stores n).exec n cmd).files.get? p = some r →
      (h.mesh.stores n).files.get? p ≠ some r → Shows (h.opsAt p) (Version.fromRow r)) :
    AgreeInv nodes (h.exec n cmd src) := by
  have hops : (h.exec n cmd src).mesh.ops = h.mesh.ops := Mesh.exec_ops_of_none hem
  refine ⟨hcausal, hops ▸ hinv.plain, fun m p r hp hr => ?_⟩
  have hat : (h.exec n cmd src).opsAt p = h.opsAt p := by
    rw [History.opsAt, hops]
    rfl
  rw [hat]
  by_cases hm : m = n
  · subst hm
    rw [History.exec_store_self] at hr
    by_cases hold : (h.mesh.stores m).files.get? p = some r
    · exact hinv.shows m p r hp hold
    · exact hrows p r hp hr hold
  · rw [h.exec_store_of_ne hm] at hr
    exact hinv.shows m p r hp hr

theorem record (hinv : AgreeInv nodes h) (hop : op ∈ h.mesh.ops) {d : Decision}
    (hcausal : CausalInv nodes (h.step (.record n op d))) :
    AgreeInv nodes (h.step (.record n op d)) := by
  refine hinv.of_quiet hcausal rfl fun p r _ hr hold => ?_
  change ((h.mesh.stores n).exec n (.applyRemote op d)).files.get? p = some r at hr
  change (h.mesh.stores n).files.get? p ≠ some r at hold
  by_cases happ : op.opId ∈ (h.mesh.stores n).applied
  · simp only [Store.exec, Store.commit, Store.applyRemote_of_applied happ] at hr
    exact absurd hr hold
  · obtain ⟨e, st', hrun, -, -, -, -, hfiles⟩ :=
      Store.applyRemote_files (hinv.causal.wellFormed op hop) happ d
    simp only [Store.exec, Store.commit, hrun] at hr
    have heff : (h.mesh.stores n).TakesEffect op d p := by
      by_contra hnot
      rw [(hfiles p).2 hnot] at hr
      exact hold hr
    have haff : op.Affects p := OpRecord.affects_iff.2 (heff.1.imp And.left id)
    obtain rfl := hinv.path_eq ⟨hop, haff⟩
    rw [(hfiles _).1 heff, Option.some.injEq] at hr
    subst hr
    obtain ⟨htidy, hfile, huuid⟩ := (hinv.plain op hop).effectRow
      (((h.mesh.stores n).vvAt op.path).merge op.vv)
    refine hinv.shows_op ⟨hop, haff⟩ htidy hfile huuid ?_ ?_
    · rw [Version.fromRow_vv, effectRow_vv]
      exact VersionVector.merge_le (Store.vvAt_le_of_lt heff.2) le_rfl
    · rw [Version.fromRow_vv, effectRow_vv]
      exact VersionVector.le_merge_right _ _

theorem adopt (hinv : AgreeInv nodes h) {m : NodeId}
    (hcausal : CausalInv nodes (h.step (.adopt n m p))) : AgreeInv nodes (h.step (.adopt n m p)) := by
  cases hrow : (h.mesh.stores m).loadRow p with
  | none =>
    rw [show h.step (.adopt n m p) = h by simp [History.step, Act.command, hrow]]
    exact hinv
  | some row =>
    have hstep : h.step (.adopt n m p) =
        h.exec n (.reconcileUpsert row) ((Act.adopt n m p).brings h) := by
      simp [History.step, Act.command, hrow, Act.node]
    rw [hstep] at hcausal ⊢
    obtain ⟨hget, rfl⟩ := Store.loadRow_eq_some.1 hrow
    refine hinv.of_quiet hcausal rfl fun q r hq hr hold => ?_
    rcases Store.reconcileUpsert_files (h.mesh.stores n) row with heq | ⟨hlt, heq⟩
    · rw [Store.exec, heq] at hr
      exact absurd hr hold
    · rw [Store.exec, heq, Store.upsertFile_files, OrdMap.get?_insert] at hr
      split_ifs at hr with hqp
      · subst hqp
        cases hr
        refine (hinv.shows m row.path row.toRow hq hget).congr ?_ ?_ rfl rfl
        · exact VersionVector.le_merge_right _ _
        · exact VersionVector.merge_le (Store.vvAt_le_of_lt hlt) le_rfl
      · exact absurd hr hold

/-! ### Resolutions -/

/-- A committed resolution, given what is known of its remote side. -/
theorem resolved (hinv : AgreeInv nodes h) {st' : Store} {remote : Version} {order : List Hash}
    (hres : Store.Resolved (h.mesh.stores n) st' p remote order) (hp : ¬ IsCopyName p)
    (hstands : ∃ I, h.StandsFor nodes p remote.vv I) (hshows : Shows (h.opsAt p) remote)
    (hremote : (∃ o ∈ h.opsAt p, remote.vv = o.vv ∧ remote.rank = o.rank) ∨
      ∀ loc, (h.mesh.stores n).loadRow p = some loc →
        h.WinnerCurrent p ((h.mesh.stores n).candidates p remote loc order) remote)
    (hlocal : ∀ loc, (h.mesh.stores n).loadRow p = some loc →
      h.WinnerCurrent p ((h.mesh.stores n).candidates p remote loc order)
        (Version.fromRow loc.toRow)) :
    ∀ r, st'.files.get? p = some r → Shows (h.opsAt p) (Version.fromRow r) := by
  obtain ⟨loc, winner, losers, copies, hloc, -, -, hac, hrow, -⟩ := hres.spec
  have hget := (Store.loadRow_eq_some.1 hloc).1
  set cs := (h.mesh.stores n).candidates p remote loc order with hcs
  have hlog : ∀ o ∈ (h.mesh.stores n).oplog, o.Affects p → o ∈ h.opsAt p :=
    fun o ho hop => ⟨hinv.causal.oplog n o ho, hop⟩
  have hst : ∀ c ∈ cs, ∃ I, h.StandsFor nodes p c.vv I := by
    intro c hc
    rcases Store.mem_candidates hc with ⟨o, ho, hop, rfl⟩ | rfl | rfl
    · exact ⟨_, hinv.causal.ops o (hinv.causal.oplog n o ho) p hop⟩
    · exact hstands
    · exact ⟨_, by rw [Version.fromRow_vv, ← Store.vvAt_eq hget]; exact hinv.causal.rows n p⟩
  have hcover := fun x hx hle => hinv.causal.exists_ge_candidate hst (x := x) hx hle
  intro r hr
  rw [hrow, Option.some.injEq] at hr
  subst hr
  refine Shows.winner p (fun c hc => ?_) hac hcover fun c hc htop => ?_
  · rcases Store.mem_candidates hc with ⟨o, ho, hop, rfl⟩ | rfl | rfl
    · obtain rfl := hinv.path_eq (hlog o ho hop)
      obtain ⟨htidy, hfile⟩ := (hinv.plain o (hlog o ho hop).1).opAsCandidate
      exact hinv.shows_op (hlog o ho hop) htidy hfile rfl le_rfl le_rfl
    · exact hshows
    · exact hinv.shows n p loc.toRow hp hget
  · rcases Store.mem_candidates (mem_of_mem_antichain hc) with ⟨o, ho, hop, rfl⟩ | rfl | rfl
    · obtain rfl := hinv.path_eq (hlog o ho hop)
      obtain ⟨htidy, hfile⟩ := (hinv.plain o (hlog o ho hop).1).opAsCandidate
      refine Shows.rank_mem_of_op hcover hc (hlog o ho hop) rfl ?_
      rw [OpRecord.rank, Version.rank, Version.rank, hfile.key_eq htidy.metaHash]
      rfl
    · rcases hremote with ⟨o, ho, hvv, hrank⟩ | hremote
      · exact Shows.rank_mem_of_op hcover hc ho hvv hrank
      · obtain ⟨o, ho, hle, hrank, hmax⟩ := hremote loc hloc hc htop
        exact ⟨o, ⟨ho, hle, hmax⟩, hrank⟩
    · obtain ⟨o, ho, hle, hrank, hmax⟩ := hlocal loc hloc hc htop
      exact ⟨o, ⟨ho, hle, hmax⟩, hrank⟩

/-- A resolution changes one row outside the conflict-copy names. -/
theorem resolveRows (hinv : AgreeInv nodes h) {remote : Version} {staged : List PlannedRow}
    {order : List Hash}
    (hcausal : CausalInv nodes (h.exec n (.resolveRows p remote staged order) src))
    (hrow : ¬ IsCopyName p → ∀ st', Store.Resolved (h.mesh.stores n) st' p remote order →
      ∀ r, st'.files.get? p = some r → Shows (h.opsAt p) (Version.fromRow r)) :
    AgreeInv nodes (h.exec n (.resolveRows p remote staged order) src) := by
  refine hinv.of_quiet hcausal rfl fun q r hq hr hold => ?_
  rcases Store.exec_resolveRows n (h.mesh.stores n) p remote staged order with heq | hres
  · rw [heq] at hr
    exact absurd hr hold
  · by_cases hqp : q = p
    · subst hqp
      exact hrow hq _ hres r hr
    · rcases hres.vvAt_other hqp with hsame | ⟨hcp, -⟩
      · rw [hsame] at hr
        exact absurd hr hold
      · exact absurd hcp hq

/-- What a resolution would be decided on. -/
theorem decide_of_resolved {st st' : Store} {remote : Version} {order : List Hash}
    (hres : Store.Resolved st st' p remote order) :
    Decision.decide (st.loadFile p) remote.vv = .concurrent := by
  obtain ⟨loc, -, -, -, hloc, hn₁, hn₂, -⟩ := hres.spec
  exact Store.decide_eq_concurrent.2 ⟨loc.toRow, (Store.loadRow_eq_some.1 hloc).1, hn₁, hn₂⟩

theorem resolve (hinv : AgreeInv nodes h) (hop : op ∈ h.mesh.ops) {atSource : Bool}
    {staged : List PlannedRow} {order : List Hash}
    (hok : h.ResolveOk (.resolve n op atSource staged order))
    (hcausal : CausalInv nodes (h.step (.resolve n op atSource staged order))) :
    AgreeInv nodes (h.step (.resolve n op atSource staged order)) := by
  have hplain := hinv.plain op hop
  cases hc : conflictOf op atSource with
  | none =>
    rw [show h.step (.resolve n op atSource staged order) = h by
      simp [History.step, Act.command, hc]]
    exact hinv
  | some c =>
    obtain ⟨p, remote⟩ := c
    obtain ⟨rfl, rfl⟩ : op.path = p ∧ opVersion op = remote := by
      -- a plain op has no source
      unfold conflictOf at hc
      rw [hplain.pathOld] at hc
      split_ifs at hc
      · cases hc
      · cases hc
        exact ⟨rfl, rfl⟩
    have hstep : h.step (.resolve n op atSource staged order) =
        h.exec n (.resolveRows op.path (opVersion op) staged order)
          ((Act.resolve n op atSource staged order).brings h) := by
      simp [History.step, Act.command, hc, Act.node]
    rw [hstep] at hcausal ⊢
    have hat : op ∈ h.opsAt op.path := ⟨hop, .inl rfl⟩
    obtain ⟨htidy, hfile⟩ := hplain.opVersion
    refine hinv.resolveRows hcausal fun hp st' hres => ?_
    exact hinv.resolved hres hp ⟨_, hinv.causal.ops op hop op.path (.inl rfl)⟩
      (hinv.shows_op hat htidy hfile rfl le_rfl le_rfl) (.inl ⟨op, hat, rfl, rfl⟩)
      fun loc hloc => hok op.path _ loc hc hloc hp (decide_of_resolved hres)

theorem settle (hinv : AgreeInv nodes h) {m : NodeId} {staged : List PlannedRow} {order : List Hash}
    (hok : h.ResolveOk (.settle n m p staged order))
    (hcausal : CausalInv nodes (h.step (.settle n m p staged order))) :
    AgreeInv nodes (h.step (.settle n m p staged order)) := by
  cases hrow : (h.mesh.stores m).loadRow p with
  | none =>
    rw [show h.step (.settle n m p staged order) = h by simp [History.step, Act.command, hrow]]
    exact hinv
  | some row =>
    have hstep : h.step (.settle n m p staged order) =
        h.exec n (.resolveRows p (Version.fromRow row.toRow) staged order)
          ((Act.settle n m p staged order).brings h) := by
      simp [History.step, Act.command, hrow, Act.node]
    rw [hstep] at hcausal ⊢
    have hget := (Store.loadRow_eq_some.1 hrow).1
    refine hinv.resolveRows hcausal fun hp st' hres => ?_
    have hcur := fun loc hloc => hok row loc hrow hloc hp (decide_of_resolved hres)
    refine hinv.resolved hres hp ⟨{o | o ∈ h.inc m p}, ?_⟩ (hinv.shows m p row.toRow hp hget)
      (.inr fun loc hloc => hcur loc hloc _ (by simp)) fun loc hloc => hcur loc hloc _ (by simp)
    rw [Version.fromRow_vv, ← Store.vvAt_eq hget]
    exact hinv.causal.rows m p

/-! ### A new op -/

theorem append (hinv : AgreeInv nodes h) (hn : n ∈ nodes)
    (hmax : (h.mesh.stores n).CountersBelowMax) {change : LocalChange} (hing : change.Ingested)
    (hcausal : CausalInv nodes (h.step (.append n change))) :
    AgreeInv nodes (h.step (.append n change)) := by
  change CausalInv nodes (h.exec n (.appendLocal change) fun _ => []) at hcausal
  change AgreeInv nodes (h.exec n (.appendLocal change) fun _ => [])
  rcases CausalInv.emission_or_quiet hmax (.inl ⟨change, rfl⟩) (by rintro _ ⟨⟩; exact hing) with
    ⟨op, e⟩ | ⟨hem, -, hfiles⟩
  · have hop : op.Plain := by
      rw [Store.emitted_appendLocal e.emitted]
      exact plain_localOp n _ hing
    have hmem : ∀ o, o ∈ (h.exec n (.appendLocal change) fun _ => []).mesh.ops ↔
        o ∈ h.mesh.ops ∨ o = op := h.mem_exec_ops_of_some e.emitted
    refine ⟨hcausal, fun o ho => ?_, fun m p r hp hr => ?_⟩
    · rcases (hmem o).1 ho with ho | rfl
      · exact hinv.plain o ho
      · exact hop
    · by_cases haff : op.Affects p
      · by_cases hm : m = n
        · subst hm
          obtain rfl := hop.affects_iff.1 haff
          rw [History.exec_store_self, e.emits.effect _ haff, Option.some.injEq] at hr
          subst hr
          obtain ⟨htidy, hfile, huuid⟩ := hop.effectRow op.vv
          have hat : op ∈ (h.exec m (.appendLocal change) fun _ => []).opsAt op.path :=
            ⟨(hmem op).2 (.inr rfl), haff⟩
          refine Shows.of_op hat (fun y hy => hcausal.antisymm _ y hy op hat) htidy hfile huuid ?_ ?_
          · rw [Version.fromRow_vv, effectRow_vv]
          · rw [Version.fromRow_vv, effectRow_vv]
        · rw [h.exec_store_of_ne hm] at hr
          rw [e.opsAt, if_pos haff]
          refine (hinv.shows m p r hp hr).insert ?_
          rw [Version.fromRow_vv, ← Store.vvAt_eq hr]
          exact e.not_le hn haff (hinv.causal.rows m p)
      · rw [e.opsAt, if_neg haff]
        by_cases hm : m = n
        · subst hm
          rw [History.exec_store_self, e.emits.frame p haff] at hr
          exact hinv.shows m p r hp hr
        · rw [h.exec_store_of_ne hm] at hr
          exact hinv.shows m p r hp hr
  · refine hinv.of_quiet hcausal hem fun p r _ hr hold => ?_
    rw [hfiles] at hr
    exact absurd hr hold

/-! ### Runs -/

theorem step (hinv : AgreeInv nodes h) {act : Act} (hall : h.Allowed nodes act)
    (hno : h.NoRename act) (hok : h.ResolveOk act)
    (hcausal : CausalInv nodes (h.step act)) : AgreeInv nodes (h.step act) := by
  cases act with
  | append n change => exact hinv.append hall.1 hall.2.1 hall.2.2 hcausal
  | rename n old new => exact hno.elim
  | record n op d => exact hinv.record hall.2.2 hcausal
  | resolve n op atSource staged order => exact hinv.resolve hall.2.2 hok hcausal
  | adopt n m p => exact hinv.adopt hcausal
  | settle n m p staged order => exact hinv.settle hok hcausal

end AgreeInv

namespace History

variable {nodes : Set NodeId} {h : History}

theorem agreeInv_reach (hr : (((runs nodes).restrict NoRename).restrict ResolveOk).Reach {} h)
    (hsyn : h.SyntheticApart nodes) : AgreeInv nodes h := by
  refine hr.invariant (I := fun h => h.SyntheticApart nodes → AgreeInv nodes h)
    (fun _ => AgreeInv.init) (fun h act h' _ ih hstep hsyn => ?_) hsyn
  obtain ⟨hok, hno, hall, rfl⟩ := hstep
  have hinv := ih (hsyn.of_step hall)
  refine hinv.step hall hno hok (hinv.causal.step hall ?_ hsyn)
  cases act with
  | rename n old new => exact hno.elim
  | append | record | resolve | adopt | settle => trivial

/-- No two contents or metadata of the run have colliding digests, and none has the digest that
stands for absence. -/
structure HashesApart (ops : List OpRecord) : Prop where
  content : ∀ o ∈ ops, o.contentHash ≠ some 0
  metadata : ∀ o ∈ ops, ∀ o' ∈ ops, Meta.hashOf o.metadata = Meta.hashOf o'.metadata →
    o.metadata = o'.metadata

theorem HashesApart.mono {ops ops' : List OpRecord} (h : HashesApart ops') (hs : ops ⊆ ops') :
    HashesApart ops where
  content o ho := h.content o (hs ho)
  metadata o ho o' ho' := h.metadata o (hs ho) o' (hs ho')

/-- Versions of ops with equal keys are the same file. -/
theorem HashesApart.eq_of_key {ops : List OpRecord} (hhash : HashesApart ops) {c c' : Version}
    (hc : c.Tidy) (hc' : c'.Tidy) (hfile : ∃ o ∈ ops, c.SameFile o)
    (hfile' : ∃ o ∈ ops, c'.SameFile o) (hkey : c.key = c'.key) :
    c.tombstone = c'.tombstone ∧ c.contentHash = c'.contentHash ∧ c.metadata = c'.metadata := by
  obtain ⟨o, ho, -, hcontent, hmeta⟩ := hfile
  obtain ⟨o', ho', -, hcontent', hmeta'⟩ := hfile'
  simp only [Version.key, EmbeddingLike.apply_eq_iff_eq, Prod.mk.injEq] at hkey
  obtain ⟨hkind, hcont, hmh⟩ := hkey
  refine ⟨?_, ?_, ?_⟩
  · revert hkind
    cases c.tombstone <;> cases c'.tombstone <;> simp
  · rw [hcontent, hcontent'] at hcont ⊢
    exact eq_of_getD_eq (hhash.content o ho) (hhash.content o' ho') hcont
  · rw [hc.metaHash, hc'.metaHash] at hmh
    rw [hmeta, hmeta'] at hmh ⊢
    exact hhash.metadata o ho o' ho' hmh

/-- Versions of equal rank have the same identity. -/
theorem uuid_eq_of_rank {c c' : Version} (hc : c.Tidy) (hc' : c'.Tidy) (hrank : c.rank = c'.rank) :
    c.key = c'.key ∧ c.uuid = c'.uuid := by
  obtain ⟨u, hu⟩ := Option.isSome_iff_exists.1 hc.uuid
  obtain ⟨u', hu'⟩ := Option.isSome_iff_exists.1 hc'.uuid
  rw [Version.rank, Version.rank, hu, hu'] at hrank
  simp only [Option.getD_some, EmbeddingLike.apply_eq_iff_eq, Prod.mk.injEq] at hrank
  exact ⟨hrank.1, by rw [hu, hu', hrank.2]⟩

/-- **Cross-node agreement, while no superseded row wins.**  In every state of every run of writes,
deletes, op deliveries and anti-entropy in which no resolution is won by a row whose version the
other candidates have superseded: at every path that is no conflict-copy name, rows of any two nodes
with equal vectors agree on tombstone, content, metadata and uuid. -/
theorem equal_vectors_agree (nodes : Set NodeId) {h : History}
    (hr : (((runs nodes).restrict NoRename).restrict ResolveOk).Reach {} h)
    (hsyn : h.SyntheticApart nodes) (hhash : HashesApart h.mesh.ops) {n m : NodeId} {p : Path}
    (hp : ¬ IsCopyName p) {r r' : Row} (hn : (h.mesh.stores n).files.get? p = some r)
    (hm : (h.mesh.stores m).files.get? p = some r') (hvv : r.vv.compare r'.vv = .equal) :
    r.tombstone = r'.tombstone ∧ r.contentHash = r'.contentHash ∧ r.metadata = r'.metadata ∧
      r.uuid = r'.uuid := by
  have hinv := agreeInv_reach hr hsyn
  have hs := hinv.shows n p r hp hn
  have hs' := hinv.shows m p r' hp hm
  obtain ⟨hle, hge⟩ := VersionVector.compare_eq_equal.1 hvv
  -- equal vectors cover the same ops, and what is best among these is determined
  have hgreatest := hs.greatest
  rw [Version.fromRow_vv, maximalBelow.congr hle hge] at hgreatest
  have hrank := hgreatest.unique hs'.greatest
  have hfile : ∀ {c : Version}, (∃ o ∈ h.opsAt p, c.SameFile o) → ∃ o ∈ h.mesh.ops, c.SameFile o :=
    fun ⟨o, ho, hof⟩ => ⟨o, ho.1, hof⟩
  obtain ⟨hkey, huuid⟩ := uuid_eq_of_rank hs.tidy hs'.tidy hrank
  obtain ⟨htomb, hcontent, hmeta⟩ :=
    hhash.eq_of_key hs.tidy hs'.tidy (hfile hs.file) (hfile hs'.file) hkey
  exact ⟨htomb, hcontent, hmeta, huuid⟩

end History

end

namespace History

section Example

attribute [local instance] Blake3.polynomial

/-- A write of `f` with the given content. -/
def writeContent (content : Hash) : LocalChange := { Store.writeF with contentHash := some content }

/-- How a node handles an op it finds concurrent: resolve at its path, and record it. -/
def handleConcurrent (h : History) (n : NodeId) (op : OpRecord) : List Act :=
  [.resolve n op false (((h.mesh.stores n).planFor op.path (opVersion op)).getD []) [],
    .record n op .concurrent]

/-- Content 9, written by node 1. -/
def write9 : OpRecord := Store.localOp 1 {} (writeContent 9)

/-- Content 5, written by node 2 at the same time. -/
def write5 : OpRecord := Store.localOp 2 {} (writeContent 5)

/-- Content 3, written by node 1 over its content 9. -/
def write3 : OpRecord :=
  Store.localOp 1 (Store.exec 1 {} (.appendLocal (writeContent 9))) (writeContent 3)

/-- Node 3 gets both writes of `f`. -/
def bothWrites : List Act :=
  let acts := [.append 1 (writeContent 9), .append 2 (writeContent 5), .record 3 write9 .apply]
  acts ++ handleConcurrent (acts.foldl step {}) 3 write5

/-- Node 4 gets them in the other order. -/
def bothOrders : List Act :=
  let acts := bothWrites ++ [.record 4 write5 .apply]
  acts ++ handleConcurrent (acts.foldl step {}) 4 write9

theorem not_isCopyName_f : ¬ IsCopyName ['f'] := by
  intro h
  have hlen := h.marker_infix.length_le
  revert hlen
  decide

theorem bothOrders_reach : (((runs {n | n ∈ [1, 2, 3, 4]}).restrict NoRename).restrict
    ResolveOk).Reach {} (bothOrders.foldl step {}) := by
  rw [runs, Lts.restrict_ofFun, Lts.restrict_ofFun]
  have hresolve : ∀ {g : History} {n : NodeId} {op : OpRecord} {staged : List PlannedRow},
      (∀ loc, (g.mesh.stores n).loadRow op.path = some loc → g.WinnerCurrent op.path
        ((g.mesh.stores n).candidates op.path (opVersion op) loc) (Version.fromRow loc.toRow)) →
      g.ResolveOk (.resolve n op false staged []) := by
    rintro g n op staged hcur p remote loc ⟨⟩ hloc - -
    exact hcur loc hloc
  refine Lts.Reach.init.of_foldl ⟨⟨trivial, trivial, by decide +kernel⟩,
    ⟨trivial, trivial, by decide +kernel⟩, ⟨trivial, trivial, by decide +kernel⟩,
    ⟨hresolve ?_, trivial, by decide +kernel⟩, ⟨trivial, trivial, by decide +kernel⟩,
    ⟨trivial, trivial, by decide +kernel⟩, ⟨hresolve ?_, trivial, by decide +kernel⟩,
    ⟨trivial, trivial, by decide +kernel⟩, trivial⟩
  · decide +kernel
  · decide +kernel

/-- Nodes 3 and 4 resolve the two writes in opposite orders: one vector, one content. -/
theorem equal_vectors_agree_both_orders :
    let h := bothOrders.foldl step {}
    ∃ r r', (h.mesh.stores 3).files.get? ['f'] = some r ∧
      (h.mesh.stores 4).files.get? ['f'] = some r' ∧ r.vv = r'.vv ∧
      r.contentHash = some 9 ∧ r'.contentHash = some 9 := by
  intro h
  have hsyn : h.SyntheticApart {n | n ∈ [1, 2, 3, 4]} := syntheticApart_foldl (by decide +kernel)
  have hhash : HashesApart h.mesh.ops := ⟨by decide +kernel, by decide +kernel⟩
  obtain ⟨r, hr⟩ := Option.isSome_iff_exists.1
    (show ((h.mesh.stores 3).files.get? ['f']).isSome by decide +kernel)
  obtain ⟨r', hr'⟩ := Option.isSome_iff_exists.1
    (show ((h.mesh.stores 4).files.get? ['f']).isSome by decide +kernel)
  have hvv : ∀ x ∈ (h.mesh.stores 3).files.get? ['f'], ∀ y ∈ (h.mesh.stores 4).files.get? ['f'],
      x.vv = y.vv ∧ x.contentHash = some 9 := by decide +kernel
  obtain ⟨hsame, hcontent⟩ := hvv r hr r' hr'
  have hequal : r.vv.compare r'.vv = .equal :=
    VersionVector.compare_eq_equal.2 (hsame ▸ ⟨le_rfl, le_rfl⟩)
  obtain ⟨-, hagree, -⟩ := equal_vectors_agree {n | n ∈ [1, 2, 3, 4]} bothOrders_reach hsyn hhash
    not_isCopyName_f hr hr' hequal
  exact ⟨r, r', hr, hr', hsame, hcontent, hagree ▸ hcontent⟩

/-- Node 4 takes over node 3's row instead; then node 1 writes again, and nodes 4 and 3 get that. -/
def supersededRow : List Act :=
  let acts := bothWrites ++ [.adopt 4 3 ['f'], .append 1 (writeContent 3)]
  let acts := acts ++ handleConcurrent (acts.foldl step {}) 4 write3
  acts ++ handleConcurrent (acts.foldl step {}) 3 write3

/-- Node 4's row contends for content 9, which content 3 has superseded, and wins.  Node 3, which
has the ops, is left with content 5 under the same vector. -/
theorem superseded_row_wins :
    ∃ h, ((runs {n | n ∈ [1, 2, 3, 4]}).restrict NoRename).Reach {} h ∧
      h.SyntheticApart {n | n ∈ [1, 2, 3, 4]} ∧ HashesApart h.mesh.ops ∧ ¬ IsCopyName ['f'] ∧
      ∃ r r', (h.mesh.stores 3).files.get? ['f'] = some r ∧
        (h.mesh.stores 4).files.get? ['f'] = some r' ∧ r.vv = r'.vv ∧
        r.contentHash = some 5 ∧ r'.contentHash = some 9 := by
  refine ⟨supersededRow.foldl step {}, ?_, syntheticApart_foldl (by decide +kernel),
    ⟨by decide +kernel, by decide +kernel⟩, not_isCopyName_f, ?_⟩
  · rw [runs, Lts.restrict_ofFun]
    exact Lts.Reach.init.of_foldl (by decide +kernel)
  · obtain ⟨r, hr⟩ := Option.isSome_iff_exists.1
      (show (((supersededRow.foldl step {}).mesh.stores 3).files.get? ['f']).isSome by
        decide +kernel)
    obtain ⟨r', hr'⟩ := Option.isSome_iff_exists.1
      (show (((supersededRow.foldl step {}).mesh.stores 4).files.get? ['f']).isSome by
        decide +kernel)
    have hrows : ∀ x ∈ ((supersededRow.foldl step {}).mesh.stores 3).files.get? ['f'],
        ∀ y ∈ ((supersededRow.foldl step {}).mesh.stores 4).files.get? ['f'],
          x.vv = y.vv ∧ x.contentHash = some 5 ∧ y.contentHash = some 9 := by decide +kernel
    exact ⟨r, r', hr, hr', hrows r hr r' hr'⟩

end Example

end History

end Replicore
