import Replicore.Store.Effects

/-!
# What a committed resolution leaves

A resolution that commits writes the winner's row at its path and copy rows at conflict-copy names;
every other row stays.  `Store.Resolved` collects what later proofs need of one.
-/

namespace Replicore

namespace Store

/-- The rows of a plan, committed: each is at its path, and no other path has changed. -/
theorem foldl_upsertFile_get? (st : Store) {plan : List PlannedRow}
    (hnd : (plan.map (·.path)).Nodup) :
    (∀ r ∈ plan, (plan.foldl upsertFile st).files.get? r.path = some r.toRow) ∧
      ∀ q, (∀ r ∈ plan, r.path ≠ q) →
        (plan.foldl upsertFile st).files.get? q = st.files.get? q := by
  constructor
  · intro r hr
    rw [foldl_upsertFile_files]
    exact OrdMap.get?_upsertAll_of_mem (by simpa [Function.comp_def] using hnd)
      (List.mem_map_of_mem (f := fun r : FileRow => (r.path, r.toRow)) hr)
  · intro q hq
    rw [foldl_upsertFile_files, OrdMap.get?_upsertAll_of_notMem]
    simpa [Function.comp_def] using hq

section

variable [Blake3]

/-- The plan that a resolution would commit now. -/
def planFor (st : Store) (path : Path) (remote : Version) (order : List Hash := []) :
    Option (List PlannedRow) :=
  (st.loadRow path).bind fun localRow =>
    planCandidates path (st.candidates path remote localRow order) st.lookupVersion

/-- A resolution of `path` against `remote` was committed, from `st` to `st'`. -/
structure Resolved (st st' : Store) (path : Path) (remote : Version) (order : List Hash := []) :
    Prop where
  oplog : st'.oplog = st.oplog
  applied : st'.applied = st.applied
  spec : ∃ localRow winner losers copies, st.loadRow path = some localRow ∧
    ¬ remote.vv ≤ localRow.vv ∧ ¬ localRow.vv ≤ remote.vv ∧
    antichain (st.candidates path remote localRow order) = winner :: losers ∧
    st'.files.get? path = some (winnerRow path (st.candidates path remote localRow order)
      (winner :: losers) winner).toRow ∧
    planCopies st.lookupVersion path winner
      [winnerRow path (st.candidates path remote localRow order) (winner :: losers) winner] losers =
        some (winnerRow path (st.candidates path remote localRow order) (winner :: losers) winner ::
          copies) ∧
    (∀ r ∈ copies, CopyOk st.lookupVersion r ∧ r.path ≠ path ∧
      st'.files.get? r.path = some r.toRow) ∧
    ∀ q, q ≠ path → (∀ r ∈ copies, r.path ≠ q) → st'.files.get? q = st.files.get? q

/-- Committing the plan. -/
theorem resolved_of_plan {st : Store} {path : Path} {remote : Version} {plan : List PlannedRow}
    {order : List Hash}
    (hconc : Decision.decide (st.loadFile path) remote.vv = .concurrent)
    (hplan : st.planFor path remote order = some plan) :
    Resolved st (plan.foldl upsertFile st) path remote order := by
  refine ⟨foldl_upsertFile_oplog _ _, foldl_upsertFile_applied _ _, ?_⟩
  obtain ⟨localRow, hloc, hplan⟩ := Option.bind_eq_some_iff.1 hplan
  obtain ⟨winner, losers, copies, hac, rfl, hcopies, hnd⟩ := planCandidates_spec hplan
  obtain ⟨r₀, hr₀, hn₁, hn₂⟩ := decide_eq_concurrent.1 hconc
  rw [(loadRow_eq_some.1 hloc).1] at hr₀
  cases hr₀
  have hnd' := hnd
  rw [List.map_cons, List.nodup_cons] at hnd'
  obtain ⟨hrows, hframe⟩ := foldl_upsertFile_get? st hnd
  refine ⟨localRow, winner, losers, copies, hloc, hn₁, hn₂, hac, hrows _ List.mem_cons_self, ?_,
    fun r hr => ⟨hcopies r hr, fun heq => ?_, hrows r (List.mem_cons_of_mem _ hr)⟩,
    fun q hq hqc => hframe q (List.forall_mem_cons.2 ⟨Ne.symm hq, hqc⟩)⟩
  · rw [planCandidates, hac] at hplan
    exact hplan
  · exact hnd'.1 (List.mem_map.2 ⟨r, hr, heq⟩)

/-- A `resolveRows` command changes nothing, or commits the plan. -/
theorem exec_resolveRows (n : NodeId) (st : Store) (path : Path) (remote : Version)
    (staged : List PlannedRow) (order : List Hash) :
    st.exec n (.resolveRows path remote staged order) = st ∨
      Resolved st (st.exec n (.resolveRows path remote staged order)) path remote order := by
  cases h : st.resolveRows path remote staged order with
  | error e => exact .inl (by simp [exec, commit, h])
  | ok x =>
    obtain ⟨out, st'⟩ := x
    have hexec : st.exec n (.resolveRows path remote staged order) = st' := by
      simp [exec, commit, h]
    rw [hexec]
    rcases resolveRows_cases h with ⟨-, rfl⟩ | ⟨-, hconc, localRow, hloc, hplan, rfl⟩
    · exact .inl rfl
    · exact .inr (resolved_of_plan hconc (Option.bind_eq_some_iff.2 ⟨localRow, hloc, hplan⟩))

/-- The current row is no candidate when the ops and the remote side explain it. -/
theorem candidates_of_explained {st : Store} {path : Path} {remote : Version} {localRow : FileRow}
    {order : List Hash} (h : localRow.vv ≤ mergeAll (st.opsAsCandidates path order ++ [remote])) :
    st.candidates path remote localRow order = st.opsAsCandidates path order ++ [remote] := by
  unfold candidates
  dsimp only
  split
  · rfl
  · rfl
  · rename_i hdom heq
    by_cases hge : mergeAll (st.opsAsCandidates path order ++ [remote]) ≤ localRow.vv
    · exact absurd (VersionVector.compare_eq_equal.2 ⟨hge, h⟩) heq
    · exact absurd (VersionVector.compare_eq_dominates.2 (lt_iff_le_not_ge.2 ⟨h, hge⟩)) hdom

theorem mem_opsAsCandidates {st : Store} {path : Path} {order : List Hash} {c : Version} :
    c ∈ st.opsAsCandidates path order ↔
      ∃ o ∈ st.oplog, o.Affects path ∧ c = opAsCandidate path o := by
  simp only [opsAsCandidates, List.mem_map, List.mem_filter, mem_scanOps, decide_eq_true_eq,
    eq_comm (a := c), and_assoc]

/-- At the path, the vector becomes the merge of all candidates' vectors. -/
theorem Resolved.vvAt_path {st st' : Store} {path : Path} {remote : Version} {order : List Hash}
    (h : Resolved st st' path remote order) :
    ∃ localRow, st.loadRow path = some localRow ∧
      st'.vvAt path = mergeAll (st.candidates path remote localRow order) := by
  obtain ⟨localRow, winner, losers, copies, hloc, -, -, -, hrow, -⟩ := h.spec
  exact ⟨localRow, hloc, vvAt_eq hrow⟩

/-- At another path the row stays, or it is a conflict-copy name that has a row now: there only the
synthetic component of the name can change. -/
theorem Resolved.vvAt_other {st st' : Store} {path : Path} {remote : Version} {order : List Hash}
    (h : Resolved st st' path remote order) {q : Path} (hq : q ≠ path) :
    st'.files.get? q = st.files.get? q ∨
      IsCopyName q ∧ (st'.files.get? q).isSome ∧ st.vvAt q ≤ st'.vvAt q ∧
        ∀ a, a ≠ copyOrigin q → (st'.vvAt q).get a = (st.vvAt q).get a := by
  obtain ⟨localRow, winner, losers, copies, -, -, -, -, -, -, hcopies, hframe⟩ := h.spec
  by_cases hcp : ∃ r ∈ copies, r.path = q
  · obtain ⟨r, hr, rfl⟩ := hcp
    obtain ⟨hok, -, hget⟩ := hcopies r hr
    refine .inr ⟨hok.isCopyName, by rw [hget]; rfl, ?_, fun a ha => ?_⟩
    · rw [vvAt_eq hget]
      cases he : st.files.get? r.path with
      | none => rw [vvAt_eq_new he]; exact VersionVector.new_le _
      | some e => rw [vvAt_eq he]; exact (hok.above _ (lookupVersion_eq he)).le
    · rw [vvAt_eq hget, hok.others a ha, vvAt, lookupVersion]
      cases st.files.get? r.path <;> rfl
  · push Not at hcp
    exact .inl (hframe q hq hcp)

/-- A candidate of a resolution is the version of an op of the log, the remote version, or the
current row. -/
theorem mem_candidates {st : Store} {path : Path} {remote : Version} {localRow : FileRow}
    {order : List Hash} {c : Version} (h : c ∈ st.candidates path remote localRow order) :
    (∃ o ∈ st.oplog, o.Affects path ∧ c = opAsCandidate path o) ∨ c = remote ∨
      c = Version.fromRow localRow.toRow := by
  have hops : ∀ c ∈ st.opsAsCandidates path order ++ [remote],
      (∃ o ∈ st.oplog, o.Affects path ∧ c = opAsCandidate path o) ∨ c = remote ∨
        c = Version.fromRow localRow.toRow := by
    intro c hc
    rcases List.mem_append.1 hc with hc | hc
    · exact .inl (mem_opsAsCandidates.1 hc)
    · exact .inr (.inl (List.mem_singleton.1 hc))
  unfold candidates at h
  dsimp only at h
  split at h
  · exact hops c h
  · exact hops c h
  · rcases List.mem_append.1 h with h | h
    · exact hops c h
    · exact .inr (.inr (List.mem_singleton.1 h))

theorem op_mem_candidates {st : Store} {path : Path} (remote : Version) (localRow : FileRow)
    (order : List Hash) {o : OpRecord} (ho : o ∈ st.oplog) (hp : o.Affects path) :
    opAsCandidate path o ∈ st.candidates path remote localRow order := by
  have hmem : opAsCandidate path o ∈ st.opsAsCandidates path order ++ [remote] :=
    List.mem_append_left _ (mem_opsAsCandidates.2 ⟨o, ho, hp, rfl⟩)
  unfold candidates
  dsimp only
  split
  · exact hmem
  · exact hmem
  · exact List.mem_append_left _ hmem

/-! ### The outcomes -/

/-- What a resolution does, by the plan of the moment. -/
theorem resolveRows_eq (st : Store) (path : Path) (remote : Version) (staged : List PlannedRow)
    (order : List Hash) : st.resolveRows path remote staged order = .ok (
      if Decision.decide (st.loadFile path) remote.vv ≠ .concurrent then
        (.notConcurrent (Decision.decide (st.loadFile path) remote.vv), st)
      else match st.planFor path remote order with
        | none => (.unresolvable, st)
        | some plan =>
          if plan ≠ staged then (.stale plan, st) else (.resolved, plan.foldl upsertFile st)) := by
  unfold resolveRows planFor
  dsimp only
  split_ifs with hd
  · rfl
  · -- a concurrent decision comes from a row
    obtain ⟨r, hr, -⟩ := decide_eq_concurrent.1 (not_not.1 hd)
    have hloc : st.loadRow path = some { r with path } := loadRow_eq_some.2 ⟨hr, rfl⟩
    rw [hloc, Option.bind_some]
    dsimp only
    cases planCandidates path (st.candidates path remote { r with path } order)
        st.lookupVersion with
    | none => rfl
    | some plan =>
      dsimp only
      split_ifs <;> rfl

/-- At the path, the committed row is above the one it replaces and has taken in the remote side. -/
theorem Resolved.row_above {st st' : Store} {path : Path} {remote : Version} {order : List Hash}
    (h : Resolved st st' path remote order) :
    ∃ old new, st.files.get? path = some old ∧ st'.files.get? path = some new ∧
      old.vv < new.vv ∧ remote.vv ≤ new.vv := by
  obtain ⟨localRow, winner, losers, copies, hloc, hnot, -, -, hrow, -⟩ := h.spec
  have hremote : remote.vv ≤ mergeAll (st.candidates path remote localRow order) :=
    le_mergeAll (remote_mem_candidates st path remote localRow order)
  refine ⟨localRow.toRow, _, (loadRow_eq_some.1 hloc).1, hrow, ?_, hremote⟩
  refine lt_iff_le_not_ge.2
    ⟨row_le_mergeAll_candidates st path remote localRow order, fun hge => ?_⟩
  exact hnot (hremote.trans hge)

theorem nodup_planFor {st : Store} {path : Path} {remote : Version} {order : List Hash}
    {plan : List PlannedRow} (h : st.planFor path remote order = some plan) :
    (plan.map (·.path)).Nodup := by
  obtain ⟨localRow, -, hplan⟩ := Option.bind_eq_some_iff.1 h
  obtain ⟨winner, losers, copies, -, rfl, -, hnd⟩ := planCandidates_spec hplan
  exact hnd

/-- **A resolution commits exactly the current plan, or nothing.**  In every state, for every path,
remote version, staged rows and order of the op history: the call returns, and unless it resolves,
the store is as before.  If it resolves, the staged rows are the plan of this state, each of them is
now at its path and no other row has changed; only the `files` table has changed, the row at the
path is strictly above the old one and at or above the remote vector, so that the remote version is
ignored from then on and a further call has nothing to resolve.  The plan of a stale outcome, staged
in the same state, resolves. -/
theorem resolveRows_commits_plan_or_nothing (st : Store) (path : Path) (remote : Version)
    (staged : List PlannedRow) (order : List Hash) :
    ∃ out st', st.resolveRows path remote staged order = .ok (out, st') ∧
      (out ≠ .resolved → st' = st) ∧ st' = { st with files := st'.files } ∧
      (out = .resolved → st.planFor path remote order = some staged ∧
        st' = staged.foldl upsertFile st ∧
        (∀ r ∈ staged, st'.files.get? r.path = some r.toRow) ∧
        (∀ q, (∀ r ∈ staged, r.path ≠ q) → st'.files.get? q = st.files.get? q) ∧
        (∃ old new, st.files.get? path = some old ∧ st'.files.get? path = some new ∧
          old.vv < new.vv ∧ remote.vv ≤ new.vv) ∧
        Decision.decide (st'.loadFile path) remote.vv = .ignore ∧
        ∀ again order', st'.resolveRows path remote again order' =
          .ok (.notConcurrent .ignore, st')) ∧
      ∀ plan, out = .stale plan →
        ∃ st'', st.resolveRows path remote plan order = .ok (.resolved, st'') := by
  by_cases hd : Decision.decide (st.loadFile path) remote.vv = .concurrent
  · cases hplan : st.planFor path remote order with
    | none =>
      refine ⟨.unresolvable, st, ?_, fun _ => rfl, rfl, by simp, by simp⟩
      simp [resolveRows_eq, hd, hplan]
    | some plan =>
      have hcommit : st.resolveRows path remote plan order =
          .ok (.resolved, plan.foldl upsertFile st) := by
        simp [resolveRows_eq, hd, hplan]
      by_cases hstaged : plan = staged
      · subst hstaged
        obtain ⟨old, new, hold, hnew, hlt, hle⟩ := (resolved_of_plan hd hplan).row_above
        have hign : Decision.decide ((plan.foldl upsertFile st).loadFile path) remote.vv = .ignore :=
          decide_eq_ignore.2 ⟨new, hnew, hle⟩
        obtain ⟨hrows, hframe⟩ := foldl_upsertFile_get? st (nodup_planFor hplan)
        refine ⟨.resolved, plan.foldl upsertFile st, hcommit, by simp, foldl_upsertFile_eq plan st,
          fun _ => ⟨rfl, rfl, hrows, hframe, ⟨old, new, hold, hnew, hlt, hle⟩, hign,
            fun again order' => ?_⟩, by simp⟩
        simp [resolveRows_eq, hign]
      · refine ⟨.stale plan, st, ?_, fun _ => rfl, rfl, by simp, ?_⟩
        · simp [resolveRows_eq, hd, hplan, hstaged]
        · rintro _ ⟨⟩
          exact ⟨_, hcommit⟩
  · refine ⟨.notConcurrent (Decision.decide (st.loadFile path) remote.vv), st, ?_, fun _ => rfl, rfl,
      by simp, by simp⟩
    simp [resolveRows_eq, hd]

end

section Example

attribute [local instance] Blake3.polynomial

/-- Node 1 has written `f`. -/
def writtenF : Store := exec 1 {} (.appendLocal writeF)

/-- The version of node 2's write of `f`. -/
def foreignVersion : Version := opAsCandidate ['f'] foreignF

/-- The plan for the two. -/
def planF : List PlannedRow := (writtenF.planFor ['f'] foreignVersion).getD []

/-- Once the plan is committed, node 2's content is at the path and node 1's at a copy name. -/
theorem resolveRows_commits_plan_or_nothing_copy :
    ∃ winner copy st', writtenF.resolveRows ['f'] foreignVersion [winner, copy] [] =
        .ok (.resolved, st') ∧ winner.path = ['f'] ∧ copy.path ≠ ['f'] ∧
      (st'.files.get? winner.path).map (·.contentHash) = some (some 6) ∧
      (st'.files.get? copy.path).map (·.contentHash) = some (some 5) := by
  obtain ⟨winner, copy, hplan⟩ := List.length_eq_two.1 (show planF.length = 2 by decide +kernel)
  have hpaths : planF.map (fun r => (decide (r.path = ['f']), r.contentHash)) =
      [(true, some 6), (false, some 5)] := by decide +kernel
  have hresolved : (writtenF.resolveRows ['f'] foreignVersion planF []).toOption.map Prod.fst =
      some .resolved := by decide +kernel
  obtain ⟨out, st', hrun, -, -, hcommit, -⟩ :=
    resolveRows_commits_plan_or_nothing writtenF ['f'] foreignVersion planF []
  rw [hrun] at hresolved
  cases hresolved
  obtain ⟨-, -, hrows, -⟩ := hcommit rfl
  rw [hplan] at hrun hrows hpaths
  simp only [List.map_cons, List.map_nil, List.cons.injEq, Prod.mk.injEq, decide_eq_true_eq,
    decide_eq_false_iff_not, and_true] at hpaths
  obtain ⟨⟨hwinner, hcontent⟩, hcopy, hcontent'⟩ := hpaths
  refine ⟨winner, copy, st', hrun, hwinner, hcopy, ?_, ?_⟩
  · rw [hrows winner (by simp), Option.map_some, hcontent]
  · rw [hrows copy (by simp), Option.map_some, hcontent']

end Example

end Store

end Replicore
