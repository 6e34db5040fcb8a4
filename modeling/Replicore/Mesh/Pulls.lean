import Replicore.Mesh.Agreement
import Replicore.Mesh.Normal
import Replicore.Replica.CopyRows

/-!
# Two pulls

Node A takes in every row of node B, and B then every row of A (`Replica.reconcileFrom`).  The
second pull resolves nothing: A's rows are at or above B's by then, so B takes over what is above
and keeps what is equal.  What remains is whether rows with equal vectors are equal, and there the
only rows to look at are the conflict copies that A derives on its way: a copy is not replaced by
B's row at its name when that has an equal vector.

`Replica.Pull C r rows` says that every row is taken in in a state that meets `C`.  The pair
converges exactly if the copies fit in all of them (`Replica.pulls_converge_iff`).
-/

namespace Replicore

/-- Every row is at or below the other store's row at its path. -/
def Store.Below (st other : Store) : Prop :=
  ∀ p x, st.files.get? p = some x → ∃ y, other.files.get? p = some y ∧ x.vv ≤ y.vv

/-- No row of a store that is above is concurrent. -/
theorem Store.Below.not_concurrent {st other : Store} {row : FileRow} (h : st.Below other)
    (hrow : row ∈ other.allFiles) :
    Decision.decide (st.loadFile row.path) row.vv ≠ .concurrent := by
  intro hd
  obtain ⟨x, hx, -, hnot⟩ := Store.decide_eq_concurrent.1 hd
  obtain ⟨y, hy, hle⟩ := h row.path x hx
  rw [Store.mem_allFiles.1 hrow, Option.some.injEq] at hy
  exact hnot (hy ▸ hle)

/-- Rows of the two stores with equal vectors are equal. -/
def Store.Fit (other st : Store) : Prop :=
  ∀ p x b, st.files.get? p = some x → other.files.get? p = some b → x.vv ≤ b.vv → b.vv ≤ x.vv → x = b

theorem Store.fit_iff {other st : Store} : other.Fit st ↔ ∀ e ∈ st.files.entries,
    ∀ b ∈ other.files.get? e.1, e.2.vv ≤ b.vv → b.vv ≤ e.2.vv → e.2 = b :=
  ⟨fun h e he b hb => h e.1 e.2 b (OrdMap.mem_entries.1 he) hb,
    fun h p x b hx hb => h (p, x) (OrdMap.mem_entries.2 hx) b hb⟩

instance (other st : Store) : Decidable (other.Fit st) := decidable_of_iff _ Store.fit_iff.symm

section

variable [Blake3]

namespace Store

/-- If the row is concurrent with the one here, there is a plan. -/
def Resolvable (st : Store) (row : FileRow) : Prop :=
  Decision.decide (st.loadFile row.path) row.vv = .concurrent →
    (st.planFor row.path (Version.fromRow row.toRow)).isSome

/-- If the row is concurrent with the one here, the copies planned for it fit those of the other
store: one that has the same vector as the other's row at its name is that row. -/
def PlanFits (other st : Store) (row : FileRow) : Prop :=
  Decision.decide (st.loadFile row.path) row.vv = .concurrent →
    ∀ plan, st.planFor row.path (Version.fromRow row.toRow) = some plan →
      ∀ c ∈ plan, c.path ≠ row.path → ∀ b, other.files.get? c.path = some b →
        c.vv.compare b.vv = .equal → c.toRow = b

instance (st : Store) (row : FileRow) : Decidable (st.Resolvable row) :=
  inferInstanceAs (Decidable (_ → _))

instance (other st : Store) (row : FileRow) : Decidable (other.PlanFits st row) :=
  inferInstanceAs (Decidable (_ → ∀ plan, _ = some plan → ∀ c ∈ plan, _ → ∀ b, _ = some b → _ → _))

/-- What a committed plan leaves. -/
theorem planFor_cases {st : Store} {path : Path} {remote : Version} {plan : List PlannedRow}
    (hconc : Decision.decide (st.loadFile path) remote.vv = .concurrent)
    (hplan : st.planFor path remote = some plan) :
    (∀ c ∈ plan, (plan.foldl upsertFile st).files.get? c.path = some c.toRow) ∧
    (∀ p, (∀ c ∈ plan, c.path ≠ p) → (plan.foldl upsertFile st).files.get? p = st.files.get? p) ∧
    (∃ c ∈ plan, c.path = path) ∧
    (∀ c ∈ plan, c.path = path → remote.vv < c.vv) ∧
    ∀ c ∈ plan, c.path ≠ path → copyVv c.path ≤ c.vv ∧
      ∀ r, st.files.get? c.path = some r → ¬ copyVv c.path ≤ r.vv := by
  obtain ⟨loc, hloc, hcand⟩ := Option.bind_eq_some_iff.1 hplan
  obtain ⟨winner, losers, copies, hac, rfl, hcopies, hnd⟩ := planCandidates_spec hcand
  rw [planCandidates, hac] at hcand
  have hplaced := planCopies_placed hcand
  refine ⟨fun c hc => ?_, fun p hp => ?_, ⟨_, List.mem_cons_self, rfl⟩, fun c hc hcp => ?_,
    fun c hc hcp => ?_⟩
  · rw [foldl_upsertFile_files]
    exact OrdMap.get?_upsertAll_of_mem (by simpa [Function.comp_def] using hnd)
      (List.mem_map_of_mem (f := fun r : FileRow => (r.path, r.toRow)) hc)
  · rw [foldl_upsertFile_files, OrdMap.get?_upsertAll_of_notMem]
    rw [List.map_map]
    intro hmem
    obtain ⟨c, hc, hcp⟩ := List.mem_map.1 hmem
    exact hp c hc hcp
  · -- only the winner stands at the path, and it has taken in both sides
    rcases List.mem_cons.1 hc with rfl | hc
    · obtain ⟨r, hr, -, hnot⟩ := decide_eq_concurrent.1 hconc
      rw [(loadRow_eq_some.1 hloc).1, Option.some.injEq] at hr
      refine lt_iff_le_not_ge.2
        ⟨le_mergeAll (remote_mem_candidates st path remote loc _), fun hge => ?_⟩
      exact hnot (hr ▸ (row_le_mergeAll_candidates st path remote loc _).trans hge)
    · rw [List.map_cons, List.nodup_cons] at hnd
      exact absurd (List.mem_map.2 ⟨c, hc, hcp⟩) hnd.1
  · rcases List.mem_cons.1 hc with rfl | hc
    · exact absurd rfl hcp
    · exact ⟨(hcopies c hc).synthetic, fun r hr => (hplaced c hc).not_le (lookupVersion_eq hr)⟩

end Store

namespace Replica

/-- Every row of the list is taken in in a state that meets `C`. -/
def Pull (C : Store → FileRow → Prop) : Replica → List FileRow → Prop
  | _, [] => True
  | r, row :: rows => C r.store row ∧ ∀ r', r.reconcileRow row = .ok r' → Pull C r' rows

instance Pull.decidable (C : Store → FileRow → Prop) [∀ st row, Decidable (C st row)] :
    ∀ r rows, Decidable (Pull C r rows)
  | _, [] => .isTrue trivial
  | r, row :: rows =>
    match hrun : r.reconcileRow row with
    | .ok r' =>
      have := Pull.decidable C r' rows
      decidable_of_iff (C r.store row ∧ Pull C r' rows) (by simp [Pull, hrun])
    | .error _ => decidable_of_iff (C r.store row) (by simp [Pull, hrun])

/-- The two have the same table, and a further pull in either direction changes nothing. -/
def Converged (r r' : Replica) : Prop :=
  r.store.files = r'.store.files ∧ r.reconcileFrom r'.store.allFiles = .ok r ∧
    r'.reconcileFrom r.store.allFiles = .ok r'

theorem resolveRounds_of_none {st : Store} {path : Path} {remote : Version}
    (hd : Decision.decide (st.loadFile path) remote.vv = .concurrent)
    (hplan : st.planFor path remote = none) : resolveRounds path remote 5 st [] = .ok (false, st) := by
  obtain ⟨r, hr, -⟩ := Store.decide_eq_concurrent.1 hd
  have hloc : st.loadRow path = some { r with path } := Store.loadRow_eq_some.2 ⟨hr, rfl⟩
  rw [Store.planFor, hloc, Option.bind_some] at hplan
  have hrow : st.resolveRows path remote [] = .ok (.unresolvable, st) := by
    simp only [Store.resolveRows, hd, ne_eq, not_true_eq_false, if_false, hloc, hplan]
  simp only [resolveRounds, hrow]

/-- The three ways in which a row is taken in. -/
theorem reconcileRow_cases (r : Replica) (row : FileRow) :
    (Decision.decide (r.store.loadFile row.path) row.vv = .ignore ∧ r.reconcileRow row = .ok r) ∨
    (Decision.decide (r.store.loadFile row.path) row.vv = .apply ∧
      ∃ r', r.reconcileRow row = .ok r' ∧ r'.store =
        r.store.upsertFile { row with vv := (r.store.vvAt row.path).merge row.vv }) ∨
    (Decision.decide (r.store.loadFile row.path) row.vv = .concurrent ∧
      ∃ r', r.reconcileRow row = .ok r' ∧
        r'.store = ((r.store.planFor row.path (Version.fromRow row.toRow)).getD []).foldl
          Store.upsertFile r.store) := by
  cases hd : Decision.decide (r.store.loadFile row.path) row.vv with
  | ignore => exact .inl ⟨rfl, by simp [reconcileRow, hd]⟩
  | apply =>
    refine .inr (.inl ⟨rfl, ?_⟩)
    simp only [reconcileRow, hd, Store.reconcileUpsert, if_true]
    refine ⟨_, rfl, ?_⟩
    rw [setFs_store, Store.mergedVv_eq]
  | concurrent =>
    refine .inr (.inr ⟨rfl, ?_⟩)
    simp only [reconcileRow, hd, resolveConflict]
    cases hplan : r.store.planFor row.path (Version.fromRow row.toRow) with
    | none =>
      rw [resolveRounds_of_none hd hplan]
      exact ⟨_, rfl, rfl⟩
    | some plan =>
      rw [resolveRounds_of_plan hd hplan]
      exact ⟨_, rfl, (mirrorRows_store _ _).1⟩
  | quarantined => exact absurd hd (Decision.decide_ne_quarantined _ _)

theorem reconcileRow_ok (r : Replica) (row : FileRow) : ∃ r', r.reconcileRow row = .ok r' := by
  rcases reconcileRow_cases r row with ⟨-, h⟩ | ⟨-, r', h, -⟩ | ⟨-, r', h, -⟩
  · exact ⟨r, h⟩
  · exact ⟨r', h⟩
  · exact ⟨r', h⟩

theorem reconcileFrom_ok (r : Replica) (rows : List FileRow) :
    ∃ r', r.reconcileFrom rows = .ok r' := by
  induction rows generalizing r with
  | nil => exact ⟨r, rfl⟩
  | cons row rows ih =>
    obtain ⟨r₁, h₁⟩ := reconcileRow_ok r row
    obtain ⟨r', h'⟩ := ih r₁
    exact ⟨r', by rw [reconcileFrom, List.foldlM_cons, h₁]; exact h'⟩

/-- Rows that are not above change nothing. -/
theorem reconcileFrom_of_ignore (r : Replica) {rows : List FileRow}
    (h : ∀ row ∈ rows, Decision.decide (r.store.loadFile row.path) row.vv = .ignore) :
    r.reconcileFrom rows = .ok r := by
  induction rows with
  | nil => rfl
  | cons row rows ih =>
    have hrow : r.reconcileRow row = .ok r := by simp [reconcileRow, h row List.mem_cons_self]
    rw [reconcileFrom, List.foldlM_cons, hrow]
    exact ih fun x hx => h x (List.mem_cons_of_mem _ hx)

/-- A table that has the rows already stays as it is. -/
theorem reconcileFrom_self (r : Replica) {rows : List FileRow}
    (h : ∀ row ∈ rows, r.store.files.get? row.path = some row.toRow) :
    r.reconcileFrom rows = .ok r :=
  reconcileFrom_of_ignore r fun row hrow => Store.decide_eq_ignore.2 ⟨_, h row hrow, le_rfl⟩

/-- What a pull leaves. -/
def pulled (r : Replica) (rows : List FileRow) : Replica := (r.reconcileFrom rows).toOption.getD r

theorem reconcileFrom_eq_pulled (r : Replica) (rows : List FileRow) :
    r.reconcileFrom rows = .ok (r.pulled rows) := by
  obtain ⟨r', hrun⟩ := reconcileFrom_ok r rows
  simp [pulled, hrun, Except.toOption]

/-! ### The first pull -/

/-- A copy that does not fit. -/
def Misfit (other st : Store) : Prop :=
  ∃ p x b, st.files.get? p = some x ∧ other.files.get? p = some b ∧ x.vv ≤ b.vv ∧ b.vv ≤ x.vv ∧
    x ≠ b ∧ copyVv p ≤ x.vv

variable {r r' : Replica} {row : FileRow} {other : Store}

theorem rowsGrow_reconcileRow (h : r.reconcileRow row = .ok r') :
    Store.RowsGrow (fun _ => True) r.store r'.store := by
  rcases reconcileRow_cases r row with ⟨-, hrun⟩ | ⟨hd, r₁, hrun, hst⟩ | ⟨hd, -⟩
  · rw [hrun] at h
    cases h
    exact Store.RowsGrow.of_files_eq rfl
  · rw [hrun] at h
    cases h
    rw [hst]
    refine Store.RowsGrow.upsert _ fun x hx => ⟨?_, trivial⟩
    exact Store.lt_merge_of_lt (Store.decide_eq_apply.1 hd) hx
  · simp only [reconcileRow, hd] at h
    exact rowsGrow_resolveConflict h

/-- After its turn, a row has been taken in. -/
theorem taken_reconcileRow (hres : r.store.Resolvable row) (h : r.reconcileRow row = .ok r') :
    ∃ x, r'.store.files.get? row.path = some x ∧ row.vv ≤ x.vv := by
  rcases reconcileRow_cases r row with ⟨hd, hrun⟩ | ⟨hd, r₁, hrun, hst⟩ | ⟨hd, r₁, hrun, hst⟩ <;>
    rw [hrun] at h <;> cases h
  · exact Store.decide_eq_ignore.1 hd
  · rw [hst, Store.upsertFile_files, OrdMap.get?_insert_self]
    exact ⟨_, rfl, VersionVector.le_merge_right _ _⟩
  · obtain ⟨plan, hplan⟩ := Option.isSome_iff_exists.1 (hres hd)
    obtain ⟨hget, -, ⟨c, hc, hcp⟩, hlt, -⟩ := Store.planFor_cases hd hplan
    rw [hst, hplan, Option.getD_some, ← hcp]
    exact ⟨_, hget c hc, (hlt c hc hcp).le⟩

theorem normal_reconcileRow (hn : r.store.AllNormal) (hrow : row.vv.Normal)
    (h : r.reconcileRow row = .ok r') : r'.store.AllNormal := by
  rcases reconcileRow_cases r row with ⟨-, hrun⟩ | ⟨hd, r₁, hrun, hst⟩ | ⟨hd, -⟩
  · rw [hrun] at h
    cases h
    exact hn
  · rw [hrun] at h
    cases h
    have hup := hn.reconcileUpsert hrow
    simp only [Store.reconcileUpsert, hd, if_true, Store.mergedVv_eq] at hup
    rwa [hst]
  · simp only [reconcileRow, hd] at h
    rcases resolveConflict_cases h with hsame | hres
    · rwa [hsame]
    · exact hn.resolved hrow hres

/-- A row is taken in, and the copies planned for it fit. -/
theorem fit_reconcileRow (hn : r.store.AllNormal) (hrow : row ∈ other.allFiles)
    (hnrow : row.vv.Normal) (hfit : other.Fit r.store) (hplan : other.PlanFits r.store row)
    (h : r.reconcileRow row = .ok r') : other.Fit r'.store := by
  have hmem := Store.mem_allFiles.1 hrow
  rcases reconcileRow_cases r row with ⟨-, hrun⟩ | ⟨hd, r₁, hrun, hst⟩ | ⟨hd, r₁, hrun, hst⟩ <;>
    rw [hrun] at h <;> cases h
  · exact hfit
  · intro p x b hx hb hle hge
    rw [hst, Store.upsertFile_files, OrdMap.get?_insert] at hx
    split_ifs at hx with hp
    · -- it is the other's row now
      subst hp
      rw [hmem, Option.some.injEq] at hb
      have hvv := (hn.vvAt row.path).merge_eq_right hnrow
        (Store.vvAt_le_of_lt (Store.decide_eq_apply.1 hd))
      rw [← hb, ← Option.some.inj hx, hvv]
    · exact hfit p x b hx hb hle hge
  · cases hp : r.store.planFor row.path (Version.fromRow row.toRow) with
    | none =>
      rw [hp] at hst
      rw [hst]
      exact hfit
    | some plan =>
      rw [hp, Option.getD_some] at hst
      obtain ⟨hget, hframe, -, hlt, -⟩ := Store.planFor_cases hd hp
      rw [hst]
      intro p x b hx hb hle hge
      by_cases hpp : ∃ c ∈ plan, c.path = p
      · obtain ⟨c, hc, rfl⟩ := hpp
        rw [hget c hc, Option.some.injEq] at hx
        subst hx
        by_cases hcp : c.path = row.path
        · -- the winner is above the other's row
          rw [hcp, hmem, Option.some.injEq] at hb
          exact absurd (hb ▸ hle) (not_le_of_gt (hlt c hc hcp))
        · exact hplan hd plan hp c hc hcp b hb (VersionVector.compare_eq_equal.2 ⟨hle, hge⟩)
      · push Not at hpp
        rw [hframe p hpp] at hx
        exact hfit p x b hx hb hle hge

/-- A copy that does not fit is not replaced any more. -/
theorem misfit_reconcileRow (hrow : row ∈ other.allFiles) (hmis : Misfit other r.store)
    (h : r.reconcileRow row = .ok r') : Misfit other r'.store := by
  obtain ⟨p, x, b, hx, hb, hle, hge, hne, hcopy⟩ := hmis
  refine ⟨p, x, b, ?_, hb, hle, hge, hne, hcopy⟩
  have hmem := Store.mem_allFiles.1 hrow
  -- the other's row there has an equal vector, so nothing is done about it
  have hself : row.path = p → Decision.decide (r.store.loadFile row.path) row.vv = .ignore := by
    rintro rfl
    rw [hmem, Option.some.injEq] at hb
    exact Store.decide_eq_ignore.2 ⟨x, hx, hb ▸ hge⟩
  rcases reconcileRow_cases r row with ⟨-, hrun⟩ | ⟨hd, r₁, hrun, hst⟩ | ⟨hd, r₁, hrun, hst⟩ <;>
    rw [hrun] at h <;> cases h
  · exact hx
  · have hp : row.path ≠ p := fun hp => by rw [hself hp] at hd; cases hd
    rw [hst, Store.upsertFile_files, OrdMap.get?_insert_of_ne _ _ hp]
    exact hx
  · have hp : row.path ≠ p := fun hp => by rw [hself hp] at hd; cases hd
    rw [hst]
    cases hplan : r.store.planFor row.path (Version.fromRow row.toRow) with
    | none => exact hx
    | some plan =>
      obtain ⟨-, hframe, -, -, hcopies⟩ := Store.planFor_cases hd hplan
      rw [Option.getD_some, hframe p, hx]
      rintro c hc rfl
      exact (hcopies c hc hp.symm).2 x hx hcopy

/-- A copy that does not fit its name at the other node. -/
theorem misfit_of_not_planFits (hplan : ¬ other.PlanFits r.store row)
    (h : r.reconcileRow row = .ok r') : Misfit other r'.store := by
  unfold Store.PlanFits at hplan
  push Not at hplan
  obtain ⟨hd, plan, hp, c, hc, hcp, b, hb, hvv, hne⟩ := hplan
  obtain ⟨hle, hge⟩ := VersionVector.compare_eq_equal.1 hvv
  obtain ⟨hget, -, -, -, hcopies⟩ := Store.planFor_cases hd hp
  rcases reconcileRow_cases r row with ⟨hd', -⟩ | ⟨hd', -⟩ | ⟨-, r₁, hrun, hst⟩
  · rw [hd] at hd'
    cases hd'
  · rw [hd] at hd'
    cases hd'
  · rw [hrun] at h
    cases h
    refine ⟨c.path, c.toRow, b, ?_, hb, hle, hge, hne, (hcopies c hc hcp).1⟩
    rw [hst, hp, Option.getD_some]
    exact hget c hc

theorem reconcileFrom_cons {rows : List FileRow} (h : r.reconcileFrom (row :: rows) = .ok r') :
    ∃ r₁, r.reconcileRow row = .ok r₁ ∧ r₁.reconcileFrom rows = .ok r' := by
  rw [reconcileFrom, List.foldlM_cons] at h
  exact Result.exists_of_bind_eq_ok h

theorem not_misfit {st : Store} (h : other.Fit st) : ¬ Misfit other st := by
  rintro ⟨p, x, b, hx, hb, hle, hge, hne, -⟩
  exact hne (h p x b hx hb hle hge)

/-- After the first pull, every row has been taken in. -/
theorem taken_reconcileFrom {rows : List FileRow} (hres : Pull Store.Resolvable r rows)
    (h : r.reconcileFrom rows = .ok r') :
    Store.RowsGrow (fun _ => True) r.store r'.store ∧
      ∀ row ∈ rows, ∃ x, r'.store.files.get? row.path = some x ∧ row.vv ≤ x.vv := by
  induction rows generalizing r with
  | nil =>
    cases h
    exact ⟨Store.RowsGrow.of_files_eq rfl, by simp⟩
  | cons row rows ih =>
    obtain ⟨r₁, hrow, hrest⟩ := reconcileFrom_cons h
    obtain ⟨hgrow, htaken⟩ := ih (hres.2 r₁ hrow) hrest
    refine ⟨(rowsGrow_reconcileRow hrow).trans hgrow, fun x hx => ?_⟩
    rcases List.mem_cons.1 hx with rfl | hx
    · exact hgrow.taken (taken_reconcileRow hres.1 hrow)
    · exact htaken x hx

theorem normal_reconcileFrom {rows : List FileRow} (hn : r.store.AllNormal)
    (hrows : ∀ row ∈ rows, row.vv.Normal) (h : r.reconcileFrom rows = .ok r') :
    r'.store.AllNormal :=
  Result.foldlM_invariant h (I := fun _ r => r.store.AllNormal) hn
    fun _ row _ _ hrow hn hrun => normal_reconcileRow hn (hrows row hrow) hrun

/-- A copy that does not fit is there to the end of the pull. -/
theorem misfit_reconcileFrom {rows : List FileRow} (hrows : ∀ row ∈ rows, row ∈ other.allFiles)
    (hmis : Misfit other r.store) (h : r.reconcileFrom rows = .ok r') : Misfit other r'.store :=
  Result.foldlM_invariant h (I := fun _ r => Misfit other r.store) hmis
    fun _ row _ _ hrow hmis hrun => misfit_reconcileRow (hrows row hrow) hmis hrun

/-- **The first pull.**  The rows fit afterwards exactly if the copies did at every step. -/
theorem fit_reconcileFrom_iff {rows : List FileRow} (hn : r.store.AllNormal)
    (hrows : ∀ row ∈ rows, row ∈ other.allFiles ∧ row.vv.Normal) (hfit : other.Fit r.store)
    (h : r.reconcileFrom rows = .ok r') : other.Fit r'.store ↔ Pull other.PlanFits r rows := by
  induction rows generalizing r with
  | nil =>
    cases h
    exact ⟨fun _ => trivial, fun _ => hfit⟩
  | cons row rows ih =>
    obtain ⟨r₁, hrow, hrest⟩ := reconcileFrom_cons h
    obtain ⟨hmem, hnrow⟩ := hrows row List.mem_cons_self
    have hrows' : ∀ row ∈ rows, row ∈ other.allFiles ∧ row.vv.Normal :=
      fun x hx => hrows x (List.mem_cons_of_mem _ hx)
    by_cases hplan : other.PlanFits r.store row
    · rw [ih (normal_reconcileRow hn hnrow hrow) hrows' (fit_reconcileRow hn hmem hnrow hfit hplan hrow)
        hrest]
      refine ⟨fun hpull => ⟨hplan, fun r₂ hrun => ?_⟩, fun hpull => hpull.2 r₁ hrow⟩
      rw [hrow] at hrun
      cases hrun
      exact hpull
    · -- the copy stays as it is
      refine ⟨fun hfit' => absurd ?_ (not_misfit hfit'), fun hpull => absurd hpull.1 hplan⟩
      exact misfit_reconcileFrom (fun x hx => (hrows' x hx).1) (misfit_of_not_planFits hplan hrow) hrest

/-! ### The second pull -/

/-- From a store that is above, a row is taken over as it is or not at all. -/
theorem reconcileRow_of_below (hn : r.store.AllNormal) (hrow : row ∈ other.allFiles)
    (hnrow : row.vv.Normal) (hbelow : r.store.Below other) (h : r.reconcileRow row = .ok r') :
    r'.store = r.store ∨ r'.store = r.store.upsertFile row := by
  rcases reconcileRow_cases r row with ⟨-, hrun⟩ | ⟨hd, r₁, hrun, hst⟩ | ⟨hd, -⟩
  · rw [hrun] at h
    cases h
    exact .inl rfl
  · rw [hrun] at h
    cases h
    refine .inr ?_
    rw [hst, (hn.vvAt row.path).merge_eq_right hnrow
      (Store.vvAt_le_of_lt (Store.decide_eq_apply.1 hd))]
  · exact absurd hd (hbelow.not_concurrent hrow)

/-- What the second pull keeps: the rows are those of the two stores, and the ones of the list have
been taken in. -/
structure Adopting (start other : Store) (seen : List FileRow) (st : Store) : Prop where
  normal : st.AllNormal
  below : st.Below other
  either : ∀ p x, st.files.get? p = some x →
    start.files.get? p = some x ∨ other.files.get? p = some x
  grow : Store.RowsGrow (fun _ => True) start st
  taken : ∀ row ∈ seen, ∃ x, st.files.get? row.path = some x ∧ row.vv ≤ x.vv

theorem Adopting.step {start : Store} {seen : List FileRow}
    (hinv : Adopting start other seen r.store) (hrow : row ∈ other.allFiles)
    (hnrow : row.vv.Normal) (h : r.reconcileRow row = .ok r') :
    Adopting start other (seen ++ [row]) r'.store := by
  have hmem := Store.mem_allFiles.1 hrow
  have hgrow := rowsGrow_reconcileRow h
  have hres : r.store.Resolvable row := fun hd => absurd hd (hinv.below.not_concurrent hrow)
  have hrows : ∀ p x, r'.store.files.get? p = some x →
      r.store.files.get? p = some x ∨ other.files.get? p = some x := by
    intro p x hx
    rcases reconcileRow_of_below hinv.normal hrow hnrow hinv.below h with hst | hst
    · exact .inl (hst ▸ hx)
    · rw [hst, Store.upsertFile_files, OrdMap.get?_insert] at hx
      split_ifs at hx with hp
      · exact .inr (by rw [← hp, hmem, hx])
      · exact .inl hx
  refine ⟨normal_reconcileRow hinv.normal hnrow h, fun p x hx => ?_, fun p x hx => ?_,
    hinv.grow.trans hgrow, fun x hx => ?_⟩
  · rcases hrows p x hx with hold | hother
    · exact hinv.below p x hold
    · exact ⟨x, hother, le_rfl⟩
  · rcases hrows p x hx with hold | hother
    · exact hinv.either p x hold
    · exact .inr hother
  · rcases List.mem_append.1 hx with hx | hx
    · exact hgrow.taken (hinv.taken x hx)
    · rw [List.mem_singleton.1 hx]
      exact taken_reconcileRow hres h

/-- **The second pull.**  It ends in the other's table exactly if the rows of the two stores that
have equal vectors are equal. -/
theorem reconcileFrom_eq_iff (hn : r.store.AllNormal) (hother : other.AllNormal)
    (hbelow : r.store.Below other) (h : r.reconcileFrom other.allFiles = .ok r') :
    r'.store.files = other.files ↔ r.store.Fit other := by
  have hinv : Adopting r.store other other.allFiles r'.store := by
    refine Result.foldlM_invariant h (I := fun seen r' => Adopting r.store other seen r'.store) ?_ ?_
    · exact ⟨hn, hbelow, fun p x hx => .inl hx, Store.RowsGrow.of_files_eq rfl, by simp⟩
    · intro seen row r₁ r₂ hrow hinv hrun
      exact hinv.step hrow (hother.rows _ _ (Store.mem_allFiles.1 hrow)) hrun
  constructor
  · intro heq p x b hx hb hle hge
    obtain ⟨b', hb', hor⟩ := hinv.grow p b hb
    rw [heq, hx, Option.some.injEq] at hb'
    rcases hor with rfl | ⟨hlt, -⟩
    · exact hb'
    · rw [← hb'] at hlt
      exact absurd hle (not_le_of_gt hlt)
  · intro hfit
    refine OrdMap.ext_get? fun p => ?_
    cases hy : other.files.get? p with
    | none =>
      cases hx : r'.store.files.get? p with
      | none => rfl
      | some x =>
        obtain ⟨y, hy', -⟩ := hinv.below p x hx
        rw [hy] at hy'
        cases hy'
    | some y =>
      obtain ⟨x, hx, hle⟩ := hinv.taken { y with path := p } (Store.mem_allFiles.2 hy)
      rw [hx]
      rcases hinv.either p x hx with hb | ho
      · -- it has kept its own row, whose vector is equal
        obtain ⟨y', hy', hge⟩ := hbelow p x hb
        rw [hy, Option.some.injEq] at hy'
        rw [hfit p y x hy hb hle (hy' ▸ hge)]
      · rw [ho] at hy
        exact hy

/-- **A pair of pulls.**  Take any two nodes of any run whose rows with equal vectors are equal.
Node A takes in every row of B, with none refused as unresolvable, and B then every row of A.  The
pair has converged if and only if, at every row that A takes in, the copies that A plans at names
where B has a row with an equal vector are that row. -/
theorem pulls_converge_iff {nodes : Set NodeId} {h : History} {a b : NodeId} {rA rB : Replica}
    (hr : (History.runs nodes).Reach {} h) (hA : rA.store = h.mesh.stores a)
    (hB : rB.store = h.mesh.stores b) (hequal : rB.store.Fit rA.store)
    (hres : Pull Store.Resolvable rA rB.store.allFiles) :
    ∃ rA' rB', rA.reconcileFrom rB.store.allFiles = .ok rA' ∧
      rB.reconcileFrom rA'.store.allFiles = .ok rB' ∧
      (Converged rA' rB' ↔ Pull rB.store.PlanFits rA rB.store.allFiles) := by
  have hinv := History.normal_reach hr
  have hnA : rA.store.AllNormal := hA ▸ hinv.store a
  have hnB : rB.store.AllNormal := hB ▸ hinv.store b
  have hrows : ∀ row ∈ rB.store.allFiles, row.vv.Normal :=
    fun row hrow => hnB.rows _ _ (Store.mem_allFiles.1 hrow)
  obtain ⟨rA', hfirst⟩ := reconcileFrom_ok rA rB.store.allFiles
  obtain ⟨rB', hsecond⟩ := reconcileFrom_ok rB rA'.store.allFiles
  have hnA' := normal_reconcileFrom hnA hrows hfirst
  have hbelow : rB.store.Below rA'.store := fun p x hx =>
    (taken_reconcileFrom hres hfirst).2 { x with path := p } (Store.mem_allFiles.2 hx)
  have hfit := fit_reconcileFrom_iff hnA (fun row hrow => ⟨hrow, hrows row hrow⟩) hequal hfirst
  have htables := reconcileFrom_eq_iff hnB hnA' hbelow hsecond
  refine ⟨rA', rB', hfirst, hsecond, ?_⟩
  rw [← hfit, ← htables]
  constructor
  · exact fun hconv => hconv.1.symm
  · intro heq
    refine ⟨heq.symm, reconcileFrom_self rA' fun row hrow => ?_,
      reconcileFrom_self rB' fun row hrow => ?_⟩
    · rw [← heq]
      exact Store.mem_allFiles.1 hrow
    · rw [heq]
      exact Store.mem_allFiles.1 hrow

end Replica

end

namespace Replica

section Example

attribute [local instance] Blake3.polynomial

/-- A write of `f` with the given content and modification time. -/
def stamped (content : Hash) (mtime : Int64) : LocalChange :=
  { Store.writeF with contentHash := some content, metadata := some (fileMeta mtime) }

/-- Content 9, written by node 3. -/
def stamped9 : OpRecord := Store.localOp 3 {} (stamped 9 1)

/-- Node 1 writes content 5, node 2 the given content, and node 3 content 9, which node 2 gets. -/
def twinWrites (content : Hash) : List Act :=
  let acts := [.append 1 (stamped 5 1), .append 2 (stamped content 2), .append 3 (stamped 9 1)]
  acts ++ History.handleConcurrent (acts.foldl History.step {}) 2 stamped9

/-- A node of the run, as a replica. -/
def ofRun (acts : List Act) (n : NodeId) : Replica :=
  { nodeId := n, store := (acts.foldl History.step {}).mesh.stores n }

theorem ofRun_store (acts : List Act) (n : NodeId) :
    (ofRun acts n).store = (acts.foldl History.step {}).mesh.stores n := rfl

/-- Nodes 1 and 2 have written different contents. -/
theorem pulls_converge_without_twin :
    ∃ rA' rB', (ofRun (twinWrites 6) 1).reconcileFrom (ofRun (twinWrites 6) 2).store.allFiles =
        .ok rA' ∧
      (ofRun (twinWrites 6) 2).reconcileFrom rA'.store.allFiles = .ok rB' ∧ Converged rA' rB' := by
  have hr : (History.runs {n | n ∈ [1, 2, 3]}).Reach {} ((twinWrites 6).foldl History.step {}) :=
    Lts.Reach.init.of_foldl (by decide +kernel)
  obtain ⟨rA', rB', hfirst, hsecond, hiff⟩ := pulls_converge_iff hr (ofRun_store _ 1)
    (ofRun_store _ 2) (by decide +kernel) (by decide +kernel)
  exact ⟨rA', rB', hfirst, hsecond, hiff.2 (by decide +kernel)⟩

/-- **The pair does not converge.**  Nodes 1 and 2 have written the same content at different times,
and each derives the conflict copy from its own write: two rows under one vector, which no pull
replaces. -/
theorem pulls_leave_copies_apart :
    let h := (twinWrites 5).foldl History.step {}
    let rA := ofRun (twinWrites 5) 1
    let rB := ofRun (twinWrites 5) 2
    let cp := copyPathFor ['f'] 5 (Meta.namingHash (some (fileMeta 1)))
    (History.runs {n | n ∈ [1, 2, 3]}).Reach {} h ∧ rA.store = h.mesh.stores 1 ∧
      rB.store = h.mesh.stores 2 ∧ rB.store.Fit rA.store ∧
      Pull Store.Resolvable rA rB.store.allFiles ∧
      ∃ rA' rB', rA.reconcileFrom rB.store.allFiles = .ok rA' ∧
        rB.reconcileFrom rA'.store.allFiles = .ok rB' ∧ rA'.store.files ≠ rB'.store.files ∧
        (∀ x ∈ rA'.store.files.get? cp, ∀ y ∈ rB'.store.files.get? cp,
          x.vv = y.vv ∧ x.metadata = some (fileMeta 1) ∧ y.metadata = some (fileMeta 2)) ∧
        rA'.reconcileFrom rB'.store.allFiles = .ok rA' ∧
        rB'.reconcileFrom rA'.store.allFiles = .ok rB' := by
  intro h rA rB cp
  refine ⟨Lts.Reach.init.of_foldl (by decide +kernel), ofRun_store _ 1, ofRun_store _ 2,
    by decide +kernel, by decide +kernel, rA.pulled rB.store.allFiles,
    rB.pulled (rA.pulled rB.store.allFiles).store.allFiles, reconcileFrom_eq_pulled _ _,
    reconcileFrom_eq_pulled _ _, by decide +kernel, by decide +kernel,
    reconcileFrom_of_ignore _ (by decide +kernel), reconcileFrom_of_ignore _ (by decide +kernel)⟩

end Example

end Replica

end Replicore
