import Replicore.Engine.Process
import Replicore.Replica.Handled

/-!
# The harness and the engine

`Replica` repeats by hand what the engine does with a remote op, without its disk and its network.
This module compares the two by the tables they leave, the manifests apart.

In a run in which no fetch and no staging fails, each of the three resolution loops settles its path
(`clean_resolveLoop`), and the engine handles an op as the replica does, except that it quarantines
what it can not materialize by the op alone (`EngineSteps.clean_processRemoteOp`): a regular file
without content hash, and any rename without one.  Renaming a node that has no content, a fifo or a
device, makes such a rename.
-/

namespace Replicore

open Calls

/-! ### The loop -/

section loop

open Store

variable {ε σ : Type} {E : ε → Store → Prop} {st : Store}

/-- A command that does not look at the manifests. -/
theorem clean_command {α : Type} (ofStore : StoreError → ε)
    {f : Store → Except StoreError (α × Store)} (hf : Blind f) :
    Clean (SameTables st) (command ofStore f : Prog ε Store σ α)
      (fun a d => ∃ st', f st = .ok (a, st') ∧ SameTables st' d)
      fun _ d => (∃ e, f st = .error e) ∧ SameTables st d := by
  refine Clean.own (fun d a d' hd hrun => ?_) fun d e hd hrun => ?_
  · rw [hd.eq_withManifests, hf] at hrun
    cases hst : f st with
    | error e => rw [hst] at hrun; cases hrun
    | ok p =>
      rw [hst] at hrun
      cases hrun
      exact ⟨p.2, rfl, sameTables_withManifests _ _⟩
  · rw [hd.eq_withManifests, hf] at hrun
    cases hst : f st with
    | error e => exact ⟨⟨e, rfl⟩, hd⟩
    | ok p => rw [hst] at hrun; cases hrun

/-- Reading what the manifests have no part in. -/
theorem clean_reading {α : Type} {f : Store → α} (hf : ∀ d, SameTables st d → f d = f st) :
    Clean (SameTables st) (Prog.reading f : Prog ε Store σ α)
      (fun a d => a = f st ∧ SameTables st d) E := by
  refine Clean.reading.post ?_
  rintro _ d ⟨rfl, hd⟩
  exact ⟨hf d hd, hd⟩

theorem clean_restoreLocalContent {P : Store → Prop} (disk : DiskSteps ε σ) (path : Path) :
    Clean P (restoreLocalContent disk path) (fun _ => P) E := by
  refine Clean.bind (Clean.reading.post fun _ _ hd => hd.2) fun x => ?_
  split
  · exact Clean.optional
  · split
    · exact Clean.optional
    · split
      · exact Clean.optional
      · split
        · exact Clean.pure fun _ hd => hd
        · split
          · exact Clean.pure fun _ hd => hd
          · exact Clean.optional

theorem clean_restorePaths {P : Store → Prop} (disk : DiskSteps ε σ) (paths : List Path) :
    Clean P (restorePaths disk paths) (fun _ => P) E := by
  induction paths with
  | nil => exact Clean.pure fun _ hd => hd
  | cons path paths ih => exact Clean.bind (clean_restoreLocalContent disk path) fun _ => ih

/-- Staging a plan, where no staging fails. -/
theorem clean_stagePlan {P : Store → Prop} {stage : PlannedRow → Prog ε Store σ Bool}
    (hstage : ∀ row, Clean P (stage row) (fun _ => P) fun _ => P) (plan : List PlannedRow)
    (paths : List Path) : Clean P (stagePlan stage plan paths) (fun r d => r.1 = none ∧ P d) E := by
  induction plan generalizing paths with
  | nil => exact Clean.pure fun _ hd => ⟨rfl, hd⟩
  | cons row plan ih =>
    have hrow : Clean P (stage row).noting (fun _ => P) fun _ _ => False := (hstage row).noting
    refine Clean.bind hrow.attempt fun r => ?_
    cases r with
    | ok touched => exact ih _
    | error e => exact Clean.pure fun _ hd => hd.elim

variable [Blake3] (ofStore : StoreError → ε) (disk : DiskSteps ε σ)
  {stage : PlannedRow → Prog ε Store σ Bool} {path : Path} {remote : Version}

/-- One call of `resolve_rows`. -/
theorem clean_resolveRows (staged : List PlannedRow) :
    Clean (SameTables st) (command ofStore fun st => st.resolveRows path remote staged : Prog ε Store σ _)
      (fun out d => ∃ st', st.resolveRows path remote staged = .ok (out, st') ∧ SameTables st' d) E :=
  (clean_command ofStore (blind_resolveRows path remote staged)).error fun _ _ ⟨⟨e, he⟩, _⟩ => by
    rw [resolveRows_eq] at he
    cases he

/-- The round that commits the plan. -/
theorem clean_commit {plan : List PlannedRow}
    (hd : Decision.decide (st.loadFile path) remote.vv = .concurrent)
    (hplan : st.planFor path remote = some plan) (n : ℕ) (paths : List Path) :
    Clean (SameTables st) (resolveLoop ofStore disk stage path remote (n + 1) plan paths)
      (fun r d => r = .ok true ∧ SameTables (st.settled path remote) d) E := by
  have hrows := Store.resolveRows_of_plan hd hplan plan
  rw [if_pos rfl] at hrows
  refine Clean.bind (clean_resolveRows ofStore plan) fun out => ?_
  refine Clean.pre (P := fun d => out = .resolved ∧ SameTables (st.settled path remote) d) ?_ ?_
  · refine Clean.of_pre fun hout => ?_
    subst hout
    exact Clean.pure fun _ hd => ⟨rfl, hd⟩
  · rintro d ⟨st', hrun, hsame⟩
    rw [hrows] at hrun
    cases hrun
    rw [settled_of_plan hd hplan]
    exact ⟨rfl, hsame⟩

/-- **The loop settles the path** in a run in which no staging fails: the first round is refused
with the plan, and after its staging the second one commits it. -/
theorem clean_resolveLoop
    (hstage : ∀ row, Clean (SameTables st) (stage row) (fun _ => SameTables st) fun _ => SameTables st)
    (n : ℕ) (paths : List Path) :
    Clean (SameTables st) (resolveLoop ofStore disk stage path remote (n + 2) [] paths)
      (fun r d => (∃ b, r = .ok b) ∧ SameTables (st.settled path remote) d) E := by
  refine Clean.bind (clean_resolveRows ofStore []) fun out => ?_
  by_cases hd : Decision.decide (st.loadFile path) remote.vv = .concurrent
  · cases hplan : st.planFor path remote with
    | none =>
      refine Clean.pre (P := fun d => out = .unresolvable ∧ SameTables st d) ?_ ?_
      · refine Clean.of_pre fun hout => ?_
        subst hout
        rw [settled_of_none hplan]
        exact Clean.bind (clean_restorePaths disk paths) fun _ => Clean.pure fun _ hd => ⟨⟨_, rfl⟩, hd⟩
      · rintro d ⟨st', hrun, hsame⟩
        rw [resolveRows_eq, hplan] at hrun
        simp only [hd, ne_eq, not_true_eq_false, if_false] at hrun
        cases hrun
        exact ⟨rfl, hsame⟩
    | some plan =>
      refine Clean.pre (P := fun d => out = .stale plan ∧ SameTables st d) ?_ ?_
      · refine Clean.of_pre fun hout => ?_
        subst hout
        refine Clean.bind (clean_stagePlan hstage plan paths) fun r => ?_
        obtain ⟨failed, paths'⟩ := r
        refine Clean.of_pre fun hnone => ?_
        cases hnone
        exact (clean_commit ofStore disk hd hplan n paths').post fun _ _ ⟨hr, hsame⟩ =>
          ⟨⟨true, hr⟩, hsame⟩
      · rintro d ⟨st', hrun, hsame⟩
        rw [resolveRows_of_plan hd hplan, if_neg (planFor_ne_nil hplan)] at hrun
        cases hrun
        exact ⟨rfl, hsame⟩
  · refine Clean.pre (P := fun d =>
      out = .notConcurrent (Decision.decide (st.loadFile path) remote.vv) ∧ SameTables st d) ?_ ?_
    · refine Clean.of_pre fun hout => ?_
      subst hout
      rw [settled_of_ne hd]
      exact Clean.bind (clean_restorePaths disk paths) fun _ => Clean.pure fun _ hd => ⟨⟨_, rfl⟩, hd⟩
    · rintro d ⟨st', hrun, hsame⟩
      rw [resolveRows_eq, if_pos hd] at hrun
      cases hrun
      exact ⟨rfl, hsame⟩

end loop

/-! ### The leaf -/

namespace LeafSteps

open Store

variable {ε σ : Type} (steps : LeafSteps ε σ) (policy : Disk.OwnerPolicy) {st : Store}
  {E : ε → Store → Prop}

theorem clean_plannedManifest (row : PlannedRow) :
    Clean (SameTables st) (steps.plannedManifest row) (fun _ => SameTables st) E := by
  unfold plannedManifest
  split
  · refine Clean.bind (Clean.reading.post fun _ _ hd => hd.2) fun found => ?_
    split
    · exact Clean.pure fun _ hd => hd
    · refine Clean.bind Clean.call fun m => Clean.own (fun d a d' hd hrun => ?_) fun d e _ hrun => ?_
      · cases hrun
        exact hd.putManifest m
      · cases hrun
  · exact Clean.pure fun _ hd => hd

variable [Blake3]

theorem clean_stagePlannedRow (row : PlannedRow) :
    Clean (SameTables st) (steps.stagePlannedRow policy row) (fun _ => SameTables st) E := by
  unfold stagePlannedRow
  split
  · exact Clean.bind Clean.call fun _ => Clean.pure fun _ hd => hd
  · refine Clean.bind (Clean.reading.post fun _ _ hd => hd.2) fun current => ?_
    split
    · exact Clean.pure fun _ hd => hd
    · refine Clean.bind (steps.clean_plannedManifest row) fun manifest => ?_
      exact Clean.bind Clean.call fun _ => Clean.pure fun _ hd => hd

/-- The loop of a pull session settles the path. -/
theorem clean_resolveConcurrentLeaf (ofStore : StoreError → ε) (path : Path) (rleaf : Row) :
    Clean (SameTables st) (steps.resolveConcurrentLeaf ofStore policy path rleaf)
      (fun _ => SameTables (st.settled path (Version.fromRow rleaf))) E := by
  refine Clean.bind (clean_resolveLoop ofStore steps.toDiskSteps
    (fun row => steps.clean_stagePlannedRow policy row) 2 []) fun r => Clean.of_pre ?_
  rintro ⟨b, rfl⟩
  exact Clean.pure fun _ hd => hd

end LeafSteps

/-! ### The engine -/

/-- The engine refuses to materialize the op for what it lacks: the hash of its content, or the
source of its move. -/
def OpRecord.Refused (op : OpRecord) : Prop :=
  op.opType = .write ∧ kindOf op.metadata = .regular ∧ op.contentHash = none ∨
    op.opType = .rename ∧ (op.contentHash = none ∨ op.pathOld = none)

instance (op : OpRecord) : Decidable op.Refused := inferInstanceAs (Decidable (_ ∨ _))

namespace EngineSteps

open Store

variable {σ : Type} (steps : EngineSteps σ) (cfg : EngineConfig) {st : Store}
  {E : NetError → Store → Prop}

theorem clean_fetchContent (path : Path) (mode : U32) (size : U64) (hash : Hash)
    (metadata : Option Meta) (origin : NodeId) :
    Clean (SameTables st) (steps.fetchContent cfg path mode size hash metadata origin)
      (fun _ => SameTables st) E := by
  have hobtain : Clean (SameTables st) (steps.obtainManifest hash origin) (fun _ => SameTables st)
      E := by
    refine Clean.bind (Clean.reading.post fun _ _ hd => hd.2) fun found => ?_
    split
    · exact Clean.pure fun _ hd => hd
    · refine Clean.bind Clean.call fun m => Clean.own (fun d a d' hd hrun => ?_) fun d e _ hrun => ?_
      · cases hrun
        exact hd.putManifest m
      · cases hrun
  unfold fetchContent
  split
  · exact (Clean.throw fun _ _ => trivial : Clean (SameTables st) _ _ fun _ _ => True).noting
  · exact Clean.bind hobtain fun _ => Clean.bind Clean.call fun _ => Clean.call

theorem clean_materializeTarget (op : OpRecord) (hash : Hash) (oldPath : Path)
    (oldDominated : Bool) :
    Clean (SameTables st) (steps.materializeTarget cfg op hash oldPath oldDominated)
      (fun _ => SameTables st) E := by
  have hmove : Clean (SameTables st) (steps.tryMove cfg op hash oldPath oldDominated)
      (fun _ => SameTables st) E := by
    unfold tryMove
    split
    · exact Clean.call
    · exact Clean.pure fun _ hd => hd
  refine Clean.bind hmove fun moved => ?_
  split
  · exact Clean.pure fun _ hd => hd
  · split
    · exact Clean.call
    · exact steps.clean_fetchContent cfg _ _ _ _ _ _

/-- Whether an op is materialized depends on the op alone. -/
theorem clean_materialize (op : OpRecord) (loc : Option LocalFile) :
    Clean (SameTables st) (steps.materialize cfg op loc) (fun _ d => ¬ op.Refused ∧ SameTables st d)
      fun e d => (op.Refused ∧ e.isPermanent = true) ∧ SameTables st d := by
  unfold materialize
  cases hop : op.opType with
  | write =>
    dsimp only
    unfold materializeWrite
    split
    · rename_i hkind
      have hnot : ¬ op.Refused := by simp [OpRecord.Refused, hop, hkind]
      exact Clean.call.post fun _ _ hd => ⟨hnot, hd⟩
    · rename_i hkind
      cases hhash : op.contentHash with
      | none =>
        have href : op.Refused := .inl ⟨hop, not_not.1 hkind, hhash⟩
        exact Clean.throw fun _ hd => ⟨⟨href, rfl⟩, hd⟩
      | some hash =>
        have hnot : ¬ op.Refused := by simp [OpRecord.Refused, hop, hhash]
        dsimp only
        split
        · split
          · exact Clean.call.post fun _ _ hd => ⟨hnot, hd⟩
          · exact Clean.pure fun _ hd => ⟨hnot, hd⟩
        · exact (steps.clean_fetchContent cfg _ _ _ _ _ _).post fun _ _ hd => ⟨hnot, hd⟩
  | delete =>
    have hnot : ¬ op.Refused := by simp [OpRecord.Refused, hop]
    exact Clean.call.post fun _ _ hd => ⟨hnot, hd⟩
  | rename =>
    dsimp only
    unfold materializeRename
    split
    · rename_i hhash
      exact Clean.throw fun _ hd => ⟨⟨.inr ⟨hop, .inl hhash⟩, rfl⟩, hd⟩
    · rename_i hold
      exact Clean.throw fun _ hd => ⟨⟨.inr ⟨hop, .inr hold⟩, rfl⟩, hd⟩
    · rename_i hash oldPath hhash hold
      have hnot : ¬ op.Refused := by simp [OpRecord.Refused, hop, hhash, hold]
      refine Clean.bind (Clean.reading.post fun _ _ hd => hd.2) fun oldLocal => ?_
      refine Clean.bind (Clean.when (fun _ => steps.clean_materializeTarget cfg op hash oldPath _)
        fun _ _ hd => hd) fun _ => ?_
      exact Clean.when (fun _ => Clean.call.post fun _ _ hd => ⟨hnot, hd⟩) fun _ _ hd => ⟨hnot, hd⟩

/-- The decision under which an op is recorded. -/
theorem clean_tryMaterialize (op : OpRecord) (loc : Option LocalFile) (d : Decision) :
    Clean (SameTables st) (steps.tryMaterialize cfg op loc d)
      (fun d' x => d' = (if d = .apply ∧ op.Refused then .quarantined else d) ∧ SameTables st x) E := by
  unfold tryMaterialize
  split
  · rename_i hd
    refine Clean.bind (steps.clean_materialize cfg op loc).attempt fun r => ?_
    cases r with
    | ok _ => exact Clean.pure fun _ ⟨hnot, hx⟩ => ⟨by simp [hnot], hx⟩
    | error e =>
      refine Clean.of_pre fun ⟨href, hperm⟩ => ?_
      dsimp only
      rw [if_pos hperm]
      exact Clean.pure fun _ hx => ⟨by simp [hd, href], hx⟩
  · rename_i hd
    exact Clean.pure fun _ hx => ⟨by simp [hd], hx⟩

variable [Blake3]

theorem clean_stagePlannedRow (origin : NodeId) (row : PlannedRow) :
    Clean (SameTables st) (steps.stagePlannedRow cfg origin row) (fun _ => SameTables st)
      fun _ => SameTables st := by
  unfold stagePlannedRow
  split
  · exact Clean.bind Clean.call fun _ => Clean.pure fun _ hd => hd
  · refine Clean.bind (Clean.reading.post fun _ _ hd => hd.2) fun current => ?_
    split
    · exact Clean.pure fun _ hd => hd
    · split
      · exact Clean.bind Clean.call fun _ => Clean.pure fun _ hd => hd
      · split
        · exact Clean.throw fun _ hd => hd
        · exact Clean.bind (steps.clean_fetchContent cfg _ _ _ _ _ _) fun _ =>
            Clean.pure fun _ hd => hd

/-- The loop of the engine settles the path. -/
theorem clean_resolveConcurrentAt (path : Path) (remote : Version) (origin : NodeId) :
    Clean (SameTables st) (steps.resolveConcurrentAt cfg path remote origin)
      (fun _ => SameTables (st.settled path remote)) E := by
  refine Clean.bind (clean_resolveLoop .store steps.toDiskSteps
    (fun row => steps.clean_stagePlannedRow cfg origin row) 2 []) fun r => Clean.of_pre ?_
  rintro ⟨b, rfl⟩
  exact Clean.pure fun _ hd => hd

theorem clean_repairDowngrade (op : OpRecord) (e : Decision) :
    Clean (SameTables st) (steps.repairDowngrade cfg op e)
      (fun _ => SameTables (if e = .concurrent then st.settled op.path (opVersion op) else st)) E := by
  refine Clean.bind (clean_restoreLocalContent _ _) fun _ => Clean.when (fun he => ?_) fun he d hd => ?_
  · rw [if_pos he]
    exact steps.clean_resolveConcurrentAt cfg _ _ _
  · rw [if_neg he]
    exact hd

theorem clean_settleSource (op : OpRecord) :
    Clean (SameTables st) (steps.settleSource cfg op) (fun _ => SameTables (st.settledSource op)) E := by
  unfold settleSource
  split
  · rename_i oldPath hren hold
    rw [settledSource_of_source _ hren hold]
    refine Clean.bind (clean_reading fun _ hd => hd.loadFile oldPath) fun oldLocal => Clean.of_pre ?_
    rintro rfl
    cases hd : Decision.decide (st.loadFile oldPath) op.vv with
    | apply =>
      have hne : Decision.decide (st.loadFile oldPath) (renameSourceVersion op).vv ≠ .concurrent := by
        rw [renameSourceVersion, hd]; simp
      rw [settled_of_ne hne]
      exact clean_restoreLocalContent _ _
    | ignore =>
      have hne : Decision.decide (st.loadFile oldPath) (renameSourceVersion op).vv ≠ .concurrent := by
        rw [renameSourceVersion, hd]; simp
      rw [settled_of_ne hne]
      exact clean_restoreLocalContent _ _
    | concurrent =>
      exact Clean.bind (clean_restoreLocalContent _ _) fun _ =>
        steps.clean_resolveConcurrentAt cfg oldPath (renameSourceVersion op) op.origin
    | quarantined => exact absurd hd (Decision.decide_ne_quarantined _ _)
  · rename_i hnot
    rw [settledSource_of_not _ hnot]
    exact Clean.pure fun _ hx => hx

/-- Recording an op, and what follows. -/
theorem clean_record (st : Store) (op : OpRecord) (d : Decision) :
    Clean (SameTables st)
      (do
        let effective ← command NetError.store fun st => st.applyRemote op d
        Prog.when (d = .apply ∧ effective ≠ .apply) (steps.repairDowngrade cfg op effective)
        Prog.when (d ≠ .quarantined) (steps.settleSource cfg op) : Prog NetError Store σ PUnit)
      (fun _ => SameTables (st.recorded op d)) fun _ => SameTables (st.recorded op d) := by
  unfold recorded
  refine Clean.bind ((clean_command NetError.store (blind_applyRemote op d)).error ?_) fun e => ?_
  · rintro _ x ⟨⟨err, herr⟩, hx⟩
    rw [herr]
    exact hx
  · cases hrun : st.applyRemote op d with
    | error err =>
      -- the command has answered, so it has not failed
      refine Clean.pre (P := fun x => False ∧ SameTables st x) (Clean.of_pre False.elim) ?_
      rintro x ⟨_, h, -⟩
      cases h
    | ok p =>
      obtain ⟨e', st'⟩ := p
      refine Clean.pre (P := fun x => e' = e ∧ SameTables st' x) (Clean.of_pre ?_) ?_
      · rintro rfl
        dsimp only
        refine Clean.bind (Clean.when (Q := fun _ => SameTables
          (if d = .apply ∧ e' = .concurrent then st'.settled op.path (opVersion op) else st'))
          (fun hdown => ?_) fun hdown x hx => ?_) fun _ => ?_
        · simpa [hdown.1] using steps.clean_repairDowngrade cfg op e'
        · rwa [if_neg fun hboth => hdown ⟨hboth.1, by rw [hboth.2]; decide⟩]
        · refine Clean.when (fun hq => ?_) fun hq x hx => ?_
          · rw [if_neg hq]
            exact steps.clean_settleSource cfg op
          · rwa [if_pos (not_not.1 hq)]
      · rintro x ⟨st'', h, hx⟩
        cases h
        exact ⟨rfl, hx⟩

/-- The decision under which the engine records an op. -/
def recordedDecision (st : Store) (op : OpRecord) : Decision :=
  if Decision.decide (st.loadFile op.path) op.vv = .apply ∧ op.Refused then .quarantined
  else Decision.decide (st.loadFile op.path) op.vv

/-- In a run without failed fetches and stagings, the engine handles an op under the decision of its
path, except that it quarantines what it refuses. -/
theorem clean_processRemoteOp (op : OpRecord) :
    Clean (SameTables st) (steps.processRemoteOp cfg op)
      (fun _ => SameTables (st.handled op (recordedDecision st op)))
      fun _ => SameTables (st.handled op (recordedDecision st op)) := by
  unfold processRemoteOp handled
  refine Clean.bind (clean_reading fun _ hd => hd.hasApplied op.opId) fun known => Clean.of_pre ?_
  rintro rfl
  split
  · exact Clean.pure fun _ hd => hd
  refine Clean.bind (clean_reading fun _ hd => hd.loadFile op.path) fun loc => Clean.of_pre ?_
  rintro rfl
  refine Clean.bind (steps.clean_tryMaterialize cfg op _ _) fun d => Clean.of_pre fun hd => ?_
  rw [show recordedDecision st op = d from hd.symm]
  refine Clean.bind (Clean.when (Q := fun _ => SameTables
    (if d = .concurrent then st.settled op.path (opVersion op) else st)) (fun hc => ?_)
    fun hc x hx => ?_) fun _ => ?_
  · rw [if_pos hc]
    exact steps.clean_resolveConcurrentAt cfg _ _ _
  · rwa [if_neg hc]
  · have hrecord := steps.clean_record cfg (if d = .concurrent then
      st.settled op.path (opVersion op) else st) op d
    split at hrecord
    · rename_i hc
      simpa only [if_pos hc] using hrecord
    · rename_i hc
      simpa only [if_neg hc] using hrecord

end EngineSteps

/-! ### Agreement -/

/-- The op is to leave a file at its path, but lacks the hash of its content: a write of a regular
file, or a rename of anything. -/
def OpRecord.Hashless (op : OpRecord) : Prop :=
  op.contentHash = none ∧
    (op.opType = .write ∧ kindOf op.metadata = .regular ∨ op.opType = .rename ∧ op.pathOld ≠ none)

instance (op : OpRecord) : Decidable op.Hashless := inferInstanceAs (Decidable (_ ∧ _))

section agreement

open Store EngineSteps

variable [Blake3]

/-- The abstract steps of the replica and the engine agree except on an op that the engine refuses
and the replica applies. -/
theorem handled_recordedDecision_iff (st : Store) (op : OpRecord) :
    (st.handled op (Decision.decide (st.loadFile op.path) op.vv)).SameTables
        (st.handled op (recordedDecision st op)) ↔
      ¬ (op.opId ∉ st.applied ∧ Decision.decide (st.loadFile op.path) op.vv = .apply ∧
        op.Hashless) := by
  by_cases href : Decision.decide (st.loadFile op.path) op.vv = .apply ∧ op.Refused
  · obtain ⟨hd, href⟩ := href
    have hrec : recordedDecision st op = .quarantined := if_pos ⟨hd, href⟩
    rw [hrec, hd]
    by_cases happ : op.opId ∈ st.applied
    · have hsame : ∀ d, st.handled op d = st := fun d => by simp [handled, hasApplied, happ]
      rw [hsame, hsame]
      exact iff_of_true (SameTables.refl st) fun h => h.1 happ
    · by_cases hsrc : op.opType = .rename ∧ op.pathOld = none
      · rw [handled_of_no_source hsrc.1 hsrc.2 (by decide),
          handled_of_no_source hsrc.1 hsrc.2 (by decide)]
        refine iff_of_true (SameTables.refl st) ?_
        rintro ⟨-, -, -, ⟨hw, -⟩ | ⟨-, hold⟩⟩
        · rw [hsrc.1] at hw
          cases hw
        · exact hold hsrc.2
      · have hless : op.Hashless := by
          rcases href with ⟨hw, hkind, hhash⟩ | ⟨hren, hhash | hold⟩
          · exact ⟨hhash, .inl ⟨hw, hkind⟩⟩
          · exact ⟨hhash, .inr ⟨hren, fun hold => hsrc ⟨hren, hold⟩⟩⟩
          · exact absurd ⟨hren, hold⟩ hsrc
        refine iff_of_false (fun hsame => ?_) fun h => h ⟨happ, rfl, hless⟩
        exact handled_apply_ne_quarantined happ hd (fun hren hold => hsrc ⟨hren, hold⟩)
          hsame.files.symm
  · have hrec : recordedDecision st op = Decision.decide (st.loadFile op.path) op.vv := if_neg href
    rw [hrec]
    refine iff_of_true (SameTables.refl _) ?_
    rintro ⟨-, hd, hhash, hop⟩
    refine href ⟨hd, ?_⟩
    rcases hop with ⟨hw, hkind⟩ | ⟨hren, -⟩
    · exact .inl ⟨hw, hkind, hhash⟩
    · exact .inr ⟨hren, .inl hhash⟩

variable {ε σ ρ : Type} (steps : EngineSteps σ) (cfg : EngineConfig) (leafSteps : LeafSteps ε ρ)
  (ofStore : StoreError → ε) (policy : Disk.OwnerPolicy)

/-- **The replica and the engine commit the same state, unless the op lacks the hash of its
content.** From every state, with any disk and network, in a run in which no fetch and no staging
fails: the tables that `receive` and `process_remote_op` leave agree if and only if the op is not a
new one that is decided `apply` and is a write of a regular file, or a rename, without content
hash.  And for every path and remote version, the three resolution loops commit the same rows. -/
theorem replica_engine_agree_iff (r : Replica) (w : σ) (v : ρ) :
    (∀ op, let run := (steps.processRemoteOp cfg op).final ⟨r.store, w, false⟩
      run.failed = false →
        ((r.leaves op).SameTables run.data ↔
          ¬ (op.opId ∉ r.store.applied ∧
            Decision.decide (r.store.loadFile op.path) op.vv = .apply ∧ op.Hashless))) ∧
    ∀ path, (∀ remote origin, ∃ r', r.resolveConflict path remote = .ok r' ∧
      let run := (steps.resolveConcurrentAt cfg path remote origin).final ⟨r.store, w, false⟩
      (run.failed = false → r'.store.SameTables run.data)) ∧
      ∀ rleaf, ∃ r', r.resolveConflict path (Version.fromRow rleaf) = .ok r' ∧
        let run := (leafSteps.resolveConcurrentLeaf ofStore policy path rleaf).final
          ⟨r.store, v, false⟩
        (run.failed = false → r'.store.SameTables run.data) := by
  refine ⟨fun op hclean => ?_, fun path => ⟨fun remote origin => ?_, fun rleaf => ?_⟩⟩
  · have hrun := (steps.clean_processRemoteOp cfg op).final (s := ⟨r.store, w, false⟩)
      (SameTables.refl r.store) hclean
    rw [← handled_recordedDecision_iff, Replica.leaves_eq]
    exact ⟨fun h => h.trans hrun.symm, fun h => h.trans hrun⟩
  · obtain ⟨r', hrun', hst'⟩ := r.resolveConflict_settled path remote
    refine ⟨r', hrun', fun hclean => ?_⟩
    rw [hst']
    exact (steps.clean_resolveConcurrentAt cfg path remote origin).final
      (s := ⟨r.store, w, false⟩) (SameTables.refl r.store) hclean
  · obtain ⟨r', hrun', hst'⟩ := r.resolveConflict_settled path (Version.fromRow rleaf)
    refine ⟨r', hrun', fun hclean => ?_⟩
    rw [hst']
    exact (leafSteps.clean_resolveConcurrentLeaf policy ofStore path rleaf).final
      (s := ⟨r.store, v, false⟩) (SameTables.refl r.store) hclean

end agreement

section Example

attribute [local instance] Blake3.polynomial

open Store

/-- A disk and a network on which everything succeeds. -/
def smoothSteps : EngineSteps Unit where
  applyVersion _ _ _ _ _ _ := pure ⟨⟩
  applyDelete _ := pure ⟨⟩
  askManifest hash _ := pure ⟨hash, []⟩
  fetchFileChunks _ _ := pure ⟨⟩
  applyMetaOnly _ _ _ _ := pure ⟨⟩
  applyRename _ _ _ _ _ _ := pure true

/-- The same for a pull session. -/
def smoothLeafSteps : LeafSteps StoreError Unit where
  applyVersion _ _ _ _ _ _ := pure ⟨⟩
  applyDelete _ := pure ⟨⟩
  ensureContent hash := pure ⟨hash, []⟩

def smallFiles : EngineConfig := ⟨4096, .skip⟩

/-- Node 2, before it has heard of anything. -/
def freshReplica : Replica := { nodeId := 2 }

/-- Node 2 receives a write of node 1. -/
theorem agreement_on_write :
    let run := (smoothSteps.processRemoteOp smallFiles foreignF).final ⟨{}, (), false⟩
    run.failed = false ∧ (freshReplica.leaves foreignF).SameTables run.data := by
  have hclean : ((smoothSteps.processRemoteOp smallFiles foreignF).final
      ⟨({} : Store), (), false⟩).failed = false := by decide +kernel
  refine ⟨hclean, ?_⟩
  exact ((replica_engine_agree_iff smoothSteps smallFiles smoothLeafSteps id .skip freshReplica ()
    ()).1 foreignF hclean).2 (by decide +kernel)

/-- A fifo as node 1's ingest finds it. -/
def fifoF : LocalChange where
  path := ['f']
  opType := .write
  mode := 0o644
  size := 0
  contentHash := none
  metadata := some ⟨.fifo, 0o644, 0, 0, 0, 0, none, 0, []⟩
  manifest := none

/-- Node 1's store with the fifo. -/
def withFifo : Store := Store.exec 1 {} (.appendLocal fifoF)

/-- Node 1's op for the fifo. -/
def fifoOp : OpRecord := Store.localOp 1 {} fifoF

/-- Node 1's op for the move of the fifo. -/
def moveFifoOp : OpRecord := Store.renameOp 1 withFifo ['f'] ['g'] (Store.localRow fifoOp)

/-- Node 2 once it has the fifo. -/
def hasFifo : Replica := { freshReplica with store := freshReplica.leaves fifoOp }

/-- **A renamed fifo arrives in the replica and is lost in the engine.**  Node 1 creates a fifo and
renames it, and node 2 has received the first op.  The replica applies the second; the engine, with
nothing to fetch and nothing failing, quarantines it, has no row at the target, and has tombstoned
the source. -/
theorem renamed_fifo_lost :
    let run := (smoothSteps.processRemoteOp smallFiles moveFifoOp).final ⟨hasFifo.store, (), false⟩
    Store.appendLocal 1 {} fifoF = .ok (some fifoOp, withFifo) ∧
    (withFifo.appendLocalRename 1 ['f'] ['g']).1 = some moveFifoOp ∧
    run.failed = false ∧ ¬ (hasFifo.leaves moveFifoOp).SameTables run.data ∧
    ((hasFifo.leaves moveFifoOp).loadFile ['g']).map (·.tombstone) = some false ∧
    (run.data.loadFile ['g']).map (·.tombstone) = none ∧
    (run.data.loadFile ['f']).map (·.tombstone) = some true := by
  decide +kernel

end Example

end Replicore
