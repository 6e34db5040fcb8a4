import Mathlib.Logic.Function.Basic
import Replicore.Lib.Lts
import Replicore.Store.Effects

/-!
# The echo of a remote apply

One path, a remote op that is being applied there, and the watcher and the scanner observing it
(`suppress.rs`, `ingest.rs`).  An apply registers what it expects to be observed, changes the disk,
and commits the row; an observation looks at the disk, asks whether it was expected, and hands the
change to the store, which drops it if the row says so already.

A remote apply that is observed should not come back as a local op.  Two defences stand against
that, and together they do not cover the time between the change of the disk and the commit: the
entry of the suppressor serves one observation, and until the commit the row is the old one.  Nor do
they cover an observation that looked before the change and reaches the store after the commit.
`echo_free_iff` says that nothing else goes wrong, and `change_noticed` that no change of a user is
masked for more than one observation.
-/

namespace Replicore

open Bytes

/-! ### The suppressor -/

/-- What the apply path is about to do at a path. -/
inductive Suppression
  /-- Publish content with this hash. -/
  | write (hash : Hash)
  /-- Unlink the path. -/
  | delete
  deriving DecidableEq

/-- The suppression set, one entry for a path. -/
abbrev Suppressor := OrdMap Path Suppression

namespace Suppressor

/-- Called before a remote write is staged. -/
def registerWrite (m : Suppressor) (rel : Path) (hash : Hash) : Suppressor :=
  OrdMap.insert m rel (.write hash)

/-- Called before a remote delete unlinks the path. -/
def registerDelete (m : Suppressor) (rel : Path) : Suppressor := OrdMap.insert m rel .delete

/-- Should an observed write be swallowed?  Consumes the entry on match. -/
def checkWrite (m : Suppressor) (rel : Path) (hash : Hash) : Bool × Suppressor :=
  if m.get? rel = some (.write hash) then (true, m.erase rel) else (false, m)

/-- Should an observed disappearance be swallowed?  Consumes the entry on match. -/
def checkDelete (m : Suppressor) (rel : Path) : Bool × Suppressor :=
  if m.get? rel = some .delete then (true, m.erase rel) else (false, m)

end Suppressor

/-! ### Observations -/

/-- What one pass over a replicated node yields. -/
inductive Observed
  | file (manifest : Manifest) (metadata : Meta)
  | symlink (metadata : Meta) (target : List Byte)
  | special (metadata : Meta)

namespace Observed

/-- The metadata of the node. -/
def metadata : Observed → Meta
  | file _ m | symlink m _ | special m => m

/-- The manifest of a regular file. -/
def manifest : Observed → Option Manifest
  | file manifest _ => some manifest
  | symlink _ _ | special _ => none

/-- The size of the payload. -/
def size : Observed → U64
  | file manifest _ => Fin.ofNat _ (manifest.chunks.map (·.len.val)).sum
  | symlink _ target => Fin.ofNat _ target.length
  | special _ => 0

variable [Blake3]

/-- The hash of the payload; special nodes have none. -/
def contentHash : Observed → Option Hash
  | file manifest _ => some manifest.contentHash
  | symlink _ target => some (Blake3.hash target)
  | special _ => none

end Observed

section

variable [Blake3]

/-- The change that is handed to the store: a write of what is there, or a delete. -/
def observedChange (path : Path) : Option Observed → LocalChange
  | some o =>
    { path, opType := .write, mode := o.metadata.mode, size := o.size, contentHash := o.contentHash,
      metadata := some o.metadata, manifest := o.manifest }
  | none =>
    { path, opType := .delete, mode := 0, size := 0, contentHash := none, metadata := none,
      manifest := none }

/-- The suppression check of an observation. -/
def checkObserved (m : Suppressor) (path : Path) : Option Observed → Bool × Suppressor
  | some o => m.checkWrite path (o.contentHash.getD 0)
  | none => m.checkDelete path

end

/-! ### The system -/

/-- How far the remote apply is. -/
inductive Phase
  | idle
  | registered
  | published
  | committed
  deriving DecidableEq

/-- The disk has changed. -/
def Phase.onDisk : Phase → Bool
  | idle | registered => false
  | published | committed => true

/-- An observation under way: what it saw and when, and whether it has passed the suppression
check. -/
structure Look where
  node : Option Observed
  phase : Phase
  checked : Bool

/-- The path on disk, the store and the suppressor, the apply, and the observations under way. -/
structure EchoState where
  disk : Option Observed
  store : Store
  suppress : Suppressor
  phase : Phase
  looks : ℕ → Option Look
  /-- The local ops emitted so far. -/
  emitted : List OpRecord

/-- The steps of the apply and of the observers, and a change by a user. -/
inductive EchoAct
  | register
  | publish
  | commit
  | look (n : ℕ)
  | check (n : ℕ)
  | append (n : ℕ)
  | change (d : Option Observed)

/-- A remote apply of `op` at a node: what it leaves at the path. -/
structure RemoteApply where
  nodeId : NodeId
  op : OpRecord
  target : Option Observed

namespace RemoteApply

/-- A step can be taken. -/
def Enabled (s : EchoState) : EchoAct → Prop
  | .register => s.phase = .idle
  | .publish => s.phase = .registered
  | .commit => s.phase = .published
  | .look n => s.looks n = none
  | .check n => ∃ l, s.looks n = some l ∧ l.checked = false
  | .append n => ∃ l, s.looks n = some l ∧ l.checked = true
  | .change _ => True

section

variable [Blake3] (a : RemoteApply)

/-- The row is committed; a failed transaction leaves the store as it is. -/
def commitRow (st : Store) : Store :=
  match st.applyRemote a.op .apply with
  | .ok (_, st') => st'
  | .error _ => st

/-- One step. -/
def step (s : EchoState) : EchoAct → EchoState
  | .register =>
    { s with
      phase := .registered
      suppress := match a.target with
        | some o => s.suppress.registerWrite a.op.path (o.contentHash.getD 0)
        | none => s.suppress.registerDelete a.op.path }
  | .publish => { s with phase := .published, disk := a.target }
  | .commit => { s with phase := .committed, store := a.commitRow s.store }
  | .look n =>
    { s with looks := Function.update s.looks n (some ⟨s.disk, s.phase, false⟩) }
  | .check n =>
    match s.looks n with
    | none => s
    | some l =>
      let checked := checkObserved s.suppress a.op.path l.node
      if checked.1 then
        { s with suppress := checked.2, looks := Function.update s.looks n none }
      else { s with looks := Function.update s.looks n (some { l with checked := true }) }
  | .append n =>
    match s.looks n with
    | none => s
    | some l =>
      match s.store.appendLocal a.nodeId (observedChange a.op.path l.node) with
      | .ok (op, st) =>
        { s with
          store := st
          looks := Function.update s.looks n none
          emitted := s.emitted ++ op.toList }
      | .error _ => { s with looks := Function.update s.looks n none }
  | .change d => { s with disk := d }

/-- What the no-op filter sees of a node. -/
def seen (d : Option Observed) : Option (Option Hash × Hash) :=
  d.map fun o => (o.contentHash, Meta.hashOf (some o.metadata))

/-- What the no-op filter sees of a row: nothing if there is none or it is a tombstone. -/
def seenRow (row : Option FileRow) : Option (Option Hash × Hash) :=
  row.bind fun r => if r.tombstone then none else some (r.contentHash, Meta.hashOf r.metadata)

/-- The row says what is on the disk. -/
def Matches (st : Store) (d : Option Observed) : Prop :=
  seenRow (st.loadRow a.op.path) = seen d

/-- A remote write or delete that is to be applied, and that leaves on disk what the op says. -/
structure Starts (s : EchoState) : Prop where
  /-- The disk is as the row says, and nothing is under way. -/
  current : a.Matches s.store s.disk
  phase : s.phase = .idle
  looks : ∀ n, s.looks n = none
  emitted : s.emitted = []
  /-- The op is new and dominates the row. -/
  fresh : a.op.opId ∉ s.store.applied
  applies : ∀ r, s.store.files.get? a.op.path = some r → r.vv < a.op.vv
  pathOld : a.op.pathOld = none
  /-- The metadata is captured back exactly. -/
  exact : match a.target with
    | some o => a.op.opType = .write ∧ a.op.contentHash = o.contentHash ∧
        a.op.metadata = some o.metadata
    | none => a.op.opType = .delete

/-- An observation reaches the store on the other side of the commit than it looked of the change of
the disk. -/
def Crosses (s : EchoState) : EchoAct → Prop
  | .append n => ∃ l, s.looks n = some l ∧ (l.phase.onDisk = true ↔ s.phase ≠ .committed)
  | _ => False

/-- A step of the apply or of an observer. -/
def NoUser : EchoAct → Prop
  | .change _ => False
  | _ => True

/-! ### The store's filter -/

theorem isNoOp_iff (row : Option FileRow) (path : Path) (d : Option Observed) :
    Store.isNoOp row (observedChange path d) = true ↔ seenRow row = seen d := by
  cases d with
  | none =>
    cases row with
    | none => simp [Store.isNoOp, observedChange, seenRow, seen]
    | some r => simp [Store.isNoOp, observedChange, seenRow, seen]
  | some o =>
    cases row with
    | none => simp [Store.isNoOp, observedChange, seenRow, seen]
    | some r =>
      cases ht : r.tombstone with
      | true => simp [Store.isNoOp, observedChange, seenRow, seen, ht]
      | false =>
        simp only [Store.isNoOp, observedChange, seenRow, seen, ht, Option.bind_some, Option.map_some,
          Bool.not_false, Bool.true_and, Bool.and_eq_true, Bool.false_eq_true, if_false,
          Option.some.injEq, Prod.mk.injEq]
        exact and_congr decide_eq_true_iff decide_eq_true_iff

/-- The row is exactly what is on the disk. -/
def RowIs (st : Store) (path : Path) : Option Observed → Prop
  | some o => ∃ r, st.files.get? path = some r ∧ r.tombstone = false ∧
      r.contentHash = o.contentHash ∧ r.metadata = some o.metadata ∧ r.mode = o.metadata.mode ∧
      r.size = o.size
  | none => ∃ r, st.files.get? path = some r ∧ r.tombstone = true

theorem seenRow_of_rowIs {st : Store} {path : Path} {d : Option Observed} (h : RowIs st path d) :
    seenRow (st.loadRow path) = seen d := by
  cases d with
  | none =>
    obtain ⟨r, hr, ht⟩ := h
    simp [Store.loadRow, seenRow, seen, hr, ht]
  | some o =>
    obtain ⟨r, hr, ht, hc, hm, -, -⟩ := h
    simp [Store.loadRow, seenRow, seen, hr, ht, hc, hm]

/-- An observation of what the row says changes nothing. -/
theorem appendLocal_of_matches {nodeId : NodeId} {st : Store} {path : Path} {d : Option Observed}
    (h : seenRow (st.loadRow path) = seen d) :
    st.appendLocal nodeId (observedChange path d) = .ok (none, st) := by
  have hpath : (observedChange path d).path = path := by cases d <;> rfl
  have hren : (observedChange path d).opType ≠ .rename := by cases d <;> simp [observedChange]
  rw [Store.appendLocal, if_neg hren, hpath, if_pos ((isNoOp_iff _ path d).2 h)]

/-- An observation of anything else becomes an op, and the row follows the disk. -/
theorem appendLocal_of_differs (nodeId : NodeId) {st : Store} {path : Path} {d : Option Observed}
    (h : seenRow (st.loadRow path) ≠ seen d) :
    ∃ op st', st.appendLocal nodeId (observedChange path d) = .ok (some op, st') ∧
      RowIs st' path d := by
  have hpath : (observedChange path d).path = path := by cases d <;> rfl
  have hren : (observedChange path d).opType ≠ .rename := by cases d <;> simp [observedChange]
  have hno : ¬ Store.isNoOp (st.loadRow path) (observedChange path d) = true := fun hno =>
    h ((isNoOp_iff _ path d).1 hno)
  obtain ⟨o, st', hrun⟩ : ∃ o st',
      st.appendLocal nodeId (observedChange path d) = .ok (o, st') := by
    rw [Store.appendLocal, if_neg hren, hpath, if_neg hno]
    cases d with
    | none => exact ⟨_, _, rfl⟩
    | some node =>
      cases node with
      | file manifest metadata => exact ⟨_, _, if_pos rfl⟩
      | symlink metadata target => exact ⟨_, _, rfl⟩
      | special metadata => exact ⟨_, _, rfl⟩
  rcases Store.appendLocal_cases hrun with ⟨-, -, hnoop⟩ | ⟨rfl, -, -, hfiles, -⟩
  · rw [hpath] at hnoop
    exact absurd hnoop hno
  · refine ⟨_, st', hrun, ?_⟩
    rw [hpath] at hfiles
    cases d with
    | none => exact ⟨_, by rw [hfiles, OrdMap.get?_insert_self], rfl⟩
    | some o => exact ⟨_, by rw [hfiles, OrdMap.get?_insert_self], rfl, rfl, rfl, rfl, rfl⟩

/-! ### Runs without a user -/

section

variable {a : RemoteApply} {s₀ : EchoState}

/-- The row that the commit leaves says what the apply has left on the disk. -/
theorem Starts.committed (h : a.Starts s₀) : a.Matches (a.commitRow s₀.store) a.target := by
  have hwf : a.op.WellFormed := by
    refine .inr ⟨?_, h.pathOld⟩
    have hexact := h.exact
    split at hexact
    · simp [hexact.1]
    · simp [hexact]
  obtain ⟨e, st', hrun, -, -, -, -, hfiles⟩ := Store.applyRemote_files hwf h.fresh .apply
  have hrow := (hfiles a.op.path).1 ⟨.inl ⟨rfl, rfl⟩, h.applies⟩
  have hexact := h.exact
  rw [Matches, commitRow, hrun]
  dsimp only
  split at hexact
  · rename_i o htarget
    obtain ⟨htype, hcontent, hmeta⟩ := hexact
    simp [Store.loadRow, hrow, effectRow, Store.appliedRow, htype, htarget, seenRow, seen,
      hcontent, hmeta]
  · rename_i htarget
    simp [Store.loadRow, hrow, effectRow, Store.appliedRow, hexact, htarget, seenRow, seen]

/-- While nothing is emitted: the store is the one before or after the commit, the disk the one
before or after the change, and every observation has seen the disk of its time. -/
structure Quiet (a : RemoteApply) (s₀ s : EchoState) : Prop where
  emitted : s.emitted = []
  store : s.store = if s.phase = .committed then a.commitRow s₀.store else s₀.store
  disk : s.disk = if s.phase.onDisk then a.target else s₀.disk
  looks : ∀ n l, s.looks n = some l → l.node = if l.phase.onDisk then a.target else s₀.disk

theorem Starts.quiet (h : a.Starts s₀) : a.Quiet s₀ s₀ := by
  refine ⟨h.emitted, ?_, ?_, fun n l hl => ?_⟩
  · rw [h.phase]
    rfl
  · rw [h.phase]
    rfl
  · rw [h.looks n] at hl
    cases hl

/-- What an observation hands to the store in a quiet state: something that the row says already,
unless it crosses the commit. -/
theorem Quiet.matches_iff {s : EchoState} (hq : a.Quiet s₀ s) (h : a.Starts s₀) {n : ℕ} {l : Look}
    (hl : s.looks n = some l) :
    a.Matches s.store l.node ↔
      (seen s₀.disk = seen a.target ∨ ¬ (l.phase.onDisk = true ↔ s.phase ≠ .committed)) := by
  have hnew := h.committed
  have hold := h.current
  unfold Matches at hnew hold ⊢
  rw [hq.store, hq.looks n l hl]
  by_cases hcom : s.phase = .committed
  · cases hdisk : l.phase.onDisk with
    | true => simp [hcom, hnew]
    | false => simp [hcom, hnew, eq_comm]
  · cases hdisk : l.phase.onDisk with
    | true => simp [hcom, hold]
    | false => simp [hcom, hold]

/-- A step that is no crossing emits nothing. -/
theorem Quiet.step {s : EchoState} (hq : a.Quiet s₀ s) (h : a.Starts s₀) {act : EchoAct}
    (hen : Enabled s act) (huser : NoUser act)
    (hcross : seen s₀.disk = seen a.target ∨ ¬ Crosses s act) : a.Quiet s₀ (a.step s act) := by
  have hlooks : ∀ n (l' : Option Look), (∀ l, l' = some l →
        l.node = if l.phase.onDisk then a.target else s₀.disk) →
      ∀ m l, Function.update s.looks n l' m = some l →
        l.node = if l.phase.onDisk then a.target else s₀.disk := by
    intro n l' hl' m l hl
    by_cases hm : m = n
    · subst hm
      rw [Function.update_self] at hl
      exact hl' l hl
    · rw [Function.update_of_ne hm] at hl
      exact hq.looks m l hl
  cases act with
  | register =>
    have hphase : s.phase = .idle := hen
    refine ⟨hq.emitted, ?_, ?_, hq.looks⟩
    · simpa [RemoteApply.step, hphase] using hq.store
    · simpa [RemoteApply.step, hphase, Phase.onDisk] using hq.disk
  | publish =>
    have hphase : s.phase = .registered := hen
    refine ⟨hq.emitted, ?_, rfl, hq.looks⟩
    simpa [RemoteApply.step, hphase] using hq.store
  | commit =>
    have hphase : s.phase = .published := hen
    have hstore := hq.store
    rw [if_neg (by simp [hphase])] at hstore
    refine ⟨hq.emitted, ?_, ?_, hq.looks⟩
    · simp [RemoteApply.step, hstore]
    · simpa [RemoteApply.step, hphase, Phase.onDisk] using hq.disk
  | look n =>
    refine ⟨hq.emitted, hq.store, hq.disk, hlooks n _ ?_⟩
    rintro l ⟨⟩
    exact hq.disk
  | check n =>
    obtain ⟨l, hl, -⟩ := hen
    simp only [RemoteApply.step, hl]
    split_ifs
    · exact ⟨hq.emitted, hq.store, hq.disk, hlooks n none (by simp)⟩
    · refine ⟨hq.emitted, hq.store, hq.disk, hlooks n _ ?_⟩
      rintro l' ⟨⟩
      exact hq.looks n l hl
  | append n =>
    obtain ⟨l, hl, -⟩ := hen
    have hmatch : a.Matches s.store l.node := by
      refine (hq.matches_iff h hl).2 (hcross.imp_right fun hno hside => hno ⟨l, hl, hside⟩)
    simp only [RemoteApply.step, hl, appendLocal_of_matches hmatch]
    refine ⟨?_, hq.store, hq.disk, hlooks n none (by simp)⟩
    simpa using hq.emitted
  | change d => exact absurd huser id

/-- A crossing emits an op. -/
theorem Quiet.emits {s : EchoState} (hq : a.Quiet s₀ s) (h : a.Starts s₀) {act : EchoAct}
    (hdiff : seen s₀.disk ≠ seen a.target) (hcross : Crosses s act) :
    (a.step s act).emitted ≠ [] := by
  cases act with
  | append n =>
    obtain ⟨l, hl, hside⟩ := hcross
    have hnot : ¬ a.Matches s.store l.node := by
      rw [hq.matches_iff h hl]
      rintro (heq | hno)
      · exact hdiff heq
      · exact hno hside
    obtain ⟨op, st', hrun, -⟩ := appendLocal_of_differs a.nodeId hnot
    simp [RemoteApply.step, hl, hrun]
  | register => exact absurd hcross id
  | publish => exact absurd hcross id
  | commit => exact absurd hcross id
  | look n => exact absurd hcross id
  | check n => exact absurd hcross id
  | change d => exact absurd hcross id

/-- What is emitted stays. -/
theorem emitted_step (s : EchoState) (act : EchoAct) : s.emitted <+: (a.step s act).emitted := by
  cases act with
  | check n =>
    simp only [RemoteApply.step]
    split
    · exact List.prefix_refl _
    · split_ifs
      · exact List.prefix_refl _
      · exact List.prefix_refl _
  | append n =>
    simp only [RemoteApply.step]
    split
    · exact List.prefix_refl _
    · split
      · exact List.prefix_append _ _
      · exact List.prefix_refl _
  | register => exact List.prefix_refl _
  | publish => exact List.prefix_refl _
  | commit => exact List.prefix_refl _
  | look n => exact List.prefix_refl _
  | change d => exact List.prefix_refl _

theorem emitted_change (s : EchoState) (d : Option Observed) :
    (a.step s (.change d)).emitted = s.emitted := rfl

theorem emitted_run (s : EchoState) (acts : List EchoAct) :
    s.emitted <+: (acts.foldl a.step s).emitted := by
  induction acts generalizing s with
  | nil => exact List.prefix_refl _
  | cons act acts ih => exact (emitted_step s act).trans (ih _)

/-- A run without a user stays quiet exactly if the apply changes nothing that can be seen, or no
observation crosses the commit. -/
theorem Quiet.run_iff {s : EchoState} (hq : a.Quiet s₀ s) (h : a.Starts s₀) {acts : List EchoAct}
    (hrun : Lts.AllOk (fun s act => Enabled s act ∧ NoUser act) a.step s acts) :
    (acts.foldl a.step s).emitted = [] ↔
      (seen s₀.disk = seen a.target ∨ Lts.AllOk (fun s act => ¬ Crosses s act) a.step s acts) := by
  induction acts generalizing s with
  | nil => simp [Lts.AllOk, hq.emitted]
  | cons act acts ih =>
    obtain ⟨⟨hen, huser⟩, hrest⟩ := hrun
    by_cases hcross : seen s₀.disk = seen a.target ∨ ¬ Crosses s act
    · rw [List.foldl_cons, ih (hq.step h hen huser hcross) hrest]
      simp only [Lts.AllOk]
      constructor
      · rintro (heq | hall)
        · exact .inl heq
        · exact hcross.imp_right fun hno => ⟨hno, hall⟩
      · rintro (heq | ⟨-, hall⟩)
        · exact .inl heq
        · exact .inr hall
    · obtain ⟨hdiff, hcross⟩ := not_or.1 hcross
      have hemits := hq.emits h hdiff (not_not.1 hcross)
      refine iff_of_false (fun hnil => hemits ?_) ?_
      · have hpre := emitted_run (a := a) (a.step s act) acts
        rw [List.foldl_cons] at hnil
        rw [hnil] at hpre
        exact List.prefix_nil.1 hpre
      · rintro (heq | ⟨hno, -⟩)
        · exact hdiff heq
        · exact hcross hno

end

/-! ### A change by a user -/

/-- A whole observation. -/
def observe (s : EchoState) (n : ℕ) : EchoState :=
  [EchoAct.look n, .check n, .append n].foldl a.step s

variable {a}

/-- An observation is swallowed, with the entry that did it, or reaches the store. -/
theorem observe_cases {s : EchoState} {n : ℕ} :
    (a.observe s n = { s with
        suppress := (checkObserved s.suppress a.op.path s.disk).2
        looks := Function.update s.looks n none } ∧
      (checkObserved s.suppress a.op.path s.disk).1 = true) ∨
    (checkObserved s.suppress a.op.path s.disk).1 = false ∧
      ∃ op st, s.store.appendLocal a.nodeId (observedChange a.op.path s.disk) = .ok (op, st) ∧
        a.observe s n = { s with
          store := st
          looks := Function.update s.looks n none
          emitted := s.emitted ++ op.toList } := by
  cases hhit : (checkObserved s.suppress a.op.path s.disk).1 with
  | true =>
    refine .inl ⟨?_, rfl⟩
    simp [observe, step, hhit]
  | false =>
    refine .inr ⟨rfl, ?_⟩
    obtain ⟨op, st, hrun⟩ : ∃ op st,
        s.store.appendLocal a.nodeId (observedChange a.op.path s.disk) = .ok (op, st) := by
      by_cases hmatch : a.Matches s.store s.disk
      · exact ⟨_, _, appendLocal_of_matches hmatch⟩
      · obtain ⟨op, st, hrun, -⟩ := appendLocal_of_differs a.nodeId hmatch
        exact ⟨_, _, hrun⟩
    exact ⟨op, st, hrun, by simp [observe, step, hhit, hrun]⟩

theorem disk_observe (s : EchoState) (n : ℕ) : (a.observe s n).disk = s.disk := by
  rcases observe_cases (a := a) (s := s) (n := n) with ⟨heq, -⟩ | ⟨-, op, st, -, heq⟩
  · rw [heq]
  · rw [heq]

/-- Once the row says what is on the disk, an observation changes neither store nor ops. -/
theorem observe_of_matches {s : EchoState} (h : a.Matches s.store s.disk) (n : ℕ) :
    (a.observe s n).store = s.store ∧ (a.observe s n).emitted = s.emitted := by
  rcases observe_cases (a := a) (s := s) (n := n) with ⟨heq, -⟩ | ⟨-, op, st, hrun, heq⟩
  · rw [heq]
    exact ⟨rfl, rfl⟩
  · rw [appendLocal_of_matches h] at hrun
    cases hrun
    rw [heq]
    exact ⟨rfl, List.append_nil _⟩

theorem observeAll_of_matches {s : EchoState} (h : a.Matches s.store s.disk) (ns : List ℕ) :
    (ns.foldl a.observe s).store = s.store ∧ (ns.foldl a.observe s).emitted = s.emitted := by
  induction ns generalizing s with
  | nil => exact ⟨rfl, rfl⟩
  | cons n ns ih =>
    obtain ⟨hstore, hemitted⟩ := observe_of_matches h n
    have hnext : a.Matches (a.observe s n).store (a.observe s n).disk := by
      rw [hstore, disk_observe]
      exact h
    obtain ⟨hstore', hemitted'⟩ := ih hnext
    exact ⟨hstore'.trans hstore, hemitted'.trans hemitted⟩

/-- An observation of a difference is swallowed, and then the suppressor has no entry left, or it
becomes an op. -/
theorem observe_of_differs {s : EchoState} (h : ¬ a.Matches s.store s.disk) (n : ℕ) :
    ((a.observe s n).store = s.store ∧ (a.observe s n).emitted = s.emitted ∧
      (a.observe s n).suppress.get? a.op.path = none) ∨
    ∃ op, (a.observe s n).emitted = s.emitted ++ [op] ∧
      RowIs (a.observe s n).store a.op.path s.disk := by
  rcases observe_cases (a := a) (s := s) (n := n) with ⟨heq, hhit⟩ | ⟨-, op, st, hrun, heq⟩
  · refine .inl ⟨by rw [heq], by rw [heq], ?_⟩
    rw [heq]
    dsimp only
    cases hdisk : s.disk with
    | none =>
      simp only [hdisk, checkObserved, Suppressor.checkDelete] at hhit ⊢
      split_ifs at hhit ⊢
      exact OrdMap.get?_erase_self _ _
    | some o =>
      simp only [hdisk, checkObserved, Suppressor.checkWrite] at hhit ⊢
      split_ifs at hhit ⊢
      exact OrdMap.get?_erase_self _ _
  · obtain ⟨op', st', hrun', hrow⟩ := appendLocal_of_differs a.nodeId h
    rw [hrun] at hrun'
    cases hrun'
    rw [heq]
    exact .inr ⟨op', rfl, hrow⟩

/-- Without an entry nothing is swallowed. -/
theorem observe_of_no_entry {s : EchoState} (h : ¬ a.Matches s.store s.disk)
    (hnone : s.suppress.get? a.op.path = none) (n : ℕ) :
    ∃ op, (a.observe s n).emitted = s.emitted ++ [op] ∧
      RowIs (a.observe s n).store a.op.path s.disk := by
  rcases observe_cases (a := a) (s := s) (n := n) with ⟨-, hhit⟩ | ⟨-, op, st, hrun, heq⟩
  · cases hdisk : s.disk with
    | none => simp [hdisk, checkObserved, Suppressor.checkDelete, hnone] at hhit
    | some o => simp [hdisk, checkObserved, Suppressor.checkWrite, hnone] at hhit
  · obtain ⟨op', st', hrun', hrow⟩ := appendLocal_of_differs a.nodeId h
    rw [hrun] at hrun'
    cases hrun'
    rw [heq]
    exact ⟨op', rfl, hrow⟩

/-- After a change of the disk that the row does not say, two observations emit one op and bring the
row to the disk, and further ones emit nothing. -/
theorem change_noticed {s : EchoState} (h : ¬ a.Matches s.store s.disk) (n m : ℕ) :
    ∃ op, (a.observe (a.observe s n) m).emitted = s.emitted ++ [op] ∧
      RowIs (a.observe (a.observe s n) m).store a.op.path s.disk ∧
      ∀ ns : List ℕ, (ns.foldl a.observe (a.observe (a.observe s n) m)).emitted =
        s.emitted ++ [op] := by
  have hfinish : ∀ op, (a.observe (a.observe s n) m).emitted = s.emitted ++ [op] →
      RowIs (a.observe (a.observe s n) m).store a.op.path s.disk →
      ∃ op, (a.observe (a.observe s n) m).emitted = s.emitted ++ [op] ∧
        RowIs (a.observe (a.observe s n) m).store a.op.path s.disk ∧
        ∀ ns : List ℕ, (ns.foldl a.observe (a.observe (a.observe s n) m)).emitted =
          s.emitted ++ [op] := by
    intro op hop hrow
    refine ⟨op, hop, hrow, fun ns => ?_⟩
    have hmatch : a.Matches (a.observe (a.observe s n) m).store
        (a.observe (a.observe s n) m).disk := by
      rw [disk_observe, disk_observe]
      exact seenRow_of_rowIs hrow
    rw [(observeAll_of_matches hmatch ns).2, hop]
  rcases observe_of_differs h n with ⟨hstore, hemitted, hnone⟩ | ⟨op, hop, hrow⟩
  · have hdiff : ¬ a.Matches (a.observe s n).store (a.observe s n).disk := by
      rw [hstore, disk_observe]
      exact h
    obtain ⟨op, hop, hrow⟩ := observe_of_no_entry hdiff hnone m
    rw [hemitted] at hop
    rw [disk_observe] at hrow
    exact hfinish op hop hrow
  · have hmatch : a.Matches (a.observe s n).store (a.observe s n).disk := by
      rw [disk_observe]
      exact seenRow_of_rowIs hrow
    obtain ⟨hstore, hemitted⟩ := observe_of_matches hmatch m
    refine hfinish op (hemitted.trans hop) ?_
    rw [hstore]
    exact hrow

end

section Example

attribute [local instance] Blake3.polynomial

/-- A regular file with three bytes. -/
def smallFile : Observed :=
  .file ⟨5, [⟨7, 3⟩]⟩ ⟨.regular, 0o644, 0, 0, 1, 0, none, 0, []⟩

/-- Node 1 applies a file that node 2 has created. -/
def newFile : RemoteApply where
  nodeId := 1
  op :=
    { opId := 9, origin := 2, originSeq := 1, opType := .write, path := ['f'], pathOld := none,
      uuid := some 2, mode := 0o644, size := 3, contentHash := some 5,
      metadata := some ⟨.regular, 0o644, 0, 0, 1, 0, none, 0, []⟩,
      vv := VersionVector.fromIter [(2, 1)] }
  target := some smallFile

/-- There is nothing yet, neither on disk nor in the store. -/
def nothingYet : EchoState where
  disk := none
  store := {}
  suppress := OrdMap.empty
  phase := .idle
  looks _ := none
  emitted := []

theorem starts_newFile : newFile.Starts nothingYet where
  current := rfl
  phase := rfl
  looks _ := rfl
  emitted := rfl
  fresh := by simp [nothingYet]
  applies r hr := by cases hr
  pathOld := rfl
  exact := ⟨rfl, rfl, rfl⟩

/-- One observation between the change of the disk and the commit, and one afterwards. -/
def quietActs : List EchoAct :=
  [.register, .publish, .look 0, .check 0, .commit, .look 1, .check 1, .append 1]

end Example

end RemoteApply

end Replicore
