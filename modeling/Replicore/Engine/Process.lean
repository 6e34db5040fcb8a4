import Replicore.Disk.Apply
import Replicore.Fetch.Basic
import Replicore.Lib.Calls
import Replicore.Replica.Basic

/-!
# The engine's receive path

`process_remote_op` of `net.rs` with what it calls: the materialization of an op that was decided
`apply`, the staging of planned rows, and the resolution loop; beside it the same loop as
`merkle.rs` runs it for a leaf.

The tables are the data of these programs.  The fetches and the steps on the disk are calls of the
world: what they do there is left open, and each may fail.  A transfer that the size cap refuses is
a fetch that fails, and so is the staging of a planned row that can not be staged; an op that is
refused because of what it carries is not.
-/

namespace Replicore

open Calls Disk

/-- Errors of the engine. -/
inductive NetError
  | store (e : StoreError)
  | apply (e : ApplyError)
  | violation (what : String)
  | contentUnavailable
  | tooBig
  | fetch (e : FetchError)
  | io
  | join

/-- Would retrying this op ever succeed?  If not, it is quarantined. -/
def NetError.isPermanent : NetError → Bool
  | violation _ | contentUnavailable | tooBig => true
  | apply (.unsafePath _) | apply (.hashMismatch _) => true
  | apply (.io _ .isdir) | apply (.io _ .notdir) => true
  | apply _ => false
  | fetch e => e.isPermanent
  | store _ | io | join => false

/-- What the functions use of the configuration. -/
structure EngineConfig where
  maxFileBytes : U64
  ownerPolicy : OwnerPolicy

/-- The steps on the disk that both resolution loops use. -/
structure DiskSteps (ε σ : Type) where
  applyVersion : Path → U32 → Option Hash → Option Manifest → Option Meta → OwnerPolicy →
    EStateM ε σ PUnit
  applyDelete : Path → EStateM ε σ PUnit

/-- The fetches and the steps on the disk that the engine uses. -/
structure EngineSteps (σ : Type) extends DiskSteps NetError σ where
  /-- The manifest of a content, as the live connections deliver it. -/
  askManifest : Hash → NodeId → EStateM NetError σ Manifest
  fetchFileChunks : Manifest → NodeId → EStateM NetError σ PUnit
  applyMetaOnly : Path → Hash → Meta → OwnerPolicy → EStateM NetError σ PUnit
  /-- Whether the local file at the source was moved. -/
  applyRename : Path → Path → U32 → Hash → Option Meta → OwnerPolicy → EStateM NetError σ Bool

/-- What a pull session uses: its transport delivers the content and its manifest. -/
structure LeafSteps (ε σ : Type) extends DiskSteps ε σ where
  ensureContent : Hash → EStateM ε σ Manifest

/-- The kind of a version; without metadata it is a regular file. -/
def kindOf (metadata : Option Meta) : FileKind := (metadata.map (·.kind)).getD .regular

/-! ### The resolution loop -/

section

variable {ε σ : Type}

/-- One command of the store. -/
def command {α : Type} (ofStore : StoreError → ε) (f : Store → Except StoreError (α × Store)) :
    Prog ε Store σ α :=
  Prog.own fun st => (f st).mapError ofStore

/-- Make the disk agree with the committed row for `path`; what goes wrong is logged. -/
def restoreLocalContent (disk : DiskSteps ε σ) (path : Path) : Prog ε Store σ PUnit := do
  let st ← Prog.reading id
  match st.loadRow path with
  | none => Prog.optional (disk.applyDelete path)
  | some row =>
    if row.tombstone then Prog.optional (disk.applyDelete path)
    else if kindOf row.metadata ≠ .regular then
      Prog.optional
        (disk.applyVersion path row.mode row.contentHash none row.metadata .numeric)
    else match row.contentHash with
      | none => pure ⟨⟩
      | some hash =>
        match st.manifestFor hash with
        | none => pure ⟨⟩
        | some manifest =>
          Prog.optional
            (disk.applyVersion path row.mode (some hash) (some manifest) row.metadata .numeric)

/-- Restore every path that was staged. -/
def restorePaths (disk : DiskSteps ε σ) : List Path → Prog ε Store σ PUnit
  | [] => pure ⟨⟩
  | path :: paths => do
    restoreLocalContent disk path
    restorePaths disk paths

/-- Stage the rows of a plan one after the other, up to the first that fails. -/
def stagePlan (stage : PlannedRow → Prog ε Store σ Bool) :
    List PlannedRow → List Path → Prog ε Store σ (Option ε × List Path)
  | [], stagedPaths => pure (none, stagedPaths)
  | row :: rows, stagedPaths => do
    match ← (stage row).noting.attempt with
    | .ok touched => stagePlan stage rows (if touched then stagedPaths ++ [row.path] else stagedPaths)
    | .error e => pure (some e, stagedPaths)

variable [Blake3]

/-- The rounds of a resolution: ask the store for the plan, stage it, commit.  Returns the error of
a staging that failed, and otherwise whether the resolution was committed. -/
def resolveLoop (ofStore : StoreError → ε) (disk : DiskSteps ε σ)
    (stage : PlannedRow → Prog ε Store σ Bool) (path : Path) (remote : Version) :
    ℕ → List PlannedRow → List Path → Prog ε Store σ (Except ε Bool)
  | 0, _, stagedPaths => do
    restorePaths disk stagedPaths
    pure (.ok false)
  | n + 1, staged, stagedPaths => do
    match ← command ofStore fun st => st.resolveRows path remote staged with
    | .resolved => pure (.ok true)
    | .notConcurrent _ | .unresolvable =>
      restorePaths disk stagedPaths
      pure (.ok false)
    | .stale plan =>
      match ← stagePlan stage plan stagedPaths with
      | (some e, stagedPaths) =>
        restorePaths disk stagedPaths
        pure (.error e)
      | (none, stagedPaths) => resolveLoop ofStore disk stage path remote n plan stagedPaths

/-- The row at the path already is what is planned, but for its vector. -/
def alreadyCurrent (st : Store) (row : PlannedRow) : Bool :=
  match st.loadRow row.path with
  | none => false
  | some cur => !cur.tombstone && cur.contentHash = row.contentHash &&
      Meta.hashOf cur.metadata = Meta.hashOf row.metadata

end

/-! ### A leaf of a pull session -/

section

variable {ε σ : Type} [Blake3]

/-- The manifest of a planned row: only regular content has one.  A fetched manifest is stored. -/
def LeafSteps.plannedManifest (steps : LeafSteps ε σ) (row : PlannedRow) :
    Prog ε Store σ (Option Manifest) :=
  match row.contentHash, decide (kindOf row.metadata = .regular) with
  | some hash, true => do
    match ← Prog.reading fun st => st.manifestFor hash with
    | some m => pure (some m)
    | none =>
      let m ← Prog.call (steps.ensureContent hash)
      Prog.own fun st => .ok (some m, st.putManifest m)
  | _, _ => pure none

/-- Stage one planned row in a pull session.  Returns whether the disk was touched. -/
def LeafSteps.stagePlannedRow (steps : LeafSteps ε σ) (policy : OwnerPolicy) (row : PlannedRow) :
    Prog ε Store σ Bool := do
  if row.tombstone then
    Prog.call (steps.applyDelete row.path)
    pure true
  else if ← Prog.reading fun st => alreadyCurrent st row then pure false
  else
    let manifest ← steps.plannedManifest row
    Prog.call
      (steps.applyVersion row.path row.mode row.contentHash manifest row.metadata policy)
    pure true

/-- The conflict-resolution loop, reconcile flavor.  Returns whether it was committed. -/
def LeafSteps.resolveConcurrentLeaf (steps : LeafSteps ε σ) (ofStore : StoreError → ε)
    (policy : OwnerPolicy) (path : Path) (rleaf : Row) : Prog ε Store σ Bool := do
  match ← resolveLoop ofStore steps.toDiskSteps (steps.stagePlannedRow policy) path
    (Version.fromRow rleaf) 4 [] [] with
  | .ok committed => pure committed
  | .error e => Prog.throw e

end

/-! ### The engine -/

namespace EngineSteps

variable {σ : Type} (steps : EngineSteps σ) (cfg : EngineConfig)

/-- The manifest of a content: the tables first, then the connections.  A fetched manifest is stored
before it is returned. -/
def obtainManifest (hash : Hash) (origin : NodeId) : Prog NetError Store σ Manifest := do
  match ← Prog.reading fun st => st.manifestFor hash with
  | some m => pure m
  | none =>
    let m ← Prog.call (steps.askManifest hash origin)
    Prog.own fun st => .ok (m, st.putManifest m)

/-- Manifest, missing chunks, streamed atomic assembly, for a file within the size cap. -/
def fetchContent (path : Path) (mode : U32) (size : U64) (hash : Hash) (metadata : Option Meta)
    (origin : NodeId) : Prog NetError Store σ PUnit := do
  if cfg.maxFileBytes < size then (Prog.throw .tooBig).noting
  else
    let manifest ← steps.obtainManifest hash origin
    Prog.call (steps.fetchFileChunks manifest origin)
    Prog.call (steps.applyVersion path mode (some hash) (some manifest) metadata cfg.ownerPolicy)

/-- The fetch for an op that brings content. -/
def fetchAndAssemble (op : OpRecord) (hash : Hash) : Prog NetError Store σ PUnit :=
  steps.fetchContent cfg op.path op.mode op.size hash op.metadata op.origin

/-- The live local content is the one with this hash. -/
def haveContent (loc : Option LocalFile) (hash : Hash) : Bool :=
  loc.any fun l => !l.tombstone && l.contentHash = some hash

/-- The file system side of a write that was decided `apply`. -/
def materializeWrite (op : OpRecord) (loc : Option LocalFile) : Prog NetError Store σ PUnit :=
  if kindOf op.metadata ≠ .regular then
    Prog.call
      (steps.applyVersion op.path op.mode op.contentHash none op.metadata cfg.ownerPolicy)
  else match op.contentHash with
    | none => Prog.throw (.violation "write op without content hash")
    | some hash =>
      if haveContent loc hash then
        match op.metadata with
        | some m => Prog.call (steps.applyMetaOnly op.path hash m cfg.ownerPolicy)
        | none => pure ⟨⟩
      else steps.fetchAndAssemble cfg op hash

/-- The fast path of a rename: move the local file at the source if it is the right one. -/
def tryMove (op : OpRecord) (hash : Hash) (oldPath : Path) (oldDominated : Bool) :
    Prog NetError Store σ Bool :=
  if oldDominated ∧ kindOf op.metadata = .regular then
    Prog.call (steps.applyRename oldPath op.path op.mode hash op.metadata cfg.ownerPolicy)
  else pure false

/-- The target of a rename: moved, or else built anew. -/
def materializeTarget (op : OpRecord) (hash : Hash) (oldPath : Path) (oldDominated : Bool) :
    Prog NetError Store σ PUnit := do
  let moved ← steps.tryMove cfg op hash oldPath oldDominated
  if moved then pure ⟨⟩
  else if kindOf op.metadata ≠ .regular then
    Prog.call (steps.applyVersion op.path op.mode (some hash) none op.metadata cfg.ownerPolicy)
  else steps.fetchAndAssemble cfg op hash

/-- The file system side of a rename that was decided `apply`. -/
def materializeRename (op : OpRecord) (loc : Option LocalFile) : Prog NetError Store σ PUnit :=
  match op.contentHash, op.pathOld with
  | none, _ => Prog.throw (.violation "rename op without content hash")
  | some _, none => Prog.throw (.violation "rename op without path_old")
  | some hash, some oldPath => do
    let oldLocal ← Prog.reading fun st => st.loadFile oldPath
    let oldDominated := decide (Decision.decide oldLocal op.vv = .apply)
    Prog.when (haveContent loc hash = false)
      (steps.materializeTarget cfg op hash oldPath oldDominated)
    Prog.when (oldDominated = true) (Prog.call (steps.applyDelete oldPath))

/-- Execute the file system side of an op that was decided `apply`. -/
def materialize (op : OpRecord) (loc : Option LocalFile) : Prog NetError Store σ PUnit :=
  match op.opType with
  | .write => steps.materializeWrite cfg op loc
  | .delete => Prog.call (steps.applyDelete op.path)
  | .rename => steps.materializeRename cfg op loc

/-- The decision after the attempt to materialize: an op that never can be is quarantined. -/
def tryMaterialize (op : OpRecord) (loc : Option LocalFile) (decision : Decision) :
    Prog NetError Store σ Decision :=
  if decision = .apply then do
    match ← (steps.materialize cfg op loc).attempt with
    | .ok _ => pure decision
    | .error e => if e.isPermanent then pure .quarantined else Prog.throw e
  else pure decision

variable [Blake3]

/-- Stage one planned row.  Returns whether the disk was touched. -/
def stagePlannedRow (origin : NodeId) (row : PlannedRow) : Prog NetError Store σ Bool := do
  if row.tombstone then
    Prog.call (steps.applyDelete row.path)
    pure true
  else if ← Prog.reading fun st => alreadyCurrent st row then pure false
  else if kindOf row.metadata ≠ .regular then
    Prog.call
      (steps.applyVersion row.path row.mode row.contentHash none row.metadata cfg.ownerPolicy)
    pure true
  else match row.contentHash with
    | none => Prog.throw (.violation "live planned row without hash")
    | some hash =>
      steps.fetchContent cfg row.path row.mode row.size hash row.metadata origin
      pure true

/-- Resolve one conflicted path against `remote`.  A staging that never can succeed is left to a
later pull. -/
def resolveConcurrentAt (path : Path) (remote : Version) (origin : NodeId) :
    Prog NetError Store σ PUnit := do
  match ← resolveLoop .store steps.toDiskSteps (steps.stagePlannedRow cfg origin) path remote 4 []
    [] with
  | .ok _ => pure ⟨⟩
  | .error e => if e.isPermanent then pure ⟨⟩ else Prog.throw e

/-- The conflict-resolution loop, live-op flavor. -/
def resolveConcurrentOp (op : OpRecord) : Prog NetError Store σ PUnit :=
  steps.resolveConcurrentAt cfg op.path (opVersion op) op.origin

/-- After a downgraded `apply`: repair the disk, and resolve if the op turned out concurrent. -/
def repairDowngrade (op : OpRecord) (effective : Decision) : Prog NetError Store σ PUnit := do
  restoreLocalContent steps.toDiskSteps op.path
  Prog.when (effective = .concurrent) (steps.resolveConcurrentOp cfg op)

/-- A rename's second path-effect: repair or resolve what the op did not dominate at its source. -/
def settleSource (op : OpRecord) : Prog NetError Store σ PUnit :=
  match op.opType, op.pathOld with
  | .rename, some oldPath => do
    let oldLocal ← Prog.reading fun st => st.loadFile oldPath
    match Decision.decide oldLocal op.vv with
    | .ignore | .apply => restoreLocalContent steps.toDiskSteps oldPath
    | .concurrent =>
      restoreLocalContent steps.toDiskSteps oldPath
      steps.resolveConcurrentAt cfg oldPath (renameSourceVersion op) op.origin
    | .quarantined => pure ⟨⟩
  | _, _ => pure ⟨⟩

/-- The receive path for one pushed op. -/
def processRemoteOp (op : OpRecord) : Prog NetError Store σ PUnit := do
  if ← Prog.reading fun st => st.hasApplied op.opId then pure ⟨⟩
  else
    let loc ← Prog.reading fun st => st.loadFile op.path
    let decision ← steps.tryMaterialize cfg op loc (Decision.decide loc op.vv)
    Prog.when (decision = .concurrent) (steps.resolveConcurrentOp cfg op)
    let effective ← command .store fun st => st.applyRemote op decision
    Prog.when (decision = .apply ∧ effective ≠ .apply) (steps.repairDowngrade cfg op effective)
    Prog.when (decision ≠ .quarantined) (steps.settleSource cfg op)

end EngineSteps

end Replicore
