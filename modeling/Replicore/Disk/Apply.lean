import Replicore.Lib.Contain
import Replicore.Store.Types

/-!
# Applying versions to the disk

`apply.rs` and the parts of `metadata.rs` it calls, as programs over the system calls of
`Lib/Posix.lean`.  A version is staged under a temporary name next to its destination, checked,
given its metadata and renamed into place.

Suppression entries and the values of attributes leave no trace in this model: a change of
attributes is a call that touches the location.  The chunk store is a function from manifests to the
bytes that assembling them yields, if it succeeds.
-/

namespace Replicore

open Bytes Posix

namespace Disk

/-- A name in a directory. -/
abbrev Name := List Byte

/-- A regular file or a special node, and what reading it yields. -/
structure File where
  kind : FileKind
  content : List Byte := []

/-- Why an apply fails. -/
inductive ApplyError
  | hashMismatch (rel : Path)
  | unsafePath (rel : Path)
  | io (ctx : String) (e : Errno)
  | cas

/-- What is done about ownership. -/
inductive OwnerPolicy
  | skip
  | numeric
  deriving DecidableEq

/-- What the functions use of the process and its surroundings. -/
structure Host where
  /-- The location of the share root. -/
  root : Loc Name
  pid : ℕ
  policy : OwnerPolicy
  /-- The chunk store: what assembling a manifest yields. -/
  cas : Manifest → Option (List Byte)
  /-- The calls that the kernel refuses. -/
  refuse : ℕ → Option Refusal

/-- Programs that change the disk. -/
abbrev DiskM := EStateM ApplyError (World Name File)

/-- `TMP_SUFFIX`. -/
def tmpSuffix : List Char := ".replicore-tmp".toList

/-- The temporary name next to a destination. -/
def tmpName (name : Name) (pid stageSeq : ℕ) : Name :=
  46 :: name ++ utf8 tmpSuffix ++ 46 :: utf8 (Nat.toDigits 10 pid) ++
    46 :: utf8 (Nat.toDigits 10 stageSeq)

/-- The components of a path, as they are written. -/
def parts (bs : List Byte) : List Name := bs.splitOn 47

/-- Resolve `rel` under the root, refusing absolute paths and `..`.  A leading `.` is refused;
others, and empty components, are dropped. -/
def safeDest (rel : Path) : Except ApplyError (Arg Name) :=
  let ps := parts (utf8 rel)
  if rel = [] ∨ ps.head? = some [] ∨ ps.head? = some [46] ∨ [46, 46] ∈ ps then
    .error (.unsafePath rel)
  else
    .ok {
      names := ps.filter fun c => c ≠ [] ∧ c ≠ [46]
      slash := decide (ps.getLast? = some [] ∨ ps.getLast? = some [46]) }

/-- How the kernel reads the contents of a link. -/
def parseTarget (bs : List Byte) : Target Name where
  absolute := decide (bs.head? = some 47)
  comps := (parts bs).filterMap fun c =>
    if c = [] ∨ c = [46] then none else if c = [46, 46] then some .up else some (.name c)

/-- `symlink`; the kernel refuses an empty target. -/
def makeLink (root : Loc Name) (target : List Byte) (names : List Name) (fs : Fs Name File) :
    Except Errno (Answer Name File Unit) :=
  if target = [] then .error .noent else makeNode (.link (parseTarget target)) root names fs

namespace Host

/-- A call, with the context of its error. -/
def call {α : Type} (h : Host) (ctx : String)
    (f : Fs Name File → Except Errno (Answer Name File α)) : DiskM α :=
  Hoare.mapError (.io ctx) (Posix.call h.refuse f)

/-- A call that changes nothing, `fsync`. -/
def sync (h : Host) (ctx : String) : DiskM Unit := h.call ctx fun _ => .ok ((), [])

/-- The xattrs: without support or privilege for one, go on with the rest. -/
def setXattrs (h : Host) (p : Arg Name) :
    List (List Byte × List Byte) → EStateM Errno (World Name File) Unit
  | [] => pure ()
  | (name, _) :: rest => do
    if 0 ∈ name then throw (.refused .inval)
    match ← Hoare.attempt (Posix.call h.refuse (changeAttr false h.root p)) with
    | .ok () | .error (.refused .perm) | .error (.refused .notsup) => setXattrs h p rest
    | .error e => throw e

/-- Ownership, skipped without privilege. -/
def setOwner (h : Host) (p : Arg Name) : EStateM Errno (World Name File) Unit :=
  match h.policy with
  | .skip => pure ()
  | .numeric => do
    match ← Hoare.attempt (Posix.call h.refuse (changeAttr false h.root p)) with
    | .ok () | .error (.refused .perm) => pure ()
    | .error e => throw e

/-- `apply_meta`: xattrs, ownership, permission bits (not of a symlink), mtime.  All but `chmod` do
not follow a link. -/
def applyMeta (h : Host) (p : Arg Name) (m : Meta) : DiskM Unit :=
  Hoare.mapError (.io "meta") do
    h.setXattrs p m.xattrs
    h.setOwner p
    if m.kind ≠ .symlink then Posix.call h.refuse (changeAttr true h.root p)
    Posix.call h.refuse (changeAttr false h.root p)

/-- `apply_meta` with a snapshot, if there is one. -/
def applyMetaOpt (h : Host) (p : Arg Name) : Option Meta → DiskM Unit
  | some m => h.applyMeta p m
  | none => pure ()

variable [Blake3]

/-- Re-read a file and require its hash. -/
def verifyOnDisk (h : Host) (p : Arg Name) (hash : Hash) (rel : Path) : DiskM Unit := do
  let file ← h.call "reopen" (readFile h.root p)
  if Blake3.hash file.content ≠ hash then throw (.hashMismatch rel)

/-- Stage under a temporary name in the destination's directory and rename into place.  A staged
temp is not left behind on failure. -/
def publish (h : Host) (rel : Path) (stageSeq : ℕ) (stage : List Name → DiskM Unit) : DiskM Unit := do
  let dest ← ofExcept (safeDest rel)
  let parent := dest.names.dropLast
  Hoare.mapError (.io "mkdir") (createDirAll h.refuse h.root parent.reverse)
  let tmp := parent ++ [tmpName (dest.names.getLastD []) h.pid stageSeq]
  Hoare.onError (do
    stage tmp
    h.call "rename" (rename h.root { names := tmp } dest))
    (h.call "unlink" (unlink h.root { names := tmp }))

/-- A new file is regular and empty; an existing one is emptied if it is regular. -/
def truncate : Option File → File
  | none => { kind := .regular }
  | some f => if f.kind = .regular then { f with content := [] } else f

/-- Bytes written to a file. -/
def writeAll (data : List Byte) (f : File) : File :=
  if f.kind = .regular then { f with content := data } else f

/-- Stage a regular file with the bytes that were handed over or assembled, and verify it. -/
def stageFile (h : Host) (rel : Path) (hash : Hash) (data : Option (List Byte))
    (metadata : Option Meta) (tmp : List Name) : DiskM Unit := do
  let fd ← h.call "create" (createFile h.root tmp truncate)
  match data with
  | none => throw .cas
  | some bytes =>
    h.call "write" (changeFd fd (writeAll bytes))
    if Blake3.hash bytes ≠ hash then throw (.hashMismatch rel)
    h.sync "fsync"
    h.call "chmod" (changeFd fd id)
    h.verifyOnDisk { names := tmp } hash rel
    h.applyMetaOpt { names := tmp } metadata

/-- Atomically publish `data` at `rel`. -/
def applyWrite (h : Host) (rel : Path) (hash : Hash) (data : List Byte) (metadata : Option Meta)
    (stageSeq : ℕ) : DiskM Unit := do
  if Blake3.hash data ≠ hash then throw (.hashMismatch rel)
  h.publish rel stageSeq (h.stageFile rel hash (some data) metadata)

/-- Atomically publish a file assembled from chunks. -/
def applyAssembled (h : Host) (rel : Path) (hash : Hash) (manifest : Manifest)
    (metadata : Option Meta) (stageSeq : ℕ) : DiskM Unit := do
  if manifest.contentHash ≠ hash then throw (.hashMismatch rel)
  h.publish rel stageSeq (h.stageFile rel hash (h.cas manifest) metadata)

/-- Atomically publish a symlink. -/
def applySymlink (h : Host) (rel : Path) (hash : Hash) (m : Meta) (stageSeq : ℕ) : DiskM Unit :=
  match m.symlinkTarget with
  | none => throw (.hashMismatch rel)
  | some target => do
    if Blake3.hash target ≠ hash then throw (.hashMismatch rel)
    h.publish rel stageSeq fun tmp => do
      h.call "symlink" (makeLink h.root target tmp)
      h.applyMeta { names := tmp } m

/-- `create_special`: an existing node is success. -/
def createSpecial (h : Host) (tmp : List Name) (m : Meta) : DiskM Unit :=
  if m.kind = .regular ∨ m.kind = .symlink then throw (.io "mknod" (.refused .inval))
  else do
    match ← Hoare.attempt
        (Posix.call h.refuse (makeNode (.other { kind := m.kind }) h.root tmp)) with
    | .ok () | .error .exist => pure ()
    | .error e => throw (.io "mknod" e)

/-- Atomically publish a special node. -/
def applySpecial (h : Host) (rel : Path) (m : Meta) (stageSeq : ℕ) : DiskM Unit :=
  h.publish rel stageSeq fun tmp => do
    h.createSpecial tmp m
    h.applyMeta { names := tmp } m

/-- Publish one version, dispatching on the metadata kind. -/
def applyVersion (h : Host) (rel : Path) (hash : Option Hash) (manifest : Option Manifest)
    (metadata : Option Meta) (stageSeq : ℕ) : DiskM Unit :=
  match metadata with
  | some m =>
    match m.kind with
    | .symlink =>
      match hash with
      | some hash => h.applySymlink rel hash m stageSeq
      | none => throw (.hashMismatch rel)
    | .fifo | .charDev | .blockDev => h.applySpecial rel m stageSeq
    | .regular =>
      match hash, manifest with
      | some hash, some manifest => h.applyAssembled rel hash manifest metadata stageSeq
      | _, _ => throw (.hashMismatch rel)
  | none =>
    match hash, manifest with
    | some hash, some manifest => h.applyAssembled rel hash manifest metadata stageSeq
    | _, _ => throw (.hashMismatch rel)

/-- Apply only metadata to what is at `rel`. -/
def applyMetaOnly (h : Host) (rel : Path) (m : Meta) : DiskM Unit := do
  let dest ← ofExcept (safeDest rel)
  h.applyMeta dest m

/-- Move a file that holds exactly the bytes of `hash`; `false` when the source does not. -/
def applyRename (h : Host) (oldRel newRel : Path) (hash : Hash) (metadata : Option Meta) :
    DiskM Bool := do
  let src ← ofExcept (safeDest oldRel)
  let dest ← ofExcept (safeDest newRel)
  match ← Hoare.attempt (h.verifyOnDisk src hash oldRel) with
  | .error (.io _ .noent) | .error (.hashMismatch _) => pure false
  | .error e => throw e
  | .ok () =>
    Hoare.mapError (.io "mkdir") (createDirAll h.refuse h.root dest.names.dropLast.reverse)
    h.call "rename" (rename h.root src dest)
    h.call "chmod" (changeAttr true h.root dest)
    h.applyMetaOpt dest metadata
    pure true

/-- Unlink for a remote delete; a missing file is success. -/
def applyDelete (h : Host) (rel : Path) : DiskM Unit := do
  let dest ← ofExcept (safeDest rel)
  match ← Hoare.attempt (Posix.call h.refuse (unlink h.root dest)) with
  | .ok () | .error .noent => pure ()
  | .error e => throw (.io "unlink" e)

end Host

/-- A remotely supplied change, with the number its staging is given. -/
inductive RemoteChange
  | version (rel : Path) (hash : Option Hash) (manifest : Option Manifest) (metadata : Option Meta)
  | write (rel : Path) (hash : Hash) (data : List Byte) (metadata : Option Meta)
  | metaOnly (rel : Path) (metadata : Meta)
  | rename (oldRel newRel : Path) (hash : Hash) (metadata : Option Meta)
  | delete (rel : Path)

/-- Apply one change. -/
def Host.apply [Blake3] (h : Host) (stageSeq : ℕ) : RemoteChange → DiskM Unit
  | .version rel hash manifest metadata => h.applyVersion rel hash manifest metadata stageSeq
  | .write rel hash data metadata => h.applyWrite rel hash data metadata stageSeq
  | .metaOnly rel metadata => h.applyMetaOnly rel metadata
  | .rename oldRel newRel hash metadata => do
    let _ ← h.applyRename oldRel newRel hash metadata
  | .delete rel => h.applyDelete rel

end Disk

end Replicore
