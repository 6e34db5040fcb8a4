import Replicore.Ingest.Walk
import Replicore.Lib.Slices

/-!
# The fanotify watcher

`watch.rs`: the two event loops over what a `read` has put into the buffer, and what they call.  In
FID mode an event is followed by info records, and a record with a name carries a file handle that
`open_by_handle_at` resolves; in legacy mode an event carries a descriptor.

The programs run over `Lib/Slices.lean`: slices and differences are checked, the `read_unaligned`s
are not.  The system calls, the channel to the ingest and the rescan notification are those of a
`Kernel` with a state of its own, which answers as it likes.  The constants and the layouts of the
C structures are those of `linux/fanotify.h`, on a little-endian machine.

The loops that read again for ever are not modelled: what is here is one round of them, after a
`read` that has not failed.
-/

namespace Replicore

open Bytes Hoare Slices
open Ingest (LocalEvent)

namespace Watch

/-! ### Paths -/

/-- A path, as the bytes of an `OsStr`. -/
abbrev OsPath := List Byte

/-- What stands between the separators, and whether it is a component: the empty part before a
leading separator is the root, other empty parts are none, and `.` is one only at the beginning. -/
def parts (p : OsPath) : List (List Byte × Bool) :=
  match p.splitOn 47 with
  | [] => []
  | first :: rest =>
    (first, decide (first ≠ [] ∨ rest ≠ [])) ::
      rest.map fun c => (c, decide (c ≠ [] ∧ c ≠ [46]))

/-- `Path::components`. -/
def components (p : OsPath) : List (List Byte) := ((parts p).filter (·.2)).map (·.1)

/-- `Path::starts_with`. -/
def startsWith (p share : OsPath) : Bool := (components share).isPrefixOf (components p)

/-- The parts that are left once these components have been read. -/
def afterComponents : List (List Byte) → List (List Byte × Bool) → Option (List (List Byte × Bool))
  | [], ps => some ps
  | c :: cs, ps =>
    match ps.dropWhile fun part => !part.2 with
    | [] => none
    | part :: ps => if part.1 = c then afterComponents cs ps else none

/-- `Path::strip_prefix`: the rest of the text, without separators and `.` at its ends. -/
def stripPrefix (p share : OsPath) : Option OsPath :=
  (afterComponents (components share) (parts p)).map fun ps =>
    let ps := ps.dropWhile fun part => !part.2
    let ps := ps.reverse.dropWhile fun part => !part.2
    [47].intercalate (ps.reverse.map (·.1))

/-- `Path::file_name`: the last component, if it is a name. -/
def fileName (p : OsPath) : Option (List Byte) :=
  match (components p).getLast? with
  | some name => if name = [] ∨ name = [46] ∨ name = [46, 46] then none else some name
  | none => none

/-- `Path::join`. -/
def join (dir name : OsPath) : OsPath :=
  if name.head? = some 47 then name
  else if dir = [] ∨ dir.getLast? = some 47 then dir ++ name
  else dir ++ 47 :: name

/-- The name is one of our own staging files. -/
def isTmp (p : OsPath) : Bool :=
  match (fileName p).bind utf8Decode with
  | some name => decide (Disk.tmpSuffix <:+: name)
  | none => false

/-! ### Events -/

/-- Paths a single event names. -/
structure EventPaths where
  path : Option OsPath := none
  old : Option OsPath := none
  new : Option OsPath := none
  deriving DecidableEq

/-- `FAN_ATTRIB`. -/
def fanAttrib : ℕ := 0x4

/-- `FAN_CLOSE_WRITE`. -/
def fanCloseWrite : ℕ := 0x8

/-- `FAN_MOVED_FROM`. -/
def fanMovedFrom : ℕ := 0x40

/-- `FAN_MOVED_TO`. -/
def fanMovedTo : ℕ := 0x80

/-- `FAN_CREATE`. -/
def fanCreate : ℕ := 0x100

/-- `FAN_DELETE`. -/
def fanDelete : ℕ := 0x200

/-- `FAN_Q_OVERFLOW`. -/
def fanQOverflow : ℕ := 0x4000

/-- `FAN_RENAME`. -/
def fanRename : ℕ := 0x10000000

/-- Turn one event's mask and paths into ingest events. -/
def dispatch (share : OsPath) (mask : ℕ) (ev : EventPaths) : List (LocalEvent OsPath) :=
  let inside := fun p => startsWith p share && !isTmp p
  let rel := fun p => (stripPrefix p share).bind utf8Decode
  if mask &&& fanRename ≠ 0 then
    match ev.old.filter inside, ev.new.filter inside with
    | some old, some new =>
      if isTmp old then [.write new]
      else match rel old with
        | some source => [.rename source new]
        | none => []
    | some old, none =>
      match rel old with
      | some source => [.delete source]
      | none => []
    | none, some new => [.write new]
    | none, none => []
  else
    (if mask &&& (fanDelete ||| fanMovedFrom) ≠ 0 then
      (((ev.path.filter inside).bind rel).map LocalEvent.delete).toList
    else []) ++
    if mask &&& (fanCreate ||| fanCloseWrite ||| fanAttrib ||| fanMovedTo) ≠ 0 then
      ((ev.path.filter inside).map LocalEvent.write).toList
    else []

/-! ### The surroundings -/

/-- The calls the watcher makes, each of which may answer anything. -/
structure Kernel (σ : Type) where
  openByHandleAt : List Byte → σ → ℤ × σ
  readLink : ℤ → σ → Option OsPath × σ
  close : ℤ → σ → Unit × σ
  /-- Whether the receiver is still there. -/
  blockingSend : LocalEvent OsPath → σ → Bool × σ
  notifyOne : σ → Unit × σ

/-- The surroundings, and the file handles they have been passed: what of the buffer they read, and
the record it belongs to. -/
structure Env (σ : Type) where
  world : σ
  handles : List (Span × Span) := []

/-- A program of the watcher. -/
abbrev WatchM (σ α : Type) := Prog (Env σ) α

variable {σ α : Type} (k : Kernel σ)

/-- A call that reads nothing of the buffer. -/
def call (f : σ → α × σ) : WatchM σ α :=
  perform fun env => ((f env.world).1, { env with world := (f env.world).2 })

/-- `FAN_EVENT_INFO_TYPE_DFID_NAME`. -/
def dfidName : ℕ := 2

/-- `FAN_EVENT_INFO_TYPE_OLD_DFID_NAME`. -/
def oldDfidName : ℕ := 10

/-- `FAN_EVENT_INFO_TYPE_NEW_DFID_NAME`. -/
def newDfidName : ℕ := 12

/-- `size_of::<fanotify_event_metadata>()`. -/
def metaSz : ℕ := 24

/-- `size_of::<fanotify_event_info_header>()`. -/
def hdrSz : ℕ := 4

/-- `size_of::<fanotify_event_info_fid>()`: the header and the file system id. -/
def fidSz : ℕ := 12

/-- The fixed head of a `file_handle`: `handle_bytes` and `handle_type`. -/
def fhFixed : ℕ := 8

/-- What is used of a `fanotify_event_metadata`. -/
structure EventMetadata where
  eventLen : ℕ
  mask : ℕ
  fd : ℤ

/-- A 32-bit two's complement integer. -/
def toI32 (n : ℕ) : ℤ := if n < 2 ^ 31 then n else n - 2 ^ 32

/-- The fields `event_len`, `mask` and `fd`. -/
def EventMetadata.ofBytes (bs : List Byte) : EventMetadata where
  eventLen := leValue (bs.take 4)
  mask := leValue ((bs.drop 8).take 8)
  fd := toI32 (leValue ((bs.drop 16).take 4))

/-- A `fanotify_event_info_header`. -/
structure InfoHeader where
  infoType : ℕ
  len : ℕ

/-- The fields `info_type` and `len`. -/
def InfoHeader.ofBytes (bs : List Byte) : InfoHeader where
  infoType := leValue (bs.take 1)
  len := leValue ((bs.drop 2).take 2)

/-! ### Info records -/

section

variable (buf : List Byte)

/-- `open_by_handle_at` with a pointer to the handle of a record.  The kernel finds the length of
the handle in its head. -/
def openByHandleAt (record : Span) : WatchM σ ℤ := do
  let head ← load buf (record.start + fidSz) fhFixed
  let handleBytes := leValue (head.take 4)
  let handle ← load buf (record.start + fidSz) (fhFixed + handleBytes)
  perform fun env =>
    ((k.openByHandleAt handle env.world).1,
      { world := (k.openByHandleAt handle env.world).2
        handles := env.handles ++ [(⟨record.start + fidSz, fhFixed + handleBytes⟩, record)] })

/-- What is left of `resolve_dfid_name` once the name is known. -/
def resolveHandle (record name : Span) : WatchM σ (Option OsPath) := do
  let dirfd ← openByHandleAt k buf record
  if dirfd < 0 then pure none
  else do
    let dir ← call (k.readLink dirfd)
    call (k.close dirfd)
    match dir with
    | none => pure none
    | some dir =>
      if name.bytes buf = [46] then pure (some dir) else pure (some (join dir (name.bytes buf)))

/-- Decode one record with a trailing name: resolve the handle of the parent directory and join. -/
def resolveDfidName (record : Span) : WatchM σ (Option OsPath) := do
  let fixed ← addUsize fidSz fhFixed
  if record.len < fixed then pure none
  else do
    let word ← slice record fidSz (fidSz + 4)
    let nameOff ← addUsize fixed (leValue (word.bytes buf))
    if record.len ≤ nameOff then pure none
    else do
      let nameBytes ← slice record nameOff record.len
      match (nameBytes.bytes buf).findIdx? (· = 0) with
      | none => pure none
      | some nameEnd => do
        let name ← slice nameBytes 0 nameEnd
        resolveHandle k buf record name

/-- The paths so far with that of one more record. -/
def recordPaths (event : Span) (out : EventPaths) (hdr : InfoHeader) (off stop : ℕ) :
    WatchM σ EventPaths :=
  if hdr.infoType = dfidName then do
    let record ← slice event off stop
    let path ← resolveDfidName k buf record
    pure { out with path }
  else if hdr.infoType = oldDfidName then do
    let record ← slice event off stop
    let old ← resolveDfidName k buf record
    pure { out with old }
  else if hdr.infoType = newDfidName then do
    let record ← slice event off stop
    let new ← resolveDfidName k buf record
    pure { out with new }
  else pure out

/-- One round of `parse_event`. -/
def parseRecord (event : Span) : ℕ × EventPaths → WatchM σ ((ℕ × EventPaths) ⊕ EventPaths)
  | (off, out) => do
    let left ← subUsize event.len off
    if left < hdrSz then pure (.inr out)
    else do
      let bs ← load buf (event.start + off) hdrSz
      let hdr := InfoHeader.ofBytes bs
      if hdr.len < hdrSz then pure (.inr out)
      else do
        let stop ← addUsize off hdr.len
        if event.len < stop then pure (.inr out)
        else do
          let out ← recordPaths k buf event out hdr off stop
          pure (.inl (stop, out))

/-- Paths a single event names.  There are fewer rounds than bytes. -/
def parseEvent (event : Span) (metaSz : ℕ) : WatchM σ EventPaths :=
  iterate .exhausted (parseRecord k buf event) (event.len + 1) (metaSz, {})

/-! ### The event loops -/

/-- The events of one dispatch, up to the first that cannot be sent. -/
def sendAll : List (LocalEvent OsPath) → WatchM σ Bool
  | [] => pure true
  | event :: events => do
    let sent ← call (k.blockingSend event)
    if sent then sendAll events else pure false

/-- Wake the scanner if events were lost. -/
def notifyOverflow (mask : ℕ) : WatchM σ Unit :=
  if mask &&& fanQOverflow ≠ 0 then call k.notifyOne else pure ()

/-- One round of the event loop of `Fid::run`. -/
def runRound (share : OsPath) (n off : ℕ) : WatchM σ (ℕ ⊕ Bool) := do
  let left ← subUsize n off
  if left < metaSz then pure (.inr true)
  else do
    let bs ← load buf off metaSz
    let evLen := (EventMetadata.ofBytes bs).eventLen
    if evLen < metaSz then pure (.inr true)
    else do
      let stop ← addUsize off evLen
      if n < stop then pure (.inr true)
      else do
        notifyOverflow k (EventMetadata.ofBytes bs).mask
        let event ← slice ⟨0, buf.length⟩ off stop
        let ev ← parseEvent k buf event metaSz
        let sent ← sendAll k (dispatch share (EventMetadata.ofBytes bs).mask ev)
        if sent then pure (.inl stop) else pure (.inr false)

/-- The event loop of `Fid::run` over `n` bytes; `false` if the receiver is gone. -/
def runLoop (share : OsPath) (n : ℕ) : WatchM σ Bool :=
  iterate .exhausted (runRound k buf share n) (n + 1) 0

/-- Report the file behind the descriptor of an event, and close the descriptor. -/
def reportFd (share : OsPath) (fan fd : ℤ) : WatchM σ Bool :=
  if 0 ≤ fd then do
    match ← call (k.readLink fd) with
    | none => do
      call (k.close fd)
      pure true
    | some path =>
      if startsWith path share && !isTmp path then do
        let sent ← call (k.blockingSend (.write path))
        if sent then do
          call (k.close fd)
          pure true
        else do
          call (k.close fd)
          call (k.close fan)
          pure false
      else do
        call (k.close fd)
        pure true
  else pure true

/-- One round of the event loop of `run_legacy`.  Here nothing is checked of the end of the
event. -/
def legacyRound (share : OsPath) (fan : ℤ) (n : ℕ) (off : ℤ) : WatchM σ (ℤ ⊕ Bool) := do
  let left ← subIsize n off
  if left < metaSz then pure (.inr true)
  else do
    let bs ← loadAt buf off metaSz
    let evLen := (EventMetadata.ofBytes bs).eventLen
    if evLen < metaSz then pure (.inr true)
    else do
      notifyOverflow k (EventMetadata.ofBytes bs).mask
      let more ← reportFd k share fan (EventMetadata.ofBytes bs).fd
      if more then do
        let off ← addIsize off evLen
        pure (.inl off)
      else pure (.inr false)

/-- The event loop of `run_legacy` over `n` bytes; `false` if the receiver is gone. -/
def legacyLoop (share : OsPath) (fan : ℤ) (n : ℕ) : WatchM σ Bool :=
  iterate .exhausted (legacyRound k buf share fan n) (n + 1) 0

end

end Watch

end Replicore
