import Mathlib.Data.Finset.Insert
import Replicore.Store.Manifests

/-!
# Fetching manifests and chunks

The receiver's side of `fetch.rs`.  A manifest or a chunk is asked of one live connection after the
other until one delivers; the missing chunks of a file are fetched by parallel tasks, whose results
are folded into one in the order of their completion.

What a connection answers is data: the pages it sends, one for each request, and the reply to a
chunk request with the bytes that follow it; where the answers end, the connection has failed.
Everything that can be a lie is checked here as the source checks it.
-/

namespace Replicore

open Bytes

/-- What a call of the store can fail with: faults of the database, of its contents, and of the
store thread. -/
inductive StoreFault
  | sqlite
  | vvCodec
  | corrupt (what : String)
  | gone
  deriving DecidableEq, Repr

/-- Errors of the chunk store's insertion. -/
inductive CasError
  | io (ctx : String)
  | hashMismatch
  deriving DecidableEq, Repr

/-- Why a fetch failed. -/
inductive FetchError
  /-- Every live peer answered "not found".  Permanent. -/
  | unavailable
  /-- No live connections at all, or every candidate errored.  Transient. -/
  | noUsablePeer
  /-- The manifest itself is malformed or hostile.  Permanent. -/
  | badManifest (msg : String)
  | cas (e : CasError)
  | store (e : StoreFault)
  | join
  deriving DecidableEq, Repr

/-- Should the op be quarantined rather than retried? -/
def FetchError.isPermanent : FetchError → Bool
  | unavailable | badManifest _ => true
  | noUsablePeer | cas _ | store _ | join => false

/-- Limits threaded from config. -/
structure FetchLimits where
  maxChunkBytes : U32
  maxFileBytes : U64

/-- The bound on the number of chunks of an honest manifest. -/
def maxManifestChunks (limits : FetchLimits) : ℕ := limits.maxFileBytes.val / 4096 + 2

/-- Entries of one manifest page. -/
def manifestPage : ℕ := 4096

/-! ### One connection -/

/-- One page of a manifest, as it comes from the wire. -/
structure ManifestResp where
  found : Bool
  contentHash : Hash
  total : U32
  chunks : List ChunkEntry

/-- The bounds on the chunks of a page: the running length of the file so far, or what is wrong. -/
def checkPage (limits : FetchLimits) : ℕ → List ChunkEntry → Except FetchError ℕ
  | runningLen, [] => .ok runningLen
  | runningLen, c :: cs =>
    if c.len = 0 ∨ limits.maxChunkBytes < c.len then
      .error (.badManifest "chunk length out of bounds")
    else if limits.maxFileBytes.val < (runningLen + c.len.val) % 2 ^ 64 then
      .error (.badManifest "total length exceeds max_file_bytes")
    else checkPage limits ((runningLen + c.len.val) % 2 ^ 64) cs

/-- Paginated manifest retrieval from one peer: the pages that are still to come, after `chunks`
with a total length of `runningLen`.  `none` when the peer has no such manifest. -/
def manifestPages (limits : FetchLimits) (contentHash : Hash) :
    List ChunkEntry → ℕ → List (Option ManifestResp) → Except FetchError (Option Manifest)
  | _, _, [] => .error .noUsablePeer
  | _, _, none :: _ => .error .noUsablePeer
  | chunks, runningLen, some resp :: pages =>
    if resp.found = false then .ok none
    else if resp.contentHash ≠ contentHash then .error (.badManifest "wrong content_hash")
    else if maxManifestChunks limits < resp.total.val then
      .error (.badManifest "chunk count exceeds file-size cap")
    else if manifestPage < resp.chunks.length % 2 ^ 32 then .error (.badManifest "oversized page")
    else match checkPage limits runningLen resp.chunks with
      | .error e => .error e
      | .ok runningLen' =>
        if resp.total.val < (chunks ++ resp.chunks).length % 2 ^ 32 then
          .error (.badManifest "more chunks than total")
        else if (chunks ++ resp.chunks).length % 2 ^ 32 = resp.total.val then
          .ok (some { contentHash, chunks := chunks ++ resp.chunks })
        else if resp.chunks.length = 0 then .error (.badManifest "empty page before total")
        else manifestPages limits contentHash (chunks ++ resp.chunks) runningLen' pages

/-- The manifest as one peer has it. -/
def manifestFromPeer (limits : FetchLimits) (contentHash : Hash) (pages : List (Option ManifestResp)) :
    Except FetchError (Option Manifest) :=
  manifestPages limits contentHash [] 0 pages

/-- The reply to a chunk request, and the bytes that follow it on the stream. -/
structure ChunkResp where
  found : Bool
  len : U32
  stream : List Byte

section

variable [Blake3]

/-- Wire exchange for one chunk on one connection.  `none` when the peer has no such chunk. -/
def chunkFromPeer (entry : ChunkEntry) : Option ChunkResp → Except FetchError (Option (List Byte))
  | none => .error .noUsablePeer
  | some resp =>
    if resp.found = false then .ok none
    else if resp.len ≠ entry.len then .error .noUsablePeer
    else if resp.stream.length < resp.len.val then .error .noUsablePeer
    else if Blake3.hash (resp.stream.take resp.len.val) ≠ entry.hash then .error .noUsablePeer
    else .ok (some (resp.stream.take resp.len.val))

/-! ### The chunk store -/

/-- The chunks that are present. -/
abbrev Cas := Finset Hash

/-- Crash-safe, idempotent insert; `fault` is what the file system answers with. -/
def Cas.putVerified (cas : Cas) (h : Hash) (bytes : List Byte) (fault : Option CasError) :
    Except CasError Cas :=
  if Blake3.hash bytes ≠ h then .error .hashMismatch
  else if h ∈ cas then .ok cas
  else match fault with
    | some e => .error e
    | none => .ok (insert h cas)

end

/-! ### All connections -/

section

variable {π α β σ : Type}

/-- The loop over the candidates: the first that delivers is taken, and the loop remembers whether
one of the others has answered "not found". -/
def tryPeers (ask : π → Except FetchError (Option α)) (take : α → σ → Except FetchError β × σ) :
    Bool → List π → σ → Except FetchError β × σ
  | anyNotFound, [], s => (.error (if anyNotFound then .unavailable else .noUsablePeer), s)
  | anyNotFound, p :: ps, s =>
    match ask p with
    | .ok (some a) => take a s
    | .ok none => tryPeers ask take true ps s
    | .error _ => tryPeers ask take anyNotFound ps s

/-- The candidates one after the other; without candidates there is nobody to ask. -/
def askCandidates (ask : π → Except FetchError (Option α))
    (take : α → σ → Except FetchError β × σ) (candidates : List π) (s : σ) :
    Except FetchError β × σ :=
  if candidates.isEmpty then (.error .noUsablePeer, s) else tryPeers ask take false candidates s

end

/-- The faults that the two calls of the store run into. -/
structure StoreFaults where
  load : Option StoreFault
  put : Option StoreFault

/-- Get the manifest for a content hash: local tables first, then the candidates.  A fetched
manifest is stored before it is returned. -/
def obtainManifest (limits : FetchLimits) (faults : StoreFaults) (contentHash : Hash)
    (candidates : List (List (Option ManifestResp))) (st : Store) :
    Except FetchError Manifest × Store :=
  match faults.load with
  | some e => (.error (.store e), st)
  | none =>
    match st.manifestFor contentHash with
    | some m => (.ok m, st)
    | none =>
      askCandidates (manifestFromPeer limits contentHash)
        (fun m st => match faults.put with
          | some e => (.error (.store e), st)
          | none => (.ok m, st.putManifest m))
        candidates st

/-- How the insertion of a fetched chunk ends: the blocking task is lost, or it runs, with or
without a fault of the file system. -/
inductive PutEnd
  | lost
  | ran (fault : Option CasError)
  deriving DecidableEq, Repr

/-- What one chunk task meets: the answers of the candidates that are live when it starts, the end
of its insertion, and whether the task itself is lost. -/
structure TaskEnv where
  candidates : List (Option ChunkResp)
  put : PutEnd
  lost : Bool

section

variable [Blake3]

/-- One chunk: try candidates in order; verify bytes before the insertion. -/
def fetchOneChunk (limits : FetchLimits) (entry : ChunkEntry) (env : TaskEnv) (cas : Cas) :
    Except FetchError Unit × Cas :=
  if limits.maxChunkBytes < entry.len then
    (.error (.badManifest "chunk length out of bounds"), cas)
  else
    askCandidates (chunkFromPeer entry)
      (fun bytes cas => match env.put with
        | .lost => (.error .join, cas)
        | .ran fault =>
          match cas.putVerified entry.hash bytes fault with
          | .error e => (.error (.cas e), cas)
          | .ok cas' => (.ok (), cas'))
      env.candidates cas

/-! ### All chunks -/

/-- The chunks to be fetched: each hash once, and none that is present. -/
def missingChunks (cas : Cas) : List Hash → List ChunkEntry → List ChunkEntry
  | _, [] => []
  | seen, c :: cs =>
    if c.hash ∈ seen then missingChunks cas seen cs
    else if c.hash ∈ cas then missingChunks cas (c.hash :: seen) cs
    else c :: missingChunks cas (c.hash :: seen) cs

/-- The chunk tasks of a manifest in the order in which they complete. -/
structure Completion (missing : List ChunkEntry) where
  tasks : List (ChunkEntry × TaskEnv)
  perm : (tasks.map Prod.fst).Perm missing

/-- What the drain loop remembers after one more failed task: the first error, unless a permanent
one comes later. -/
def keepWorst (firstErr : Option FetchError) (e : FetchError) : Option FetchError :=
  match firstErr with
  | none => some e
  | some prev => if e.isPermanent && !prev.isPermanent then some e else some prev

/-- One task completes and is joined.  A lost task is an error only if there is none yet. -/
def joinNext (limits : FetchLimits) (s : Option FetchError × Cas) (task : ChunkEntry × TaskEnv) :
    Option FetchError × Cas :=
  let run := fetchOneChunk limits task.1 task.2 s.2
  if task.2.lost then (s.1.or (some .join), run.2)
  else match run.1 with
    | .ok () => (s.1, run.2)
    | .error e => (keepWorst s.1 e, run.2)

/-- Ensure that every chunk of the manifest is present in the chunk store. -/
def fetchFileChunks (limits : FetchLimits) (manifest : Manifest) (cas : Cas)
    (order : Completion (missingChunks cas [] manifest.chunks)) : Except FetchError Unit × Cas :=
  let s := order.tasks.foldl (joinNext limits) (none, cas)
  match s.1 with
  | none => (.ok (), s.2)
  | some e => (.error e, s.2)

end

end Replicore
