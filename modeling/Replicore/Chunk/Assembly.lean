import Mathlib.Data.Set.Function
import Replicore.Lib.Lts
import Replicore.Lib.OpenFile
import Replicore.Store.Types

/-!
# Chunking and assembling files

The chunk store with the bytes of its files, and the two ends of the transfer of a file
(`chunk.rs`): `chunk_file_into_cas` inserts the pieces of a file, and `assemble_from_cas` writes
them out again, seeking over the pieces that are all zero.  The cutter is the list of the pieces it
yields.

A chunk file that does not hash to its name is never assembled, and neither is one of another length
than the manifest says: that comparison is made in 32 bits, and no chunk that is inserted is longer
(`Cas.Sized`).
-/

namespace Replicore

open Bytes Posix

/-- Errors of the chunk store. -/
inductive ChunkError
  | io (ctx : String)
  | hashMismatch
  | missing (h : Hash)
  | chunker (msg : String)
  deriving DecidableEq, Repr

/-- The directory of the chunk store: the bytes of the files by their names. -/
structure CasDir where
  files : OrdMap Hash (List Byte) := .empty

/-- What a read of a chunk file meets: a fault, and whether a corrupt file can be removed. -/
structure ReadEnv where
  fault : Option String := none
  unlinks : Bool := true

/-- What the assembly of one chunk meets: the read, and a fault of the seek or of the write, with
the number of bytes written before it. -/
structure EntryEnv where
  read : ReadEnv := {}
  move : Option (String × ℕ) := none

section

variable [Blake3]

namespace CasDir

/-- Crash-safe, idempotent insert: the bytes are verified before anything is written. -/
def putVerified (d : CasDir) (h : Hash) (bytes : List Byte) (fault : Option String) :
    Except ChunkError CasDir :=
  if Blake3.hash bytes ≠ h then .error .hashMismatch
  else match d.files.get? h with
    | some _ => .ok d
    | none =>
      match fault with
      | some ctx => .error (.io ctx)
      | none => .ok { files := d.files.insert h bytes }

/-- Read a chunk back; a corrupt one is removed. -/
def read (d : CasDir) (h : Hash) (env : ReadEnv) : Except ChunkError (List Byte) × CasDir :=
  match d.files.get? h with
  | none => (.error (.missing h), d)
  | some bytes =>
    match env.fault with
    | some ctx => (.error (.io ctx), d)
    | none =>
      if Blake3.hash bytes ≠ h then
        (.error .hashMismatch, if env.unlinks then { files := d.files.erase h } else d)
      else (.ok bytes, d)

/-- The loop over the pieces of a file, after `chunks` with the bytes `whole`. -/
def chunkPieces (d : CasDir) (whole : List Byte) (chunks : List ChunkEntry) :
    List (Except String (List Byte)) → List (Option String) → Except ChunkError Manifest × CasDir
  | [], _ => (.ok { contentHash := Blake3.hash whole, chunks }, d)
  | .error msg :: _, _ => (.error (.chunker msg), d)
  | .ok piece :: pieces, faults =>
    match d.putVerified (Blake3.hash piece) piece faults.head?.join with
    | .error e => (.error e, d)
    | .ok d' =>
      chunkPieces d' (whole ++ piece)
        (chunks ++ [{ hash := Blake3.hash piece, len := Fin.ofNat _ piece.length }]) pieces faults.tail

/-- Chunk a local file in one pass. -/
def chunkFileIntoCas (d : CasDir) (opens : Option String) (pieces : List (Except String (List Byte)))
    (faults : List (Option String)) : Except ChunkError Manifest × CasDir :=
  match opens with
  | some ctx => (.error (.io ctx), d)
  | none => d.chunkPieces [] [] pieces faults

/-- The loop over the chunks of a manifest, at the offset of the next one.  `truncates` is a fault
of the last call, which sets the length. -/
def assembleChunks (d : CasDir) (out : OpenFile) (offset : ℕ) (whole : List Byte)
    (truncates : Option String) :
    List ChunkEntry → List EntryEnv → Except ChunkError Hash × CasDir × OpenFile
  | [], _ =>
    match truncates with
    | some ctx => (.error (.io ctx), d, out)
    | none => (.ok (Blake3.hash whole), d, out.setLen offset)
  | c :: cs, envs =>
    let env := envs.headD {}
    match d.read c.hash env.read with
    | (.error e, d') => (.error e, d', out)
    | (.ok bytes, d') =>
      if bytes.length % 2 ^ 32 ≠ c.len.val then (.error .hashMismatch, d', out)
      else if bytes.all (· == 0) then
        match env.move with
        | some (ctx, _) => (.error (.io ctx), d', out)
        | none =>
          assembleChunks d' (out.seek (offset + bytes.length)) (offset + bytes.length) (whole ++ bytes)
            truncates cs envs.tail
      else
        match env.move with
        | some (ctx, written) => (.error (.io ctx), d', out.write (bytes.take written))
        | none =>
          assembleChunks d' (out.write bytes) (offset + bytes.length) (whole ++ bytes) truncates cs
            envs.tail

/-- Stream the chunks of a manifest into `out`; the result is the hash of what was written. -/
def assembleFromCas (d : CasDir) (manifest : Manifest) (out : OpenFile) (truncates : Option String)
    (envs : List EntryEnv) : Except ChunkError Hash × CasDir × OpenFile :=
  d.assembleChunks out 0 [] truncates manifest.chunks envs

/-! ### What the store holds -/

/-- What happens to the chunk store. -/
inductive Event
  /-- An insert, of a piece of a file or of a fetched chunk. -/
  | put (h : Hash) (bytes : List Byte) (fault : Option String)
  | read (h : Hash) (env : ReadEnv)
  /-- The file of that name is damaged. -/
  | rot (h : Hash) (bytes : List Byte)

/-- Pieces are at most as long as the largest chunk, a 32-bit number, and fetched chunks as long as
their entry says, another one.  Damage does not forge a hash. -/
def Allowed (_ : CasDir) : Event → Prop
  | .put _ bytes _ => bytes.length < 2 ^ 32
  | .read _ _ => True
  | .rot h bytes => Blake3.hash bytes ≠ h

/-- One event. -/
def step (d : CasDir) : Event → CasDir
  | .put h bytes fault =>
    match d.putVerified h bytes fault with
    | .ok d' => d'
    | .error _ => d
  | .read h env => (d.read h env).2
  | .rot h bytes => { files := d.files.insert h bytes }

/-- Every history of the chunk store. -/
def system : Lts CasDir Event := .ofFun Allowed step

/-- A chunk file that hashes to its name is no longer than an entry can say. -/
def Sized (d : CasDir) : Prop :=
  ∀ h bytes, d.files.get? h = some bytes → Blake3.hash bytes = h → bytes.length < 2 ^ 32

variable {d d' : CasDir} {h : Hash} {bytes : List Byte}

theorem putVerified_ok {fault : Option String} (hput : d.putVerified h bytes fault = .ok d') :
    Blake3.hash bytes = h ∧
      (d' = d ∧ (d.files.get? h).isSome ∨
        d.files.get? h = none ∧ d' = { files := d.files.insert h bytes }) := by
  unfold putVerified at hput
  split_ifs at hput with hhash
  refine ⟨not_not.1 hhash, ?_⟩
  split at hput
  · rename_i hsome
    cases hput
    exact .inl ⟨rfl, by rw [hsome]; rfl⟩
  · rename_i hnone
    split at hput
    · cases hput
    · cases hput
      exact .inr ⟨hnone, rfl⟩

/-- A chunk that can be read is there and hashes to its name, and the read changes nothing. -/
theorem read_ok {env : ReadEnv} (hread : d.read h env = (.ok bytes, d')) :
    d.files.get? h = some bytes ∧ Blake3.hash bytes = h ∧ d' = d := by
  unfold read at hread
  split at hread
  · cases hread
  · rename_i hbytes
    split at hread
    · cases hread
    · by_cases hhash : Blake3.hash ‹List Byte› = h
      · rw [if_neg (not_not.2 hhash)] at hread
        cases hread
        exact ⟨hbytes, hhash, rfl⟩
      · rw [if_pos hhash] at hread
        cases hread

theorem Sized.step (hd : d.Sized) {ev : Event} (hev : d.Allowed ev) : (d.step ev).Sized := by
  have hinsert {h : Hash} {bytes : List Byte} (hnew : Blake3.hash bytes = h → bytes.length < 2 ^ 32) :
      Sized { files := d.files.insert h bytes } := by
    intro h' bytes' hget hhash
    rw [OrdMap.get?_insert] at hget
    split_ifs at hget with heq
    · cases hget
      exact hnew (hhash.trans heq.symm)
    · exact hd h' bytes' hget hhash
  cases ev with
  | put h bytes fault =>
    simp only [CasDir.step]
    split
    · rename_i hput
      obtain ⟨-, ⟨rfl, -⟩ | ⟨-, rfl⟩⟩ := putVerified_ok hput
      · exact hd
      · exact hinsert fun _ => hev
    · exact hd
  | read h env =>
    intro h' bytes' hget
    refine hd h' bytes' ?_
    simp only [CasDir.step, CasDir.read] at hget
    split at hget
    · exact hget
    · split at hget
      · exact hget
      · split_ifs at hget
        · rw [OrdMap.get?_erase] at hget
          split_ifs at hget
          exact hget
        · exact hget
        · exact hget
  | rot h bytes => exact hinsert fun hhash => absurd hhash hev

theorem sized_of_reach (hd : system.Reach {} d) : d.Sized := by
  refine hd.invariant (fun h bytes hget => ?_) fun d ev d' _ hsized hstep => ?_
  · cases hget
  · obtain ⟨hev, rfl⟩ := hstep
    exact hsized.step hev

/-! ### A chunk that is not as the manifest says -/

/-- The chunk is missing, corrupt or of another length than stated. -/
def BadEntry (d : CasDir) (c : ChunkEntry) : Prop :=
  ∀ bytes, d.files.get? c.hash = some bytes → Blake3.hash bytes ≠ c.hash ∨ bytes.length ≠ c.len.val

/-- A manifest with such a chunk is not assembled. -/
theorem assembleChunks_error (hd : d.Sized) {cs : List ChunkEntry} (hbad : ∃ c ∈ cs, d.BadEntry c)
    (out : OpenFile) (offset : ℕ) (whole : List Byte) (truncates : Option String)
    (envs : List EntryEnv) :
    ∃ e, (d.assembleChunks out offset whole truncates cs envs).1 = .error e := by
  induction cs generalizing out offset whole envs with
  | nil => simp at hbad
  | cons c cs ih =>
    simp only [assembleChunks]
    split
    · exact ⟨_, rfl⟩
    · rename_i bytes d' hread
      obtain ⟨hbytes, hhash, rfl⟩ := read_ok hread
      split_ifs with hlen hzero
      · exact ⟨_, rfl⟩
      all_goals
        split
        · exact ⟨_, rfl⟩
        · refine ih ?_ _ _ _ _
          -- this chunk is as stated, so the bad one is among the others
          obtain ⟨b, hb, hbad⟩ := hbad
          obtain rfl | hb := List.mem_cons.1 hb
          · rw [Nat.mod_eq_of_lt (hd _ _ hbytes hhash)] at hlen
            exact absurd (hbad bytes hbytes) (by tauto)
          · exact ⟨b, hb, hbad⟩

/-! ### The round trip -/

/-- The entries of a manifest with these pieces. -/
def entriesOf (pieces : List (List Byte)) : List ChunkEntry :=
  pieces.map fun piece => { hash := Blake3.hash piece, len := Fin.ofNat _ piece.length }

/-- Whatever chunk file has the name of one of the pieces is that piece. -/
def Agrees (d : CasDir) (pieces : List (List Byte)) : Prop :=
  ∀ piece ∈ pieces, ∀ bytes, d.files.get? (Blake3.hash piece) = some bytes → bytes = piece

/-- The pieces are all there. -/
def HasAll (d : CasDir) (pieces : List (List Byte)) : Prop :=
  ∀ piece ∈ pieces, d.files.get? (Blake3.hash piece) = some piece

/-- The insertion of a piece succeeds, keeps what is there and adds nothing under another name. -/
theorem putVerified_piece {pieces : List (List Byte)} {piece : List Byte} (hpiece : piece ∈ pieces)
    (hinj : Set.InjOn Blake3.hash {bs | bs ∈ pieces}) (hd : d.Agrees pieces) :
    ∃ d', d.putVerified (Blake3.hash piece) piece none = .ok d' ∧ d'.Agrees pieces ∧
      d'.files.get? (Blake3.hash piece) = some piece ∧
      ∀ h bytes, d.files.get? h = some bytes → d'.files.get? h = some bytes := by
  simp only [putVerified, ne_eq, not_true, if_false]
  cases hget : d.files.get? (Blake3.hash piece) with
  | some bytes =>
    obtain rfl := hd piece hpiece bytes hget
    exact ⟨d, rfl, hd, hget, fun _ _ => id⟩
  | none =>
    refine ⟨_, rfl, fun other hother bytes hbytes => ?_, OrdMap.get?_insert_self .., fun h bytes hh => ?_⟩
    · rw [OrdMap.get?_insert] at hbytes
      split_ifs at hbytes with heq
      · cases hbytes
        exact hinj hpiece hother heq
      · exact hd other hother bytes hbytes
    · rw [OrdMap.get?_insert_of_ne]
      · exact hh
      · rintro rfl
        rw [hget] at hh
        cases hh

/-- Chunking pieces that agree with the store inserts them all. -/
theorem chunkPieces_ok {all pieces : List (List Byte)} (hsub : ∀ piece ∈ pieces, piece ∈ all)
    (hinj : Set.InjOn Blake3.hash {bs | bs ∈ all}) (hd : d.Agrees all) (whole : List Byte)
    (chunks : List ChunkEntry) :
    ∃ d', d.chunkPieces whole chunks (pieces.map .ok) [] =
        (.ok { contentHash := Blake3.hash (whole ++ pieces.flatten),
               chunks := chunks ++ entriesOf pieces }, d') ∧
      d'.HasAll pieces ∧ ∀ h bytes, d.files.get? h = some bytes → d'.files.get? h = some bytes := by
  induction pieces generalizing d whole chunks with
  | nil => exact ⟨d, by simp [chunkPieces, entriesOf], by simp [HasAll], fun _ _ => id⟩
  | cons piece pieces ih =>
    obtain ⟨d₁, hput, hagrees, hhas, hkeeps⟩ :=
      putVerified_piece (hsub piece (List.mem_cons_self ..)) hinj hd
    obtain ⟨d₂, hrest, hall, hkeeps'⟩ := ih (fun p hp => hsub p (List.mem_cons_of_mem _ hp)) hagrees
      (whole ++ piece) (chunks ++ [{ hash := Blake3.hash piece, len := Fin.ofNat _ piece.length }])
    refine ⟨d₂, ?_, ?_, fun h bytes hh => hkeeps' h bytes (hkeeps h bytes hh)⟩
    · have hnone : ([] : List (Option String)).head?.join = none := rfl
      simp only [List.map_cons, chunkPieces, hnone, hput, List.tail_nil, hrest, List.flatten_cons,
        entriesOf, List.append_assoc, List.singleton_append]
    · intro p hp
      obtain rfl | hp := List.mem_cons.1 hp
      · exact hkeeps' _ _ hhas
      · exact hall p hp

/-- Assembling pieces that are all there appends them to the file. -/
theorem assembleChunks_ok {pieces : List (List Byte)} (hall : d.HasAll pieces) {out : OpenFile}
    {content : List Byte} (hout : out.ReadsAs content) :
    ∃ out', d.assembleChunks out content.length content none (entriesOf pieces) [] =
        (.ok (Blake3.hash (content ++ pieces.flatten)), d, out') ∧
      out'.data = content ++ pieces.flatten := by
  induction pieces generalizing out content with
  | nil =>
    refine ⟨out.setLen content.length, ?_, ?_⟩
    · simp [entriesOf, assembleChunks]
    · rw [hout.setLen, List.flatten_nil, List.append_nil]
  | cons piece pieces ih =>
    have hread : d.read (Blake3.hash piece) {} = (.ok piece, d) := by
      simp [CasDir.read, hall piece (List.mem_cons_self ..)]
    have hrest : d.HasAll pieces := fun p hp => hall p (List.mem_cons_of_mem _ hp)
    have hlen : piece.length % 2 ^ 32 = (Fin.ofNat (2 ^ 32) piece.length : U32).val := rfl
    have henv : ([] : List EntryEnv).headD {} = {} := rfl
    have hoffset : content.length + piece.length = (content ++ piece).length :=
      List.length_append.symm
    simp only [entriesOf, List.map_cons, assembleChunks, henv, hread, hlen, ne_eq, not_true,
      if_false, List.tail_nil, List.flatten_cons, ← List.append_assoc, hoffset]
    split_ifs with hzero
    · -- all zero: the position moves on and leaves a hole
      have hpiece : piece = List.replicate piece.length 0 :=
        List.eq_replicate_iff.2 ⟨rfl, fun b hb => by simpa using List.all_eq_true.1 hzero b hb⟩
      have hskip := hout.skip piece.length
      rw [← hpiece, hoffset] at hskip
      exact ih hrest hskip
    · exact ih hrest (hout.write piece)

/-- **Chunking and assembling is the identity, and only true chunks are assembled.**  In every state
of the chunk store: cutting a file into any pieces and assembling its manifest into an empty file
gives the bytes of the file and the content hash of the manifest, provided no damaged file has the
name of one of the pieces; and a manifest with a chunk that is missing, corrupt or of another length
than stated is refused, whatever else happens. -/
theorem chunk_assemble_round_trip (d : CasDir) (hd : system.Reach {} d) :
    (∀ (content : List Byte) (pieces : List (List Byte)), pieces.flatten = content →
      (∀ piece ∈ pieces, ∀ bytes, d.files.get? (Blake3.hash piece) = some bytes →
        Blake3.hash bytes = Blake3.hash piece) →
      Set.InjOn Blake3.hash {bs | bs ∈ pieces ∨ ∃ h, d.files.get? h = some bs} →
        ∃ m d' out, d.chunkFileIntoCas none (pieces.map .ok) [] = (.ok m, d') ∧
          d'.assembleFromCas m {} none [] = (.ok m.contentHash, d', out) ∧ out.data = content ∧
          m.contentHash = Blake3.hash content) ∧
      ∀ m : Manifest, (∃ c ∈ m.chunks, d.BadEntry c) → ∀ out truncates envs,
        ∃ e, (d.assembleFromCas m out truncates envs).1 = .error e := by
  constructor
  · rintro content pieces rfl hintact hinj
    have hagrees : d.Agrees pieces := fun piece hpiece bytes hbytes =>
      hinj (.inr ⟨_, hbytes⟩) (.inl hpiece) (hintact piece hpiece bytes hbytes)
    obtain ⟨d', hchunk, hall, -⟩ :=
      chunkPieces_ok (fun _ => id) (hinj.mono fun _ => .inl) hagrees [] []
    obtain ⟨out, hassemble, hdata⟩ := assembleChunks_ok hall .empty
    exact ⟨_, d', out, hchunk, hassemble, hdata, rfl⟩
  · intro m hbad out truncates envs
    exact assembleChunks_error (sized_of_reach hd) hbad out 0 [] truncates envs

end CasDir

end

section Example

attribute [local instance] Blake3.polynomial

/-- A file that begins and ends with a hole. -/
theorem CasDir.chunk_assemble_holes :
    ∃ m d' out,
      CasDir.chunkFileIntoCas {} none ([[0, 0], [7], [0, 0]].map .ok) [] = (.ok m, d') ∧
        d'.assembleFromCas m {} none [] = (.ok m.contentHash, d', out) ∧
        out.data = [0, 0, 7, 0, 0] ∧ m.contentHash = Blake3.hash [0, 0, 7, 0, 0] := by
  refine (CasDir.chunk_assemble_round_trip {} .init).1 [0, 0, 7, 0, 0] [[0, 0], [7], [0, 0]] rfl ?_ ?_
  · intro piece _ bytes hbytes
    cases hbytes
  · have hnone (bs : List Byte) : ¬ ∃ h, (CasDir.files {}).get? h = some bs := by
      rintro ⟨h, hh⟩
      cases hh
    intro a ha b hb hab
    have ha' := ha.resolve_right (hnone a)
    have hb' := hb.resolve_right (hnone b)
    simp only [List.mem_cons, List.not_mem_nil, or_false] at ha' hb'
    obtain rfl | rfl | rfl := ha' <;> obtain rfl | rfl | rfl := hb' <;>
      first | rfl | exact absurd hab (by decide +kernel)

end Example

end Replicore
