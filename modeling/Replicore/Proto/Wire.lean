import Replicore.Lib.Bincode
import Replicore.Proto.Framing
import Replicore.Store.Types

/-!
# The messages and their encoding

The control frames and the frames of an anti-entropy session (`proto.rs`), with the encoding of
every type they are made of.  A record is encoded as its fields in the order of their declaration,
an enumeration as the index of the variant and its fields.

`frameCodec` and `reconcileCodec` are the encoding within the limit of one frame.  Whether a
message can be sent is a matter of its length (`fits_oplogPush`, `fits_leafResp`): `oplogPushLen`
and `leafLen` add up the parts.
-/

namespace Replicore

open Bytes Bincode

/-- Unsigned 16-bit integers. -/
abbrev U16 := Fin (2 ^ 16)

/-! ### Messages -/

/-- Control-stream frames. -/
inductive Frame
  | hello (protoVersion : U16) (nodeId : NodeId) (resume : List (NodeId × ℤ))
  | helloAck (protoVersion : U16) (nodeId : NodeId)
  | oplogPush (op : OpRecord)
  | oplogAck (origin : NodeId) (upToSeq : ℤ)
  | subscribeOps (resume : List (NodeId × ℤ))
  | ping (nonce : U64)
  | pong (nonce : U64)
  deriving DecidableEq

/-- One child of a Merkle directory node. -/
structure WireChild where
  name : Path
  hash : Hash
  isDir : Bool
  deriving DecidableEq

/-- Anti-entropy session messages. -/
inductive ReconcileFrame
  | begin
  | rootIs (hash : Hash) (frontier : List (NodeId × ℤ))
  | treeReq (pre afterName : Path) (limit : U32)
  | treeResp (children : List WireChild) (more : Bool)
  | leafReq (path : Path)
  /-- The columns of the row that the leaf stands for. -/
  | leafResp (found : Bool) (row : Row)
  | done
  deriving DecidableEq

/-! ### Encodings -/

namespace Wire

open Format

def hash : Format Hash := .be 32 (2 ^ 256) (by norm_num)

def nodeId : Format NodeId := .be 16 (2 ^ 128) (by norm_num)

def u16 : Format U16 := .fin _

def u32 : Format U32 := .fin _

def u64 : Format U64 := .fin _

def i64 : Format Int64 :=
  zigzag.via (fun i => some (Int64.ofInt i)) Int64.toInt fun i => congrArg some (Int64.ofInt_toInt i)

def kind : Format FileKind :=
  varint.via
    (fun
      | 0 => some .regular
      | 1 => some .symlink
      | 2 => some .fifo
      | 3 => some .charDev
      | 4 => some .blockDev
      | _ => none)
    FileKind.tag fun k => by cases k <;> rfl

def metadata : Format Meta :=
  (kind.pair <| u32.pair <| u32.pair <| u32.pair <| i64.pair <| u32.pair <| (option bytes).pair <|
    u64.pair <| seq (bytes.pair bytes)).via
    (fun (kind, mode, uid, gid, mtimeS, mtimeNs, symlinkTarget, rdev, xattrs) =>
      some ⟨kind, mode, uid, gid, mtimeS, mtimeNs, symlinkTarget, rdev, xattrs⟩)
    (fun m => (m.kind, m.mode, m.uid, m.gid, m.mtimeS, m.mtimeNs, m.symlinkTarget, m.rdev, m.xattrs))
    fun _ => rfl

/-- A map is encoded as its entries in the order of the keys, and inserted one by one. -/
def vv : Format VersionVector :=
  (seq (nodeId.pair varint)).via (fun es => some ⟨OrdMap.empty.upsertAll es⟩)
    (fun v => v.map.entries) fun v => by
      have hmap : OrdMap.empty.upsertAll v.map.entries = v.map := by
        refine OrdMap.ext_get? fun n => ?_
        rw [OrdMap.get?_upsertAll_entries, OrdMap.get?_empty, Option.or_none]
      rw [hmap]

def opType : Format OpType :=
  varint.via
    (fun
      | 0 => some .write
      | 1 => some .delete
      | 2 => some .rename
      | _ => none)
    (fun
      | .write => 0
      | .delete => 1
      | .rename => 2)
    fun t => by cases t <;> rfl

def opRecord : Format OpRecord :=
  (hash.pair <| nodeId.pair <| zigzag.pair <| opType.pair <| text.pair <| (option text).pair <|
    (option nodeId).pair <| u32.pair <| u64.pair <| (option hash).pair <|
    (option metadata).pair vv).via
    (fun (opId, origin, originSeq, opType, path, pathOld, uuid, mode, size, contentHash, metadata,
        vv) =>
      some ⟨opId, origin, originSeq, opType, path, pathOld, uuid, mode, size, contentHash, metadata,
        vv⟩)
    (fun o => (o.opId, o.origin, o.originSeq, o.opType, o.path, o.pathOld, o.uuid, o.mode, o.size,
      o.contentHash, o.metadata, o.vv))
    fun _ => rfl

/-- The columns of a row as `LeafResp` lists them. -/
def row : Format Row :=
  (bool.pair <| (option hash).pair <| vv.pair <| u32.pair <| u64.pair <|
    (option nodeId).pair <| option metadata).via
    (fun (tombstone, contentHash, vv, mode, size, uuid, metadata) =>
      some ⟨contentHash, mode, size, tombstone, vv, uuid, metadata⟩)
    (fun r => (r.tombstone, r.contentHash, r.vv, r.mode, r.size, r.uuid, r.metadata)) fun _ => rfl

def frontier : Format (List (NodeId × ℤ)) := seq (nodeId.pair zigzag)

def wireChild : Format WireChild :=
  (text.pair <| hash.pair bool).via (fun (name, hash, isDir) => some ⟨name, hash, isDir⟩)
    (fun c => (c.name, c.hash, c.isDir)) fun _ => rfl

/-- The index of a variant, then its fields. -/
def frame : Format Frame where
  enc
    | .hello protoVersion node resume =>
      0 :: (u16.pair <| nodeId.pair frontier).enc (protoVersion, node, resume)
    | .helloAck protoVersion node => 1 :: (u16.pair nodeId).enc (protoVersion, node)
    | .oplogPush op => 2 :: opRecord.enc op
    | .oplogAck origin upToSeq => 3 :: (nodeId.pair zigzag).enc (origin, upToSeq)
    | .subscribeOps resume => 4 :: frontier.enc resume
    | .ping nonce => 5 :: u64.enc nonce
    | .pong nonce => 6 :: u64.enc nonce
  dec bs := (varint.dec bs).bind fun x =>
    match x.1 with
    | 0 => ((u16.pair <| nodeId.pair frontier).dec x.2).map fun y => (.hello y.1.1 y.1.2.1 y.1.2.2, y.2)
    | 1 => ((u16.pair nodeId).dec x.2).map fun y => (.helloAck y.1.1 y.1.2, y.2)
    | 2 => (opRecord.dec x.2).map fun y => (.oplogPush y.1, y.2)
    | 3 => ((nodeId.pair zigzag).dec x.2).map fun y => (.oplogAck y.1.1 y.1.2, y.2)
    | 4 => (frontier.dec x.2).map fun y => (.subscribeOps y.1, y.2)
    | 5 => (u64.dec x.2).map fun y => (.ping y.1, y.2)
    | 6 => (u64.dec x.2).map fun y => (.pong y.1, y.2)
    | _ => none
  Valid
    | .hello protoVersion node resume =>
      (u16.pair <| nodeId.pair frontier).Valid (protoVersion, node, resume)
    | .helloAck protoVersion node => (u16.pair nodeId).Valid (protoVersion, node)
    | .oplogPush op => opRecord.Valid op
    | .oplogAck origin upToSeq => (nodeId.pair zigzag).Valid (origin, upToSeq)
    | .subscribeOps resume => frontier.Valid resume
    | .ping nonce => u64.Valid nonce
    | .pong nonce => u64.Valid nonce
  dec_enc msg rest h := by
    cases msg with
    | hello protoVersion node resume =>
      exact congrArg (Option.map _) ((u16.pair <| nodeId.pair frontier).dec_enc _ rest h)
    | helloAck protoVersion node => exact congrArg (Option.map _) ((u16.pair nodeId).dec_enc _ rest h)
    | oplogPush op => exact congrArg (Option.map _) (opRecord.dec_enc op rest h)
    | oplogAck origin upToSeq =>
      exact congrArg (Option.map _) ((nodeId.pair zigzag).dec_enc _ rest h)
    | subscribeOps resume => exact congrArg (Option.map _) (frontier.dec_enc resume rest h)
    | ping nonce => exact congrArg (Option.map _) (u64.dec_enc nonce rest h)
    | pong nonce => exact congrArg (Option.map _) (u64.dec_enc nonce rest h)

def reconcileFrame : Format ReconcileFrame where
  enc
    | .begin => [0]
    | .rootIs root frontier => 1 :: (hash.pair Wire.frontier).enc (root, frontier)
    | .treeReq pre afterName limit => 2 :: (text.pair <| text.pair u32).enc (pre, afterName, limit)
    | .treeResp children more => 3 :: ((seq wireChild).pair bool).enc (children, more)
    | .leafReq path => 4 :: text.enc path
    | .leafResp found r => 5 :: (bool.pair row).enc (found, r)
    | .done => [6]
  dec bs := (varint.dec bs).bind fun x =>
    match x.1 with
    | 0 => some (.begin, x.2)
    | 1 => ((hash.pair Wire.frontier).dec x.2).map fun y => (.rootIs y.1.1 y.1.2, y.2)
    | 2 => ((text.pair <| text.pair u32).dec x.2).map fun y => (.treeReq y.1.1 y.1.2.1 y.1.2.2, y.2)
    | 3 => (((seq wireChild).pair bool).dec x.2).map fun y => (.treeResp y.1.1 y.1.2, y.2)
    | 4 => (text.dec x.2).map fun y => (.leafReq y.1, y.2)
    | 5 => ((bool.pair row).dec x.2).map fun y => (.leafResp y.1.1 y.1.2, y.2)
    | 6 => some (.done, x.2)
    | _ => none
  Valid
    | .begin => True
    | .rootIs root frontier => (hash.pair Wire.frontier).Valid (root, frontier)
    | .treeReq pre afterName limit => (text.pair <| text.pair u32).Valid (pre, afterName, limit)
    | .treeResp children more => ((seq wireChild).pair bool).Valid (children, more)
    | .leafReq path => text.Valid path
    | .leafResp found r => (bool.pair row).Valid (found, r)
    | .done => True
  dec_enc msg rest h := by
    cases msg with
    | begin => rfl
    | rootIs root frontier =>
      exact congrArg (Option.map _) ((hash.pair Wire.frontier).dec_enc _ rest h)
    | treeReq pre afterName limit =>
      exact congrArg (Option.map _) ((text.pair <| text.pair u32).dec_enc _ rest h)
    | treeResp children more =>
      exact congrArg (Option.map _) (((seq wireChild).pair bool).dec_enc _ rest h)
    | leafReq path => exact congrArg (Option.map _) (text.dec_enc path rest h)
    | leafResp found r => exact congrArg (Option.map _) ((bool.pair row).dec_enc _ rest h)
    | done => rfl

end Wire

/-- The encoding of a format within the limit of one frame. -/
def frameLimited {T : Type*} (f : Format T) : Codec T where
  serialize := f.serialize maxFrame
  deserialize := f.deserialize maxFrame

/-- The control stream. -/
def frameCodec : Codec Frame := frameLimited Wire.frame

/-- The stream of an anti-entropy session. -/
def reconcileCodec : Codec ReconcileFrame := frameLimited Wire.reconcileFrame

/-- A message within the ranges of the wire is read as it was sent. -/
theorem frameLimited_roundTrip {T : Type*} {f : Format T} {msg : T} {body : List Byte}
    (hvalid : f.Valid msg) (h : (frameLimited f).serialize msg = some body) :
    (frameLimited f).deserialize body = some msg :=
  Format.deserialize_serialize hvalid h

/-- A message fits exactly if its encoding is not longer than a frame. -/
theorem fits_frameLimited {T : Type*} {f : Format T} {msg : T} :
    (frameLimited f).Fits msg ↔ (f.enc msg).length ≤ maxFrame := by
  constructor
  · rintro ⟨body, hbody, hlen⟩
    simp only [frameLimited, Format.serialize, Option.ite_none_right_eq_some, Option.some.injEq]
      at hbody
    exact hbody.1
  · intro hlen
    exact ⟨f.enc msg, if_pos hlen, hlen⟩

/-- A message that does not fit is not sent. -/
theorem writeMsg_frameLimited {T : Type*} {f : Format T} (msg : T) :
    ((frameLimited f).Fits msg ∧ ∃ frame, writeMsg (frameLimited f) msg = .ok frame) ∨
      (¬ (frameLimited f).Fits msg ∧ writeMsg (frameLimited f) msg = .error .encode) := by
  rw [fits_frameLimited]
  by_cases hlen : (f.enc msg).length ≤ maxFrame
  · have hser : (frameLimited f).serialize msg = some (f.enc msg) := if_pos hlen
    exact .inl ⟨hlen, _, by rw [writeMsg, hser]; exact if_neg (Nat.not_lt.2 hlen)⟩
  · have hser : (frameLimited f).serialize msg = none := if_neg hlen
    exact .inr ⟨hlen, by rw [writeMsg, hser]⟩

theorem writeMsg_ok_iff {T : Type*} {f : Format T} {msg : T} :
    (∃ frame, writeMsg (frameLimited f) msg = .ok frame) ↔ (frameLimited f).Fits msg := by
  rcases writeMsg_frameLimited (f := f) msg with ⟨hfits, hok⟩ | ⟨hbig, hfail⟩
  · exact ⟨fun _ => hfits, fun _ => hok⟩
  · rw [hfail]
    exact ⟨fun ⟨frame, h⟩ => (by cases h), fun h => absurd h hbig⟩

/-! ### Lengths -/

/-- Bytes of something behind its length. -/
def blobLen (n : ℕ) : ℕ := varintLen n + n

/-- Bytes of an optional part. -/
def optLen {α : Type*} (len : α → ℕ) (o : Option α) : ℕ := 1 + (o.map len).getD 0

/-- Bytes of a text. -/
def textLen (s : Path) : ℕ := blobLen (utf8 s).length

/-- Bytes of a metadata snapshot: the target and every attribute with its name and value. -/
def Meta.wireLen (m : Meta) : ℕ :=
  1 + varintLen m.mode.val + varintLen m.uid.val + varintLen m.gid.val +
    varintLen (zigzagNat m.mtimeS.toInt) + varintLen m.mtimeNs.val +
    optLen (fun t => blobLen t.length) m.symlinkTarget + varintLen m.rdev.val +
    varintLen m.xattrs.length + (m.xattrs.map fun x => blobLen x.1.length + blobLen x.2.length).sum

/-- Bytes of a vector: 16 for each writer, and its counter. -/
def VersionVector.wireLen (v : VersionVector) : ℕ :=
  varintLen v.map.entries.length + (v.map.entries.map fun e => 16 + varintLen e.2).sum

/-- Bytes of the frame of an op with these parts, its identity present. -/
def oplogPushLen (originSeq : ℤ) (path : Path) (pathOld : Option Path) (mode : U32) (size : U64)
    (contentHash : Option Hash) (metadata : Option Meta) (vv : VersionVector) : ℕ :=
  1 + 32 + 16 + varintLen (zigzagNat originSeq) + 1 + textLen path + optLen textLen pathOld + 17 +
    varintLen mode.val + varintLen size.val + optLen (fun _ => 32) contentHash +
    optLen Meta.wireLen metadata + vv.wireLen

/-- Bytes of the frame that answers with a row. -/
def Row.leafLen (r : Row) : ℕ :=
  1 + 1 + 1 + optLen (fun _ => 32) r.contentHash + r.vv.wireLen + varintLen r.mode.val +
    varintLen r.size.val + optLen (fun _ => 16) r.uuid + optLen Meta.wireLen r.metadata

namespace Wire

open Format

theorem length_varintLen (n : ℕ) : (varint.enc n).length = varintLen n := length_varint n

theorem length_optLen {α : Type*} {f : Format α} {len : α → ℕ} (h : ∀ a, (f.enc a).length = len a)
    (o : Option α) : ((option f).enc o).length = optLen len o := by
  rw [length_option, optLen, funext h]

theorem length_blobLen (bs : List Byte) : (bytes.enc bs).length = blobLen bs.length := by
  rw [length_bytes, length_varintLen]
  rfl

theorem length_textLen (s : Path) : (text.enc s).length = textLen s := length_blobLen (utf8 s)

theorem length_kind (k : FileKind) : (kind.enc k).length = 1 := by
  cases k <;> rfl

theorem length_opType (t : OpType) : (opType.enc t).length = 1 := by
  cases t <;> rfl

theorem length_hash (h : Hash) : (hash.enc h).length = 32 := length_be _ h

theorem length_nodeId (n : NodeId) : (nodeId.enc n).length = 16 := length_be _ n

theorem length_metadata (m : Meta) : (metadata.enc m).length = m.wireLen := by
  simp only [metadata, length_via, length_pair, length_kind, u32, u64, i64, length_fin, length_zigzag,
    length_seq, length_optLen length_blobLen, length_blobLen, length_varintLen, Meta.wireLen]
  omega

theorem length_vv (v : VersionVector) : (vv.enc v).length = v.wireLen := by
  simp only [vv, length_via, length_seq, length_pair, length_nodeId, length_varintLen,
    VersionVector.wireLen]

theorem length_oplogPush {op : OpRecord} (huuid : op.uuid.isSome) :
    (frame.enc (.oplogPush op)).length =
      oplogPushLen op.originSeq op.path op.pathOld op.mode op.size op.contentHash op.metadata op.vv := by
  obtain ⟨uuid, huuid⟩ := Option.isSome_iff_exists.1 huuid
  show (opRecord.enc op).length + 1 = _
  simp only [opRecord, length_via, length_pair, length_hash, length_nodeId, length_zigzag,
    length_opType, length_textLen, length_optLen length_textLen, length_optLen length_nodeId,
    length_optLen length_hash, length_optLen length_metadata, length_vv, u32, u64, length_fin,
    length_varintLen, oplogPushLen, huuid, optLen, Option.map_some, Option.getD_some]
  omega

theorem length_leafResp (found : Bool) (r : Row) :
    (reconcileFrame.enc (.leafResp found r)).length = r.leafLen := by
  show ((bool.pair row).enc (found, r)).length + 1 = _
  simp only [row, length_via, length_pair, length_bool, length_optLen length_hash, length_vv,
    length_optLen length_nodeId, length_optLen length_metadata, u32, u64, length_fin,
    length_varintLen, Row.leafLen]
  omega

theorem length_treeReq (pre afterName : Path) (limit : U32) :
    (reconcileFrame.enc (.treeReq pre afterName limit)).length =
      1 + textLen pre + textLen afterName + varintLen limit.val := by
  show ((text.pair <| text.pair u32).enc (pre, afterName, limit)).length + 1 = _
  simp only [length_pair, length_textLen, u32, length_fin, length_varintLen]
  omega

theorem length_treeResp (children : List WireChild) (more : Bool) :
    (reconcileFrame.enc (.treeResp children more)).length =
      1 + varintLen children.length + (children.map fun c => textLen c.name + 33).sum + 1 := by
  show (((seq wireChild).pair bool).enc (children, more)).length + 1 = _
  simp only [length_pair, length_seq, length_bool, length_varintLen, wireChild, length_via,
    length_textLen, length_hash, Nat.reduceAdd]
  omega

end Wire

theorem fits_oplogPush {op : OpRecord} (huuid : op.uuid.isSome) :
    frameCodec.Fits (.oplogPush op) ↔
      oplogPushLen op.originSeq op.path op.pathOld op.mode op.size op.contentHash op.metadata op.vv ≤
        maxFrame := by
  rw [frameCodec, fits_frameLimited, Wire.length_oplogPush huuid]

theorem fits_leafResp (found : Bool) (r : Row) :
    reconcileCodec.Fits (.leafResp found r) ↔ r.leafLen ≤ maxFrame := by
  rw [reconcileCodec, fits_frameLimited, Wire.length_leafResp]

theorem fits_treeReq {pre afterName : Path} {limit : U32} :
    reconcileCodec.Fits (.treeReq pre afterName limit) ↔
      1 + textLen pre + textLen afterName + varintLen limit.val ≤ maxFrame := by
  rw [reconcileCodec, fits_frameLimited, Wire.length_treeReq]

theorem fits_treeResp {children : List WireChild} {more : Bool} :
    reconcileCodec.Fits (.treeResp children more) ↔
      1 + varintLen children.length + (children.map fun c => textLen c.name + 33).sum + 1 ≤
        maxFrame := by
  rw [reconcileCodec, fits_frameLimited, Wire.length_treeResp]

end Replicore
