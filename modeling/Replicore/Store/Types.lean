import Mathlib.Data.List.Sort
import Mathlib.Data.Prod.Lex
import Mathlib.Data.List.Lex
import Replicore.Lib.Bytes
import Replicore.Vv.Basic

/-!
# Records of the store and the wire

The data model shared by the store, the planner and the protocol: metadata snapshots
(`metadata.rs`), operation records (`proto.rs`), rows of the `files` table (`state.rs`), and the
identities derived from BLAKE3.

BLAKE3 is a third-party crate: it is a parameter of the model, the class `Blake3`.  Everything the
repository feeds to it is modelled byte by byte, so that "no collision" is always a statement about
the byte strings that a run really hashes.
-/

namespace Replicore

open Bytes

/-- A BLAKE3 digest, 32 bytes read as a big-endian number: the numeric order is the byte order. -/
abbrev Hash := Fin (2 ^ 256)

/-- Unsigned 32-bit integers. -/
abbrev U32 := Fin (2 ^ 32)

/-- Unsigned 64-bit integers. -/
abbrev U64 := Fin (2 ^ 64)

instance neZero_hash : NeZero (2 ^ 256) := ⟨by decide⟩

instance neZero_u16 : NeZero (2 ^ 16) := ⟨by decide⟩

instance neZero_u32 : NeZero (2 ^ 32) := ⟨by decide⟩

instance neZero_u64 : NeZero (2 ^ 64) := ⟨by decide⟩

instance lawfulBEq_hash : LawfulBEq Hash := inferInstance

/-- A path relative to the share root, `/`-separated. -/
abbrev Path := List Char

/-- The hash function, as a parameter. -/
class Blake3 where
  /-- The digest of a byte string. -/
  hash : List Byte → Hash

/-- A digest that can be evaluated, for concrete runs of the model: a polynomial in the bytes with a
256-bit multiplier. -/
@[reducible] def Blake3.polynomial : Blake3 where
  hash bs := Fin.ofNat _ (bs.foldl (fun acc b =>
    (acc * 0x9E3779B97F4A7C15F39CC0605CEDC8341082276BF3A27251F86C6A11D0C18E95 + b.val + 1) %
      2 ^ 256) 1)

/-- The bytes of a digest. -/
def Hash.bytes (h : Hash) : List Byte := beBytes 32 h.val

/-- The bytes of a node id. -/
def NodeId.bytes (n : NodeId) : List Byte := beBytes 16 n.val

/-- The first 16 bytes of a digest, as an identifier. -/
def Hash.first16 (h : Hash) : NodeId := ⟨h.val / 2 ^ 128, by have := h.isLt; omega⟩

/-- A 64-bit two's complement integer, big-endian. -/
def i64BeBytes (i : ℤ) : List Byte := beBytes 8 (i % 2 ^ 64).toNat

/-! ### Metadata -/

/-- The kinds of node that replicate. -/
inductive FileKind
  | regular
  | symlink
  | fifo
  | charDev
  | blockDev
  deriving DecidableEq, Repr

/-- Canonical metadata snapshot. -/
structure Meta where
  kind : FileKind
  mode : U32
  uid : U32
  gid : U32
  mtimeS : Int64
  mtimeNs : U32
  symlinkTarget : Option (List Byte)
  rdev : U64
  xattrs : List (List Byte × List Byte)
  deriving DecidableEq

/-- `meta_hash` for "no metadata". -/
def metaNone : Hash := 0

namespace FileKind

/-- The discriminant of a kind, in declaration order. -/
def tag : FileKind → ℕ
  | regular => 0
  | symlink => 1
  | fifo => 2
  | charDev => 3
  | blockDev => 4

end FileKind

namespace Meta

/-- A byte vector behind its length, as bincode and `naming_hash` write it. -/
def lenPrefixed (bs : List Byte) : List Byte := leBytes 8 bs.length ++ bs

/-- Length-prefixed name and value of one attribute. -/
def xattrBytes (x : List Byte × List Byte) : List Byte := lenPrefixed x.1 ++ lenPrefixed x.2

/-- `bincode::serialize`: fixed-width little-endian fields in declaration order. -/
def serialize (m : Meta) : List Byte :=
  leBytes 4 m.kind.tag ++ leBytes 4 m.mode.val ++ leBytes 4 m.uid.val ++ leBytes 4 m.gid.val ++
    leBytes 8 m.mtimeS.toUInt64.toNat ++ leBytes 4 m.mtimeNs.val ++
    (match m.symlinkTarget with
      | none => [0]
      | some t => 1 :: lenPrefixed t) ++
    leBytes 8 m.rdev.val ++ leBytes 8 m.xattrs.length ++ m.xattrs.flatMap xattrBytes

/-- The bytes `naming_hash` hashes: the durable fields, attributes sorted. -/
def namingBytes (m : Meta) : List Byte :=
  let xattrs := m.xattrs.insertionSort fun a b => toLex a ≤ toLex b
  byte m.kind.tag :: leBytes 4 m.mode.val ++ leBytes 8 m.rdev.val ++
    (match m.symlinkTarget with
      | some t => 1 :: lenPrefixed t
      | none => [0]) ++
    leBytes 8 xattrs.length ++ xattrs.flatMap xattrBytes

variable [Blake3]

/-- Canonical hash; `metaNone` for absent metadata. -/
def hashOf : Option Meta → Hash
  | none => metaNone
  | some m => Blake3.hash m.serialize

/-- Hash of the stable metadata subset used to name conflict copies. -/
def namingHash : Option Meta → Hash
  | none => metaNone
  | some m => Blake3.hash m.namingBytes

end Meta

/-! ### Rows, versions, operations -/

/-- The columns of a `files` row beside its key. -/
structure Row where
  contentHash : Option Hash
  mode : U32
  size : U64
  tombstone : Bool
  vv : VersionVector
  uuid : Option NodeId
  metadata : Option Meta
  deriving DecidableEq

/-- One row of the full index.  A reconciled row and a planned row have the same columns. -/
structure FileRow extends Row where
  path : Path
  deriving DecidableEq

/-- A row learned via anti-entropy. -/
abbrev ReconciledRow := FileRow

/-- One row mutation a resolution will commit. -/
abbrev PlannedRow := FileRow

/-- What kind of mutation an op describes. -/
inductive OpType
  | write
  | delete
  | rename
  deriving DecidableEq, Repr

/-- One replicated operation. -/
structure OpRecord where
  opId : Hash
  origin : NodeId
  originSeq : ℤ
  opType : OpType
  /-- For a rename: the new path. -/
  path : Path
  /-- Rename source path. -/
  pathOld : Option Path
  uuid : Option NodeId
  mode : U32
  size : U64
  contentHash : Option Hash
  metadata : Option Meta
  vv : VersionVector
  deriving DecidableEq

/-- The op affects `p`: as its path, or as the source of a rename. -/
def OpRecord.Affects (o : OpRecord) (p : Path) : Prop := o.path = p ∨ o.pathOld = some p

instance (o : OpRecord) (p : Path) : Decidable (o.Affects p) :=
  inferInstanceAs (Decidable (_ ∨ _))

/-- A chunk of a file manifest. -/
structure ChunkEntry where
  hash : Hash
  len : U32
  deriving DecidableEq

/-- The ordered chunk list of a file. -/
structure Manifest where
  contentHash : Hash
  chunks : List ChunkEntry
  deriving DecidableEq

/-- A local mutation observed by the watcher or scanner, before it becomes an op. -/
structure LocalChange where
  path : Path
  opType : OpType
  mode : U32
  size : U64
  contentHash : Option Hash
  metadata : Option Meta
  manifest : Option Manifest
  deriving DecidableEq

/-- A change as ingest builds it: a delete carries no content, size or metadata, and a manifest
describes the content it comes with. -/
def LocalChange.Ingested (c : LocalChange) : Prop :=
  c.opType ≠ .rename ∧
    (c.opType = .delete → c.contentHash = none ∧ c.size = 0 ∧ c.metadata = none) ∧
    ∀ m, c.manifest = some m → some m.contentHash = c.contentHash

instance (c : LocalChange) : Decidable c.Ingested :=
  inferInstanceAs (Decidable (_ ∧ _ ∧ ∀ m, c.manifest = some m → _))

/-! ### Derived identities -/

section

variable [Blake3]

/-- Deterministic op identity: `blake3(origin ‖ origin_seq)`. -/
def opIdOf (origin : NodeId) (originSeq : ℤ) : Hash :=
  Blake3.hash (origin.bytes ++ i64BeBytes originSeq)

/-- Identity minted at create: `blake3(origin ‖ origin_seq ‖ path)`, truncated. -/
def freshUuid (origin : NodeId) (originSeq : ℤ) (path : Path) : NodeId :=
  (Blake3.hash (origin.bytes ++ i64BeBytes originSeq ++ utf8 path)).first16

/-- Identity for a row that predates identities: a function of the path alone. -/
def migrationUuid (path : Path) : NodeId :=
  (Blake3.hash (utf8 "replicore-uuid-migration".toList ++ utf8 path)).first16

end

end Replicore
