import Mathlib.Data.Char
import Replicore.Lib.Hier
import Replicore.Store.Types

/-!
# The Merkle tree over the rows

`MerkleTree::build` of `merkle.rs`.  A row is hashed into a leaf, byte by byte as the source feeds
the hasher, and a directory into the sorted list of its children.  The tree is built from the rows,
one by one: each puts its leaf into its parent and marks the directories above it; then the
directory hashes are computed from the longest path up.
-/

namespace Replicore

open Bytes

/-- `bincode::serialize` of a vector: the number of entries, then node id and counter of each. -/
def VersionVector.serialize (v : VersionVector) : List Byte :=
  leBytes 8 v.map.entries.length ++
    v.map.entries.flatMap fun e => NodeId.bytes e.1 ++ leBytes 8 e.2

/-- A boolean as a byte. -/
def boolByte (b : Bool) : Byte := byte (if b then 1 else 0)

/-- Children of a directory: name to hash, and whether the child is a directory. -/
abbrev Children := OrdMap Path (Hash × Bool)

/-- Directory path (empty for the root) to its children. -/
abbrev Dirs := OrdMap Path Children

/-- Tree over `/`-separated paths with bottom-up directory hashes. -/
structure MerkleTree where
  dirs : Dirs
  leaves : OrdMap Path FileRow
  root : Hash

/-- Parent and name of a path. -/
def splitParent (path : Path) : Path × Path := Hier.split '/' path

/-- A name in a directory. -/
def joinPrefix (dir name : Path) : Path := Hier.join '/' dir name

namespace Dirs

/-- The entry of a name in a directory. -/
def look (dirs : Dirs) (dir name : Path) : Option (Hash × Bool) :=
  (dirs.get? dir).bind (·.get? name)

/-- Put an entry into a directory, which is created if need be. -/
def put (dirs : Dirs) (dir name : Path) (entry : Hash × Bool) : Dirs :=
  dirs.insert dir (((dirs.get? dir).getD OrdMap.empty).insert name entry)

/-- One round of the ancestor loop: the entry of `dir` in its parent says that it is a directory. -/
def markDir (dirs : Dirs) (dir : Path) : Dirs :=
  let (up, name) := splitParent dir
  dirs.put up name (((dirs.look up name).getD (0, true)).1, true)

/-- Ensure the ancestor chain.  The parent of a directory is shorter, so the length is enough
fuel. -/
def markAncestors : ℕ → Dirs → Path → Dirs
  | 0, dirs, _ => dirs
  | k + 1, dirs, dir =>
    if dir = [] then dirs else markAncestors k (dirs.markDir dir) (splitParent dir).1

/-- Set the hash of a directory in the entry of its parent. -/
def setHash (dirs : Dirs) (dir : Path) (hash : Hash) : Dirs :=
  let (up, name) := splitParent dir
  match dirs.get? up with
  | none => dirs
  | some children =>
    match children.get? name with
    | none => dirs
    | some (_, isDir) => dirs.insert up (children.insert name (hash, isDir))

end Dirs

namespace MerkleTree

variable [Blake3]

/-- What a leaf hashes: `path ‖ 0x00 ‖ tombstone ‖ content_hash ‖ uuid ‖ meta_hash ‖ vv`. -/
def leafBytes (row : FileRow) : List Byte :=
  utf8 row.path ++ byte 0 :: boolByte row.tombstone ::
    (Hash.bytes (row.contentHash.getD 0) ++ (NodeId.bytes (row.uuid.getD 0) ++
      (Hash.bytes (Meta.hashOf row.metadata) ++ row.vv.serialize)))

/-- Merkle leaf hash. -/
def leafHash (row : FileRow) : Hash := Blake3.hash (leafBytes row)

/-- What one child contributes: `name ‖ 0x01 ‖ is_dir ‖ hash`. -/
def childBytes (e : Path × Hash × Bool) : List Byte :=
  utf8 e.1 ++ byte 1 :: boolByte e.2.2 :: Hash.bytes e.2.1

/-- The hash of a directory. -/
def hashChildren (children : Children) : Hash := Blake3.hash (children.entries.flatMap childBytes)

/-- The children of a directory, none if there is no such directory. -/
def childrenOf (dirs : Dirs) (dir : Path) : Children := (dirs.get? dir).getD OrdMap.empty

/-- One row goes into the tree. -/
def addRow (dirs : Dirs) (row : FileRow) : Dirs :=
  let (parent, name) := splitParent row.path
  (dirs.put parent name (leafHash row, false)).markAncestors parent.length parent

/-- The bottom-up pass over the directories in reverse order of their paths, so that each comes after
those below it; the root is the last. -/
def hashUp (leaves : OrdMap Path FileRow) : List Path → Dirs → MerkleTree
  | [], dirs => ⟨dirs, leaves, hashChildren (childrenOf dirs [])⟩
  | dir :: rest, dirs =>
    let hash := hashChildren (childrenOf dirs dir)
    if dir = [] then ⟨dirs, leaves, hash⟩ else hashUp leaves rest (dirs.setHash dir hash)

/-- Build from index rows. -/
def build (rows : List FileRow) : MerkleTree :=
  let dirs := rows.foldl addRow (OrdMap.empty.insert [] OrdMap.empty)
  let leaves := rows.foldl (fun leaves row => leaves.insert row.path row) OrdMap.empty
  hashUp leaves dirs.keys.reverse dirs

end MerkleTree

end Replicore
