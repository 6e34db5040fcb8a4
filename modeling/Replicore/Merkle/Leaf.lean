import Mathlib.Tactic.NormNum
import Replicore.Merkle.Tree

/-!
# What a leaf hashes

A leaf is hashed over the bytes of its row: the path, a NUL, fixed-width fields, the hash of the
metadata and the serialized vector.  The bytes determine the path and what the leaf tells of the
row (`leafBytes_inj`), because a path has no NUL, metadata serializes injectively
(`Meta.serialize_inj`) and so do vectors (`VersionVector.serialize_inj`).
-/

namespace Replicore

open Bytes MerkleTree

/-! ### Vectors -/

/-- The counters fit 64 bits, as `u64` does. -/
def VersionVector.FitsU64 (v : VersionVector) : Prop := ∀ e ∈ v.map.entries, e.2 < u64Bound

theorem NodeId.bytes_inj {a b : NodeId} (h : NodeId.bytes a = NodeId.bytes b) : a = b :=
  Fin.ext (beBytes_inj (lt_of_lt_of_eq a.isLt (by norm_num))
    (lt_of_lt_of_eq b.isLt (by norm_num)) h)

theorem Hash.bytes_inj {a b : Hash} (h : Hash.bytes a = Hash.bytes b) : a = b :=
  Fin.ext (beBytes_inj (lt_of_lt_of_eq a.isLt (by norm_num))
    (lt_of_lt_of_eq b.isLt (by norm_num)) h)

theorem serialize_entries_inj {es fs : List (NodeId × ℕ)} (he : ∀ e ∈ es, e.2 < u64Bound)
    (hf : ∀ e ∈ fs, e.2 < u64Bound)
    (h : (es.flatMap fun e => NodeId.bytes e.1 ++ leBytes 8 e.2) =
      fs.flatMap fun e => NodeId.bytes e.1 ++ leBytes 8 e.2) : es = fs := by
  have hlen : ∀ e : NodeId × ℕ, (NodeId.bytes e.1 ++ leBytes 8 e.2).length = 24 := by
    intro e
    simp [NodeId.bytes]
  induction es generalizing fs with
  | nil =>
    cases fs with
    | nil => rfl
    | cons f fs =>
      have hl := congrArg List.length h
      simp only [List.flatMap_nil, List.length_nil, List.flatMap_cons, List.length_append] at hl
      have := hlen f
      simp only [List.length_append] at this
      omega
  | cons e es ih =>
    cases fs with
    | nil =>
      have hl := congrArg List.length h
      simp only [List.flatMap_nil, List.length_nil, List.flatMap_cons, List.length_append] at hl
      have := hlen e
      simp only [List.length_append] at this
      omega
    | cons f fs =>
      rw [List.flatMap_cons, List.flatMap_cons] at h
      obtain ⟨hhead, htail⟩ := List.append_inj h ((hlen e).trans (hlen f).symm)
      obtain ⟨hid, hcount⟩ := List.append_inj hhead (by simp [NodeId.bytes])
      have hcount' := leBytes_inj (lt_of_lt_of_eq (he e List.mem_cons_self) (by norm_num [u64Bound]))
        (lt_of_lt_of_eq (hf f List.mem_cons_self) (by norm_num [u64Bound])) hcount
      rw [ih (fun x hx => he x (List.mem_cons_of_mem _ hx))
        (fun x hx => hf x (List.mem_cons_of_mem _ hx)) htail, Prod.ext (NodeId.bytes_inj hid) hcount']

theorem VersionVector.serialize_inj {v w : VersionVector} (hv : v.FitsU64) (hw : w.FitsU64)
    (h : v.serialize = w.serialize) : v = w := by
  obtain ⟨-, hentries⟩ := List.append_inj h (by simp)
  obtain ⟨m⟩ := v
  obtain ⟨m'⟩ := w
  exact congrArg VersionVector.mk (OrdMap.entries_inj.1 (serialize_entries_inj hv hw hentries))

/-! ### Metadata -/

namespace Meta

/-- The lengths fit 64 bits, as a length in memory does. -/
structure Fits (m : Meta) : Prop where
  target : ∀ t, m.symlinkTarget = some t → t.length < u64Bound
  count : m.xattrs.length < u64Bound
  xattrs : ∀ x ∈ m.xattrs, x.1.length < u64Bound ∧ x.2.length < u64Bound

/-- A fixed-width number can be read off what begins with it. -/
theorem leBytes_append_inj {w a b : ℕ} {s s' : List Byte} (ha : a < 256 ^ w) (hb : b < 256 ^ w)
    (h : leBytes w a ++ s = leBytes w b ++ s') : a = b ∧ s = s' := by
  obtain ⟨hnum, hrest⟩ := List.append_inj h (by simp)
  exact ⟨leBytes_inj ha hb hnum, hrest⟩

theorem leBytes_u32_inj {a b : U32} {s s' : List Byte}
    (h : leBytes 4 a.val ++ s = leBytes 4 b.val ++ s') : a = b ∧ s = s' := by
  obtain ⟨hnum, hrest⟩ := leBytes_append_inj (lt_of_lt_of_eq a.isLt (by norm_num))
    (lt_of_lt_of_eq b.isLt (by norm_num)) h
  exact ⟨Fin.ext hnum, hrest⟩

theorem lenPrefixed_append_inj {x y s s' : List Byte} (hx : x.length < u64Bound)
    (hy : y.length < u64Bound) (h : lenPrefixed x ++ s = lenPrefixed y ++ s') :
    x = y ∧ s = s' := by
  unfold lenPrefixed at h
  rw [List.append_assoc, List.append_assoc] at h
  obtain ⟨hlen, hrest⟩ := leBytes_append_inj (lt_of_lt_of_eq hx (by norm_num [u64Bound]))
    (lt_of_lt_of_eq hy (by norm_num [u64Bound])) h
  exact List.append_inj hrest hlen

theorem xattrs_inj {xs ys : List (List Byte × List Byte)}
    (hx : ∀ x ∈ xs, x.1.length < u64Bound ∧ x.2.length < u64Bound)
    (hy : ∀ y ∈ ys, y.1.length < u64Bound ∧ y.2.length < u64Bound) (hlen : xs.length = ys.length)
    (h : xs.flatMap xattrBytes = ys.flatMap xattrBytes) : xs = ys := by
  induction xs generalizing ys with
  | nil => exact (List.length_eq_zero_iff.1 hlen.symm).symm
  | cons x xs ih =>
    cases ys with
    | nil => cases hlen
    | cons y ys =>
      rw [List.flatMap_cons, List.flatMap_cons, xattrBytes, xattrBytes, List.append_assoc,
        List.append_assoc] at h
      obtain ⟨hx1, hx2⟩ := hx x List.mem_cons_self
      obtain ⟨hy1, hy2⟩ := hy y List.mem_cons_self
      obtain ⟨hname, h⟩ := lenPrefixed_append_inj hx1 hy1 h
      obtain ⟨hvalue, h⟩ := lenPrefixed_append_inj hx2 hy2 h
      rw [Prod.ext hname hvalue, ih (fun z hz => hx z (List.mem_cons_of_mem _ hz))
        (fun z hz => hy z (List.mem_cons_of_mem _ hz)) (Nat.succ.inj hlen) h]

/-- The flag and the target of a symlink. -/
def targetBytes : Option (List Byte) → List Byte
  | none => [0]
  | some t => 1 :: lenPrefixed t

theorem targetBytes_append_inj {t t' : Option (List Byte)} {s s' : List Byte}
    (ht : ∀ x, t = some x → x.length < u64Bound) (ht' : ∀ x, t' = some x → x.length < u64Bound)
    (h : targetBytes t ++ s = targetBytes t' ++ s') : t = t' ∧ s = s' := by
  cases t with
  | none =>
    cases t' with
    | none => exact ⟨rfl, List.tail_eq_of_cons_eq h⟩
    | some x' => exact absurd (List.head_eq_of_cons_eq h) (by decide)
  | some x =>
    cases t' with
    | none => exact absurd (List.head_eq_of_cons_eq h) (by decide)
    | some x' =>
      obtain ⟨rfl, hrest⟩ := lenPrefixed_append_inj (ht x rfl) (ht' x' rfl)
        (List.tail_eq_of_cons_eq h)
      exact ⟨rfl, hrest⟩

theorem serialize_eq (m : Meta) : m.serialize =
    leBytes 4 m.kind.tag ++ (leBytes 4 m.mode.val ++ (leBytes 4 m.uid.val ++
      (leBytes 4 m.gid.val ++ (leBytes 8 m.mtimeS.toUInt64.toNat ++ (leBytes 4 m.mtimeNs.val ++
        (targetBytes m.symlinkTarget ++ (leBytes 8 m.rdev.val ++ (leBytes 8 m.xattrs.length ++
          m.xattrs.flatMap xattrBytes)))))))) := by
  unfold serialize
  simp only [List.append_assoc]
  rfl

theorem tag_lt (k : FileKind) : k.tag < 256 ^ 4 := by
  cases k <;> decide

theorem tag_inj {k k' : FileKind} (h : k.tag = k'.tag) : k = k' := by
  cases k <;> cases k' <;> first | rfl | exact absurd h (by decide)

/-- Metadata serializes injectively. -/
theorem serialize_inj {m m' : Meta} (hm : m.Fits) (hm' : m'.Fits)
    (h : m.serialize = m'.serialize) : m = m' := by
  rw [serialize_eq, serialize_eq] at h
  obtain ⟨hkind, h⟩ := leBytes_append_inj (tag_lt _) (tag_lt _) h
  obtain ⟨hmode, h⟩ := leBytes_u32_inj h
  obtain ⟨huid, h⟩ := leBytes_u32_inj h
  obtain ⟨hgid, h⟩ := leBytes_u32_inj h
  obtain ⟨hmtime, h⟩ := leBytes_append_inj (lt_of_lt_of_eq (UInt64.toNat_lt _) (by norm_num))
    (lt_of_lt_of_eq (UInt64.toNat_lt _) (by norm_num)) h
  obtain ⟨hmtimeNs, h⟩ := leBytes_u32_inj h
  obtain ⟨htarget, h⟩ := targetBytes_append_inj hm.target hm'.target h
  obtain ⟨hrdev, h⟩ := leBytes_append_inj (lt_of_lt_of_eq m.rdev.isLt (by norm_num))
    (lt_of_lt_of_eq m'.rdev.isLt (by norm_num)) h
  obtain ⟨hlen, h⟩ := leBytes_append_inj (lt_of_lt_of_eq hm.count (by norm_num [u64Bound]))
    (lt_of_lt_of_eq hm'.count (by norm_num [u64Bound])) h
  have hxattrs := xattrs_inj hm.xattrs hm'.xattrs hlen h
  have htime : m.mtimeS = m'.mtimeS :=
    (congrArg UInt64.toInt64 (UInt64.toNat_inj.1 hmtime) : m.mtimeS.toUInt64.toInt64 = _)
  cases m
  cases m'
  simp only at hkind hmode huid hgid htime hmtimeNs htarget hrdev hxattrs
  obtain rfl := tag_inj hkind
  obtain rfl := Fin.ext hrdev
  rw [hmode, huid, hgid, htime, hmtimeNs, htarget, hxattrs]

end Meta

/-! ### Leaves -/

/-- What a leaf tells of its row.  An absent content hash or identity counts as zeros. -/
structure LeafData where
  tombstone : Bool
  contentHash : Hash
  uuid : NodeId
  metadata : Option Meta
  vv : VersionVector
  deriving DecidableEq

def FileRow.leafData (r : FileRow) : LeafData :=
  ⟨r.tombstone, r.contentHash.getD 0, r.uuid.getD 0, r.metadata, r.vv⟩

theorem boolByte_inj {a b : Bool} (h : boolByte a = boolByte b) : a = b := by
  cases a <;> cases b <;> first | rfl | exact absurd h (by decide)

variable [Blake3]

theorem leafBytes_congr {r r' : FileRow} (hpath : r.path = r'.path)
    (hdata : r.leafData = r'.leafData) : leafBytes r = leafBytes r' := by
  unfold FileRow.leafData at hdata
  simp only [LeafData.mk.injEq] at hdata
  obtain ⟨htomb, hcontent, huuid, hmeta, hvv⟩ := hdata
  unfold leafBytes
  rw [hpath, htomb, hcontent, huuid, hmeta, hvv]

/-- The bytes of a leaf determine the path, and what the leaf tells of the row. -/
theorem leafBytes_inj {r r' : FileRow} (hr : '\x00' ∉ r.path) (hr' : '\x00' ∉ r'.path)
    (hfits : r.vv.FitsU64) (hfits' : r'.vv.FitsU64)
    (hmeta : Meta.hashOf r.metadata = Meta.hashOf r'.metadata → r.metadata = r'.metadata)
    (h : leafBytes r = leafBytes r') : r.path = r'.path ∧ r.leafData = r'.leafData := by
  unfold leafBytes at h
  obtain ⟨hpath, h⟩ := utf8_nul_inj hr hr' h
  obtain ⟨htomb, h⟩ := List.cons.inj h
  obtain ⟨hcontent, h⟩ := List.append_inj h (by simp [Hash.bytes])
  obtain ⟨huuid, h⟩ := List.append_inj h (by simp [NodeId.bytes])
  obtain ⟨hhash, h⟩ := List.append_inj h (by simp [Hash.bytes])
  have hvv := VersionVector.serialize_inj hfits hfits' h
  refine ⟨hpath, ?_⟩
  unfold FileRow.leafData
  rw [boolByte_inj htomb, Hash.bytes_inj hcontent, NodeId.bytes_inj huuid,
    hmeta (Hash.bytes_inj hhash), hvv]

end Replicore
