import Replicore.Conflict.Names
import Replicore.Merkle.Leaf

/-!
# What a naming hash tells apart

`naming_hash` is taken over the durable part of a metadata snapshot: the kind, the mode, the device
number, the target of a symlink and the extended attributes in sorted order.

* `Meta.namingBytes_eq_iff` : two snapshots give the same bytes exactly if they agree in these, the
  attributes up to their order;
* `Meta.naming_separates` : so times, owners and the order of the attributes do not show in the
  hash, and snapshots with a durable difference get different copy names, unless BLAKE3 collides on
  what the names are digests of.
-/

namespace Replicore

open Bytes

namespace Meta

/-- The two snapshots differ in times, owners and the order of the attributes at most. -/
structure SameDurable (a b : Meta) : Prop where
  kind : a.kind = b.kind
  mode : a.mode = b.mode
  rdev : a.rdev = b.rdev
  symlinkTarget : a.symlinkTarget = b.symlinkTarget
  xattrs : a.xattrs.Perm b.xattrs

instance (a b : Meta) : Decidable (SameDurable a b) :=
  decidable_of_iff (a.kind = b.kind ∧ a.mode = b.mode ∧ a.rdev = b.rdev ∧
      a.symlinkTarget = b.symlinkTarget ∧ a.xattrs.Perm b.xattrs)
    ⟨fun h => ⟨h.1, h.2.1, h.2.2.1, h.2.2.2.1, h.2.2.2.2⟩,
      fun h => ⟨h.kind, h.mode, h.rdev, h.symlinkTarget, h.xattrs⟩⟩

/-! ### The attributes in order -/

/-- The attributes as they are hashed. -/
def sortedXattrs (m : Meta) : List (List Byte × List Byte) :=
  m.xattrs.insertionSort fun a b => toLex a ≤ toLex b

theorem perm_sortedXattrs (m : Meta) : m.sortedXattrs.Perm m.xattrs := List.perm_insertionSort _ _

theorem pairwise_sortedXattrs (m : Meta) :
    m.sortedXattrs.Pairwise fun a b => toLex a ≤ toLex b := by
  have : IsTrans (List Byte × List Byte) fun a b => toLex a ≤ toLex b :=
    ⟨fun _ _ _ h h' => le_trans h h'⟩
  have : Std.Total fun a b : List Byte × List Byte => toLex a ≤ toLex b := ⟨fun _ _ => le_total _ _⟩
  exact List.pairwise_insertionSort _ _

/-- Sorting forgets the order and nothing else. -/
theorem sortedXattrs_eq_iff {a b : Meta} :
    a.sortedXattrs = b.sortedXattrs ↔ a.xattrs.Perm b.xattrs := by
  constructor
  · intro h
    exact (perm_sortedXattrs a).symm.trans (h ▸ perm_sortedXattrs b)
  · intro h
    refine List.Perm.eq_of_pairwise ?_ (pairwise_sortedXattrs a) (pairwise_sortedXattrs b)
      ((perm_sortedXattrs a).trans (h.trans (perm_sortedXattrs b).symm))
    exact fun x y _ _ hxy hyx => toLex_inj.1 (le_antisymm hxy hyx)

/-! ### The bytes -/

theorem namingBytes_eq (m : Meta) : m.namingBytes =
    byte m.kind.tag :: (leBytes 4 m.mode.val ++ (leBytes 8 m.rdev.val ++
      (targetBytes m.symlinkTarget ++ (leBytes 8 m.sortedXattrs.length ++
        m.sortedXattrs.flatMap xattrBytes)))) := by
  unfold namingBytes
  simp only [List.cons_append, List.append_assoc]
  -- the two cases of a target are written in the other order
  cases m.symlinkTarget <;> rfl

theorem Fits.sortedXattrs {m : Meta} (h : m.Fits) : m.sortedXattrs.length < u64Bound ∧
    ∀ x ∈ m.sortedXattrs, x.1.length < u64Bound ∧ x.2.length < u64Bound :=
  ⟨(perm_sortedXattrs m).length_eq.trans_lt h.count,
    fun x hx => h.xattrs x ((perm_sortedXattrs m).mem_iff.1 hx)⟩

/-- The bytes hold what is durable and nothing else. -/
theorem SameDurable.namingBytes_eq {a b : Meta} (h : SameDurable a b) :
    a.namingBytes = b.namingBytes := by
  rw [Meta.namingBytes_eq, Meta.namingBytes_eq, h.kind, h.mode, h.rdev, h.symlinkTarget,
    sortedXattrs_eq_iff.2 h.xattrs]

/-- What is durable can be read off the bytes. -/
theorem sameDurable_of_namingBytes {a b : Meta} (ha : a.Fits) (hb : b.Fits)
    (h : a.namingBytes = b.namingBytes) : SameDurable a b := by
  rw [namingBytes_eq, namingBytes_eq] at h
  obtain ⟨hkind, h⟩ := List.cons.inj h
  obtain ⟨hmode, h⟩ := leBytes_u32_inj h
  obtain ⟨hrdev, h⟩ := leBytes_append_inj (lt_of_lt_of_eq a.rdev.isLt (by norm_num))
    (lt_of_lt_of_eq b.rdev.isLt (by norm_num)) h
  obtain ⟨htarget, h⟩ := targetBytes_append_inj ha.target hb.target h
  obtain ⟨hcount, hentries⟩ := ha.sortedXattrs
  obtain ⟨hcount', hentries'⟩ := hb.sortedXattrs
  obtain ⟨hlen, h⟩ := leBytes_append_inj (lt_of_lt_of_eq hcount (by norm_num [u64Bound]))
    (lt_of_lt_of_eq hcount' (by norm_num [u64Bound])) h
  have hxattrs := xattrs_inj hentries hentries' hlen h
  refine ⟨?_, hmode, Fin.ext hrdev, htarget, sortedXattrs_eq_iff.1 hxattrs⟩
  -- a tag is below 256, so a byte holds it
  have htag : ∀ k : FileKind, k.tag % 256 = k.tag := by
    intro k
    cases k <;> rfl
  exact tag_inj (by rw [← htag a.kind, ← htag b.kind, byte_inj_mod hkind])

theorem namingBytes_eq_iff {a b : Meta} (ha : a.Fits) (hb : b.Fits) :
    a.namingBytes = b.namingBytes ↔ SameDurable a b :=
  ⟨sameDurable_of_namingBytes ha hb, SameDurable.namingBytes_eq⟩

/-! ### The names -/

section

variable [Blake3]

/-- BLAKE3 does not collide on what the copies of two losers are named by: neither on the durable
bytes of their metadata, nor in the 8 bytes that a name shows. -/
structure NamesApart (h h' : Hash) (a b : Meta) : Prop where
  naming : Blake3.hash a.namingBytes = Blake3.hash b.namingBytes → a.namingBytes = b.namingBytes
  digest : copyDigest h (namingHash (some a)) = copyDigest h' (namingHash (some b)) →
    h = h' ∧ namingHash (some a) = namingHash (some b)

/-- **The naming hash separates exactly the durable metadata.**  The bytes it is taken over are
equal exactly for snapshots that agree in what is durable; so the hash itself ignores times, owners
and the order of the attributes, and no two snapshots that differ durably share a copy name,
whatever paths and contents the names are for. -/
theorem naming_separates {a b : Meta} (ha : a.Fits) (hb : b.Fits) :
    (a.namingBytes = b.namingBytes ↔ SameDurable a b) ∧
      (SameDurable a b → namingHash (some a) = namingHash (some b)) ∧
      ∀ p p' h h', NamesApart h h' a b →
        copyPathFor p h (namingHash (some a)) = copyPathFor p' h' (namingHash (some b)) →
          p = p' ∧ h = h' ∧ SameDurable a b := by
  refine ⟨namingBytes_eq_iff ha hb, fun hab => congrArg Blake3.hash hab.namingBytes_eq, ?_⟩
  intro p p' h h' hapart heq
  obtain ⟨hpath, hhex⟩ := copyPathFor_inj heq
  obtain ⟨hcontent, hnaming⟩ := hapart.digest (copyHex_eq_iff.1 hhex)
  exact ⟨hpath, hcontent, (namingBytes_eq_iff ha hb).1 (hapart.naming hnaming)⟩

end

section Example

attribute [local instance] Blake3.polynomial

/-- A regular file with two attributes. -/
def tagged : Meta where
  kind := .regular
  mode := 0o644
  uid := 1000
  gid := 1000
  mtimeS := 1
  mtimeNs := 2
  symlinkTarget := none
  rdev := 0
  xattrs := [([1], [2]), ([1, 2], [])]

/-- The same file, owned and written by somebody else. -/
def taggedElsewhere : Meta :=
  { tagged with uid := 0, mtimeS := 9, xattrs := [([1, 2], []), ([1], [2])] }

/-- The same file, read-only. -/
def taggedReadOnly : Meta := { tagged with mode := 0o444 }

theorem fits_tagged : tagged.Fits where
  target := by simp [tagged]
  count := by norm_num [tagged, u64Bound]
  xattrs := by norm_num [tagged, u64Bound]

theorem fits_taggedElsewhere : taggedElsewhere.Fits where
  target := by simp [tagged, taggedElsewhere]
  count := by norm_num [taggedElsewhere, u64Bound]
  xattrs := by norm_num [taggedElsewhere, u64Bound]

theorem fits_taggedReadOnly : taggedReadOnly.Fits :=
  ⟨fits_tagged.target, fits_tagged.count, fits_tagged.xattrs⟩

theorem namesApart_taggedReadOnly : NamesApart 17 17 tagged taggedReadOnly where
  naming h := absurd h (by decide +kernel)
  digest h := absurd h (by decide +kernel)

/-- The owner and the order do not show, the mode does, also in the names of the copies. -/
theorem naming_separates_tagged : namingHash (some tagged) = namingHash (some taggedElsewhere) ∧
    tagged.namingBytes ≠ taggedReadOnly.namingBytes ∧
    copyPathFor "a.txt".toList 17 (namingHash (some tagged)) ≠
      copyPathFor "a.txt".toList 17 (namingHash (some taggedReadOnly)) :=
  have hsame : SameDurable tagged taggedElsewhere := by decide
  have hdiffer : ¬ SameDurable tagged taggedReadOnly := by decide
  ⟨(naming_separates fits_tagged fits_taggedElsewhere).2.1 hsame,
    fun h => hdiffer ((naming_separates fits_tagged fits_taggedReadOnly).1.1 h),
    fun h => hdiffer ((naming_separates fits_tagged fits_taggedReadOnly).2.2 _ _ _ _
      namesApart_taggedReadOnly h).2.2⟩

end Example

end Meta

end Replicore
