import Mathlib.Algebra.Group.Nat.Defs
import Replicore.Lib.OrdMap

/-!
# The attributes of a node

What `stat` and `getxattr` show of a node, and what the calls that set attributes make of it.  The
calls are not independent of each other: `chown` clears the set-id bits and removes the capabilities
of a file, an access ACL and the permission bits of a file change together, and `utimensat` gives
two values of the nanoseconds a meaning of their own.  `chmod` clears the set-group-id bit, without
an error, unless the caller may set it for the group of the node.

How an access ACL and the permission bits depend on each other, and what the caller may set, is a
parameter, `AttrRules`; what the kernel sees to for every node is `Inode.Sound`.
-/

namespace Posix

/-- The types of node. -/
inductive NodeType
  | regular
  | symlink
  | fifo
  | charDev
  | blockDev
  | socket
  | dir
  deriving DecidableEq, Repr

/-- Permission bits, with the set-id bits and the sticky bit. -/
abbrev Perm := Fin 4096

/-- The set-group-id bit is among them. -/
def Perm.SetGid (p : Perm) : Prop := p.val / 1024 % 2 = 1

instance Perm.decidableSetGid (p : Perm) : Decidable p.SetGid :=
  inferInstanceAs (Decidable (p.val / 1024 % 2 = 1))

/-- The others. -/
def Perm.withoutSetGid (p : Perm) : Perm := ⟨p.val - p.val / 1024 % 2 * 1024, by omega⟩

theorem Perm.withoutSetGid_eq_iff {p : Perm} : p.withoutSetGid = p ↔ ¬ p.SetGid := by
  simp only [Fin.ext_iff, withoutSetGid, SetGid]
  omega

/-- The attributes of a node; names and values of extended attributes, and link targets, are
byte strings of type `B`. -/
structure Inode (B : Type) [LinearOrder B] where
  type : NodeType
  perm : Perm
  uid : Fin (2 ^ 32)
  gid : Fin (2 ^ 32)
  mtimeS : Int64
  mtimeNs : Fin (2 ^ 32)
  target : B
  rdev : Fin (2 ^ 64)
  xattrs : OrdMap B B

/-- The extended attributes with a meaning of their own, how an access ACL and the permission bits
depend on each other, and what the caller may set. -/
structure AttrRules (B : Type) where
  /-- The access ACL of a node. -/
  accessAcl : B
  /-- The capabilities of a file. -/
  capability : B
  ne : accessAcl ≠ capability
  /-- The permission bits after an access ACL is set. -/
  aclPerm : B → Perm → Perm
  /-- What `chmod` makes of an access ACL. -/
  aclChmod : B → Perm → B
  /-- The ACL says more than permission bits can; others are not stored. -/
  aclStored : B → Bool
  /-- The caller has `CAP_FSETID`, or belongs to this group. -/
  maySetGid : Fin (2 ^ 32) → Bool

namespace Inode

variable {B : Type} [LinearOrder B] (k : AttrRules B)

/-- `lsetxattr`. -/
def setxattr (i : Inode B) (name value : B) : Inode B :=
  if name = k.accessAcl then
    { i with
      perm := k.aclPerm value i.perm
      xattrs := if k.aclStored value then i.xattrs.insert name value else i.xattrs.erase name }
  else { i with xattrs := i.xattrs.insert name value }

/-- The id that leaves the owner as it is. -/
def noId : Fin (2 ^ 32) := ⟨2 ^ 32 - 1, by decide⟩

/-- `lchown`. -/
def chown (i : Inode B) (uid gid : Fin (2 ^ 32)) : Inode B :=
  { i with
    uid := if uid = noId then i.uid else uid
    gid := if gid = noId then i.gid else gid
    perm := ⟨i.perm % 1024, by omega⟩
    xattrs := i.xattrs.erase k.capability }

/-- What `chmod` makes of the bits that it is given. -/
def granted (i : Inode B) (perm : Perm) : Perm :=
  if k.maySetGid i.gid then perm else perm.withoutSetGid

/-- `chmod` on a node that is no link. -/
def chmod (i : Inode B) (perm : Perm) : Inode B :=
  { i with
    perm := i.granted k perm
    xattrs := match i.xattrs.get? k.accessAcl with
      | some acl => i.xattrs.insert k.accessAcl (k.aclChmod acl (i.granted k perm))
      | none => i.xattrs }

/-- The nanoseconds that stand for the current time. -/
def utimeNow : ℕ := 2 ^ 30 - 1

/-- The nanoseconds that leave the time as it is. -/
def utimeOmit : ℕ := 2 ^ 30 - 2

/-- `utimensat`, for the time of the last modification; `none` when the nanoseconds are out of
range. -/
def utimens (i : Inode B) (now : Int64 × Fin (2 ^ 32)) (s : Int64) (ns : Fin (2 ^ 32)) :
    Option (Inode B) :=
  if ns.val = utimeNow then some { i with mtimeS := now.1, mtimeNs := now.2 }
  else if ns.val = utimeOmit then some i
  else if ns.val < 10 ^ 9 then some { i with mtimeS := s, mtimeNs := ns }
  else none

/-- What holds of every node: a link has all permissions and no ACL, an ACL agrees with the
permission bits, and owner and time are proper. -/
structure Sound (i : Inode B) : Prop where
  link : i.type = .symlink → i.perm = 0o777 ∧ i.xattrs.get? k.accessAcl = none
  acl : ∀ v, i.xattrs.get? k.accessAcl = some v →
    k.aclStored v = true ∧ k.aclChmod v i.perm = v
  uid : i.uid ≠ noId
  gid : i.gid ≠ noId
  mtimeNs : i.mtimeNs.val < 10 ^ 9

variable {k}

theorem utimens_of_lt {i : Inode B} {now : Int64 × Fin (2 ^ 32)} {s : Int64} {ns : Fin (2 ^ 32)}
    (h : ns.val < 10 ^ 9) : i.utimens now s ns = some { i with mtimeS := s, mtimeNs := ns } := by
  have hnow : ns.val ≠ utimeNow := by
    unfold utimeNow
    omega
  have homit : ns.val ≠ utimeOmit := by
    unfold utimeOmit
    omega
  rw [utimens, if_neg hnow, if_neg homit, if_pos h]

/-! ### Several attributes -/

/-- Set a list of attributes from left to right. -/
def setxattrs (k : AttrRules B) (i : Inode B) (es : List (B × B)) : Inode B :=
  es.foldl (fun i e => i.setxattr k e.1 e.2) i

theorem setxattrs_cons (i : Inode B) (e : B × B) (es : List (B × B)) :
    i.setxattrs k (e :: es) = (i.setxattr k e.1 e.2).setxattrs k es := rfl

/-- Beside the attributes, only the permission bits may change. -/
theorem setxattrs_eq (i : Inode B) (es : List (B × B)) :
    i.setxattrs k es =
      { i with perm := (i.setxattrs k es).perm, xattrs := (i.setxattrs k es).xattrs } := by
  induction es generalizing i with
  | nil => rfl
  | cons e es ih =>
    rw [setxattrs_cons, ih]
    unfold setxattr
    split_ifs <;> rfl

/-- Attributes that are stored are all there. -/
theorem xattrs_setxattrs {i : Inode B} {es : List (B × B)}
    (h : ∀ e ∈ es, e.1 = k.accessAcl → k.aclStored e.2 = true) :
    (i.setxattrs k es).xattrs = i.xattrs.upsertAll es := by
  induction es generalizing i with
  | nil => rfl
  | cons e es ih =>
    have hset : (i.setxattr k e.1 e.2).xattrs = i.xattrs.insert e.1 e.2 := by
      unfold setxattr
      split_ifs with hacl hstored
      · rfl
      · exact absurd (h e List.mem_cons_self hacl) hstored
      · rfl
    rw [setxattrs_cons, ih fun x hx => h x (List.mem_cons_of_mem _ hx), hset, OrdMap.upsertAll_cons]

/-- Without an ACL among them the permission bits stay. -/
theorem perm_setxattrs {i : Inode B} {es : List (B × B)} (h : ∀ e ∈ es, e.1 ≠ k.accessAcl) :
    (i.setxattrs k es).perm = i.perm := by
  induction es generalizing i with
  | nil => rfl
  | cons e es ih =>
    rw [setxattrs_cons, ih fun x hx => h x (List.mem_cons_of_mem _ hx), setxattr,
      if_neg (h e List.mem_cons_self)]

/-- All bits are granted exactly if the set-group-id bit is not asked for, or may be set. -/
theorem granted_eq_iff {i : Inode B} {perm : Perm} :
    i.granted k perm = perm ↔ (perm.SetGid → k.maySetGid i.gid = true) := by
  unfold granted
  split_ifs with hmay
  · exact iff_of_true rfl fun _ => hmay
  · rw [Perm.withoutSetGid_eq_iff]
    exact ⟨fun hno hset => absurd hset hno, fun h hset => hmay (h hset)⟩

theorem get?_xattrs_chmod (i : Inode B) (perm : Perm) (name : B) :
    (i.chmod k perm).xattrs.get? name =
      if name = k.accessAcl then
        (i.xattrs.get? name).map fun acl => k.aclChmod acl (i.granted k perm)
      else i.xattrs.get? name := by
  simp only [chmod]
  split_ifs with hname
  · subst hname
    cases hacl : i.xattrs.get? k.accessAcl with
    | none => simp [hacl]
    | some acl => simp
  · cases hacl : i.xattrs.get? k.accessAcl with
    | none => rfl
    | some acl => exact OrdMap.get?_insert_of_ne _ _ (Ne.symm hname)

end Inode

end Posix
