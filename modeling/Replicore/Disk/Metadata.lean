import Replicore.Disk.Apply
import Replicore.Lib.Inode
import Replicore.Lib.Result

/-!
# Capturing and applying metadata

`metadata.rs` on one node: `capture` reads a snapshot off a node, and `applyMeta` sets what the
snapshot says: extended attributes, owner, permission bits, time.  Where `Disk/Apply.lean` follows
the calls through the directory tree, here it is what they leave on the node.

What was applied should be captured back, or the scanner takes the difference for a change.  But
nothing removes an attribute, `lchown` comes after the attributes and removes the capabilities that
were just set, and `chmod` drops a set-group-id bit that the process may not set, without an error:
`capture_applyMeta_iff` says exactly when the snapshot comes back.
-/

namespace Replicore

open Bytes Posix

namespace Disk

/-- The attributes of a node of this system. -/
abbrev Node := Inode (List Byte)

/-- The replicated kind of a node; sockets and directories have none. -/
def fileKind : NodeType → Option FileKind
  | .regular => some .regular
  | .symlink => some .symlink
  | .fifo => some .fifo
  | .charDev => some .charDev
  | .blockDev => some .blockDev
  | .socket | .dir => none

/-- Snapshot a node's metadata, without following a link.  The attributes come in order of their
names. -/
def capture (i : Node) (policy : OwnerPolicy) : Option Meta :=
  (fileKind i.type).map fun kind =>
    { kind
      mode := ⟨i.perm.val, i.perm.isLt.trans (by decide)⟩
      uid := if policy = .numeric then i.uid else 0
      gid := if policy = .numeric then i.gid else 0
      mtimeS := i.mtimeS
      mtimeNs := i.mtimeNs
      symlinkTarget := if kind = .symlink then some i.target else none
      rdev := if kind = .charDev ∨ kind = .blockDev then i.rdev else 0
      xattrs := i.xattrs.entries }

/-- What the kernel answers to the calls of one apply, and the time of the last one. -/
structure MetaCalls where
  setxattr : List Byte → Option Errno
  chown : Option Errno
  chmod : Option Errno
  utimens : Option Errno
  now : Int64 × U32

/-- The degradations of one apply: whether ownership was skipped, and the attributes that were
logged as not applied. -/
structure MetaApplied where
  ownerSkipped : Bool := false
  xattrsSkipped : List (List Byte) := []

section

variable (k : AttrRules (List Byte)) (calls : MetaCalls)

/-- The attributes in canonical order; one without support or privilege is logged and left out. -/
def applyXattrs : List (List Byte × List Byte) → MetaApplied → Node →
    Except Errno (MetaApplied × Node)
  | [], applied, i => .ok (applied, i)
  | (name, value) :: rest, applied, i =>
    if 0 ∈ name then .error (.refused .inval)
    else match calls.setxattr name with
      | none => applyXattrs rest applied (i.setxattr k name value)
      | some (.refused .notsup) | some (.refused .perm) =>
        applyXattrs rest { applied with xattrsSkipped := applied.xattrsSkipped ++ [name] } i
      | some e => .error e

/-- Ownership, before the mode; skipped by policy, and whole without privilege. -/
def applyOwner (policy : OwnerPolicy) (m : Meta) (applied : MetaApplied) (i : Node) :
    Except Errno (MetaApplied × Node) :=
  match policy with
  | .skip => .ok ({ applied with ownerSkipped := true }, i)
  | .numeric =>
    match calls.chown with
    | none => .ok (applied, i.chown k m.uid m.gid)
    | some (.refused .perm) => .ok ({ applied with ownerSkipped := true }, i)
    | some e => .error e

/-- Permission bits, not for symlinks. -/
def applyMode (m : Meta) (i : Node) : Except Errno Node :=
  if m.kind ≠ .symlink then
    match calls.chmod with
    | none => .ok (i.chmod k ⟨m.mode.val % 4096, Nat.mod_lt _ (by decide)⟩)
    | some e => .error e
  else .ok i

/-- The time, last. -/
def applyTime (m : Meta) (i : Node) : Except Errno Node :=
  match calls.utimens with
  | some e => .error e
  | none =>
    match i.utimens calls.now m.mtimeS m.mtimeNs with
    | none => .error (.refused .inval)
    | some i => .ok i

/-- Apply a snapshot to a node: attributes, ownership, permission bits, time. -/
def applyMeta (i : Node) (m : Meta) (policy : OwnerPolicy) : Except Errno (MetaApplied × Node) := do
  let (applied, i) ← applyXattrs k calls m.xattrs {} i
  let (applied, i) ← applyOwner k calls policy m applied i
  let i ← applyMode k calls m i
  let i ← applyTime calls m i
  return (applied, i)

/-- A snapshot on a node that gets the op's mode first, as a staged file and a moved one do. -/
def applyMetaAfterMode (i : Node) (mode : U32) (m : Meta) (policy : OwnerPolicy) :
    Except Errno (MetaApplied × Node) :=
  applyMeta k calls (i.chmod k ⟨mode.val % 4096, Nat.mod_lt _ (by decide)⟩) m policy

end

/-- No step was left out for lack of support or privilege. -/
def MetaApplied.Complete (applied : MetaApplied) (policy : OwnerPolicy) : Prop :=
  applied.xattrsSkipped = [] ∧ (policy = .numeric → applied.ownerSkipped = false)

/-- The group of a node once the owner is applied. -/
def groupAfter (i : Node) (m : Meta) (policy : OwnerPolicy) : U32 :=
  if policy = .numeric then m.gid else i.gid

/-- What of a snapshot a node can take on: its link target or device is the snapshot's already, it
has no attribute that is not in the snapshot, unless `lchown` removes it, and `lchown` removes none
of the snapshot's.  A set-group-id bit of the snapshot is one that the caller may set. -/
structure Reproducible (k : AttrRules (List Byte)) (i : Node) (m : Meta) (policy : OwnerPolicy) :
    Prop where
  target : ∀ t, m.symlinkTarget = some t → i.target = t
  device : m.kind = .charDev ∨ m.kind = .blockDev → i.rdev = m.rdev
  stale : ∀ name ∈ i.xattrs.keys, name ∈ m.xattrs.map Prod.fst ∨
    policy = .numeric ∧ name = k.capability
  cleared : policy = .numeric → k.capability ∉ m.xattrs.map Prod.fst
  setGid : m.kind ≠ .symlink → m.mode.val / 1024 % 2 = 1 →
    k.maySetGid (groupAfter i m policy) = true

/-! ### What an apply leaves -/

variable {k : AttrRules (List Byte)} {calls : MetaCalls}

/-- The node after the steps before the last one. -/
def settle (k : AttrRules (List Byte)) (i : Node) (m : Meta) (policy : OwnerPolicy) : Node :=
  let owned := if policy = .numeric then (i.setxattrs k m.xattrs).chown k m.uid m.gid
    else i.setxattrs k m.xattrs
  if m.kind ≠ .symlink then owned.chmod k ⟨m.mode.val % 4096, Nat.mod_lt _ (by decide)⟩ else owned

theorem applyXattrs_ok {es : List (List Byte × List Byte)} {applied applied' : MetaApplied}
    {i i' : Node} (h : applyXattrs k calls es applied i = .ok (applied', i')) :
    applied.xattrsSkipped <+: applied'.xattrsSkipped ∧
      applied'.ownerSkipped = applied.ownerSkipped ∧
      (applied'.xattrsSkipped = applied.xattrsSkipped → i' = i.setxattrs k es) := by
  induction es generalizing applied i with
  | nil =>
    cases h
    exact ⟨List.prefix_refl _, rfl, fun _ => rfl⟩
  | cons e es ih =>
    obtain ⟨name, value⟩ := e
    simp only [applyXattrs] at h
    -- an attribute that is left out stays among those that are skipped
    have hskip : applyXattrs k calls es
          { applied with xattrsSkipped := applied.xattrsSkipped ++ [name] } i =
          .ok (applied', i') →
        applied.xattrsSkipped <+: applied'.xattrsSkipped ∧
          applied'.ownerSkipped = applied.ownerSkipped ∧
          (applied'.xattrsSkipped = applied.xattrsSkipped →
            i' = i.setxattrs k ((name, value) :: es)) := by
      intro h
      obtain ⟨hpre, howner, -⟩ := ih h
      refine ⟨(List.prefix_append _ _).trans hpre, howner, fun heq => ?_⟩
      have hlen := hpre.length_le
      rw [heq, List.length_append, List.length_singleton] at hlen
      omega
    split_ifs at h
    split at h
    · obtain ⟨hpre, howner, hset⟩ := ih h
      exact ⟨hpre, howner, hset⟩
    · exact hskip h
    · exact hskip h
    · cases h

/-- A complete apply does all its steps. -/
theorem applyMeta_ok {i i' : Node} {m : Meta} {policy : OwnerPolicy} {applied : MetaApplied}
    (h : applyMeta k calls i m policy = .ok (applied, i')) (hall : applied.Complete policy) :
    (settle k i m policy).utimens calls.now m.mtimeS m.mtimeNs = some i' := by
  obtain ⟨⟨applied₁, i₁⟩, hx, h⟩ := Result.exists_of_bind_eq_ok h
  obtain ⟨⟨applied₂, i₂⟩, ho, h⟩ := Result.exists_of_bind_eq_ok h
  obtain ⟨i₃, hm, h⟩ := Result.exists_of_bind_eq_ok h
  obtain ⟨i₄, ht, h⟩ := Result.exists_of_bind_eq_ok h
  cases h
  obtain ⟨-, hskipped, hset⟩ := applyXattrs_ok hx
  obtain ⟨hnone, howner⟩ := hall
  have hown : i₂ = (if policy = .numeric then (i.setxattrs k m.xattrs).chown k m.uid m.gid
      else i.setxattrs k m.xattrs) := by
    unfold applyOwner at ho
    cases policy with
    | skip =>
      cases ho
      exact hset hnone
    | numeric =>
      dsimp only at ho
      split at ho
      · cases ho
        rw [hset hnone]
        rfl
      · cases ho
        exact absurd (howner rfl) (by simp)
      · cases ho
  have hmode : i₃ = settle k i m policy := by
    unfold applyMode at hm
    unfold settle
    rw [← hown]
    split_ifs at hm ⊢ with hkind
    · split at hm
      · cases hm
        rfl
      · cases hm
    · cases hm
      rfl
  unfold applyTime at ht
  split at ht
  · cases ht
  · rw [← hmode]
    split at ht
    · cases ht
    · cases ht
      assumption

/-! ### What is captured back -/

variable {i s : Node} {m : Meta} {policy : OwnerPolicy}

/-- The snapshot of a node. -/
theorem capture_eq_some (h : capture s policy = some m) : ∃ kind, fileKind s.type = some kind ∧ m =
    { kind
      mode := ⟨s.perm.val, s.perm.isLt.trans (by decide)⟩
      uid := if policy = .numeric then s.uid else 0
      gid := if policy = .numeric then s.gid else 0
      mtimeS := s.mtimeS
      mtimeNs := s.mtimeNs
      symlinkTarget := if kind = .symlink then some s.target else none
      rdev := if kind = .charDev ∨ kind = .blockDev then s.rdev else 0
      xattrs := s.xattrs.entries } := by
  obtain ⟨kind, hkind, hm⟩ := Option.map_eq_some_iff.1 h
  exact ⟨kind, hkind, hm.symm⟩

theorem fileKind_symlink {t : NodeType} (h : fileKind t = some .symlink) : t = .symlink := by
  cases t <;> simp [fileKind] at h ⊢

/-- The attributes of a snapshot can be stored. -/
theorem stored_of_sound (hs : s.Sound k) :
    ∀ e ∈ s.xattrs.entries, e.1 = k.accessAcl → k.aclStored e.2 = true := by
  rintro ⟨name, value⟩ he rfl
  exact (hs.acl value (OrdMap.mem_entries.1 he)).1

/-- The attributes before the mode is set. -/
def ownedXattrs (k : AttrRules (List Byte)) (i s : Node) (policy : OwnerPolicy) :
    OrdMap (List Byte) (List Byte) :=
  if policy = .numeric then (i.xattrs.upsertAll s.xattrs.entries).erase k.capability
  else i.xattrs.upsertAll s.xattrs.entries

theorem get?_ownedXattrs (name : List Byte) : (ownedXattrs k i s policy).get? name =
    if policy = .numeric ∧ name = k.capability then none
    else (s.xattrs.get? name).or (i.xattrs.get? name) := by
  unfold ownedXattrs
  by_cases hpol : policy = .numeric
  · by_cases hname : name = k.capability
    · subst hname
      simp [hpol]
    · rw [if_pos hpol, OrdMap.get?_erase_of_ne _ (Ne.symm hname), OrdMap.get?_upsertAll_entries,
        if_neg fun h => hname h.2]
  · rw [if_neg hpol, OrdMap.get?_upsertAll_entries, if_neg fun h => hpol h.1]

/-- What the steps before the last one leave: the attributes, the permission bits that are granted,
and the other fields as the snapshot has them. -/
theorem settle_eq (hs : s.Sound k) (hlink : i.type = .symlink → i.perm = 0o777)
    (hcap : capture s policy = some m) (htype : i.type = s.type) :
    ∃ perm x, settle k i m policy =
        { i with
          perm := perm
          uid := if policy = .numeric then s.uid else i.uid
          gid := if policy = .numeric then s.gid else i.gid
          xattrs := x } ∧
      (perm = s.perm ↔ (m.kind ≠ .symlink → s.perm.SetGid →
        k.maySetGid (if policy = .numeric then s.gid else i.gid) = true)) ∧
      ∀ name, x.get? name =
        if m.kind ≠ .symlink ∧ name = k.accessAcl then
          ((ownedXattrs k i s policy).get? name).map fun acl => k.aclChmod acl perm
        else (ownedXattrs k i s policy).get? name := by
  obtain ⟨kind, hkind, rfl⟩ := capture_eq_some hcap
  obtain ⟨perm₀, hset⟩ : ∃ perm₀, i.setxattrs k s.xattrs.entries =
      { i with perm := perm₀, xattrs := i.xattrs.upsertAll s.xattrs.entries } := by
    refine ⟨(i.setxattrs k s.xattrs.entries).perm, ?_⟩
    rw [← Inode.xattrs_setxattrs (i := i) (stored_of_sound hs)]
    exact Inode.setxattrs_eq i s.xattrs.entries
  have hsymlink : kind = .symlink → perm₀ = 0o777 ∧ s.perm = 0o777 := by
    rintro rfl
    have ht := fileKind_symlink hkind
    have hnone : ∀ e ∈ s.xattrs.entries, e.1 ≠ k.accessAcl := by
      rintro ⟨name, value⟩ he rfl
      have hget := OrdMap.mem_entries.1 he
      rw [(hs.link ht).2] at hget
      cases hget
    have hperm := Inode.perm_setxattrs (i := i) hnone
    rw [hset] at hperm
    exact ⟨hperm.trans (hlink (htype.trans ht)), (hs.link ht).1⟩
  -- the node after the owner is set
  have howned : ∃ perm, (if policy = .numeric then
        (i.setxattrs k s.xattrs.entries).chown k (if policy = .numeric then s.uid else 0)
          (if policy = .numeric then s.gid else 0)
      else i.setxattrs k s.xattrs.entries) =
      { i with
        perm := perm
        uid := if policy = .numeric then s.uid else i.uid
        gid := if policy = .numeric then s.gid else i.gid
        xattrs := ownedXattrs k i s policy } ∧ (kind = .symlink → perm = s.perm) := by
    rw [hset]
    cases policy with
    | skip =>
      refine ⟨perm₀, rfl, fun hk => ?_⟩
      rw [(hsymlink hk).1, (hsymlink hk).2]
    | numeric =>
      refine ⟨⟨perm₀ % 1024, by omega⟩, ?_, fun hk => ?_⟩
      · simp only [if_true, Inode.chown, if_neg hs.uid, if_neg hs.gid, ownedXattrs]
      · obtain ⟨h1, h2⟩ := hsymlink hk
        rw [h2]
        apply Fin.ext
        simp [h1]
  obtain ⟨perm, howned, hperm⟩ := howned
  unfold settle
  rw [howned]
  by_cases hk : kind = .symlink
  · refine ⟨s.perm, ownedXattrs k i s policy, ?_, iff_of_true rfl fun hno => absurd hk hno,
      fun name => ?_⟩
    · simp [hk, hperm hk]
    · simp [hk]
  · have hmode : (⟨s.perm.val % 4096, Nat.mod_lt _ (by decide)⟩ : Perm) = s.perm :=
      Fin.ext (Nat.mod_eq_of_lt s.perm.isLt)
    let owned : Node := { i with
      perm := perm
      uid := if policy = .numeric then s.uid else i.uid
      gid := if policy = .numeric then s.gid else i.gid
      xattrs := ownedXattrs k i s policy }
    refine ⟨owned.granted k s.perm, (owned.chmod k s.perm).xattrs, ?_, ?_, fun name => ?_⟩
    · rw [if_pos hk, hmode]
      rfl
    · rw [Inode.granted_eq_iff]
      exact ⟨fun h _ => h, fun h => h hk⟩
    · have hget := Inode.get?_xattrs_chmod (k := k) owned s.perm name
      rw [hget]
      simp only [ne_eq, hk, not_false_eq_true, true_and]
      split_ifs
      · rfl
      · rfl

/-- The attributes are those of the snapshot if and only if no other one is left over and none of
the snapshot's is removed. -/
theorem xattrs_settled_iff (hs : s.Sound k) (hcap : capture s policy = some m)
    {x : OrdMap (List Byte) (List Byte)} (hx : ∀ name, x.get? name =
      if m.kind ≠ .symlink ∧ name = k.accessAcl then
        ((ownedXattrs k i s policy).get? name).map fun acl => k.aclChmod acl s.perm
      else (ownedXattrs k i s policy).get? name) :
    x = s.xattrs ↔
      (∀ name ∈ i.xattrs.keys, name ∈ m.xattrs.map Prod.fst ∨
        policy = .numeric ∧ name = k.capability) ∧
      (policy = .numeric → k.capability ∉ m.xattrs.map Prod.fst) := by
  obtain ⟨kind, hkind, rfl⟩ := capture_eq_some hcap
  dsimp only at hx ⊢
  have hnames : ∀ name, name ∈ s.xattrs.entries.map Prod.fst ↔ (s.xattrs.get? name).isSome :=
    fun name => OrdMap.mem_keys
  have hsome : ∀ name, (x.get? name).isSome = ((ownedXattrs k i s policy).get? name).isSome := by
    intro name
    rw [hx]
    split_ifs
    · rw [Option.isSome_map]
    · rfl
  constructor
  · rintro rfl
    refine ⟨fun name hname => ?_, fun hpol hmem => ?_⟩
    · by_contra hnot
      obtain ⟨hnot, hcleared⟩ := not_or.1 hnot
      rw [hnames, hsome, get?_ownedXattrs, if_neg hcleared, Option.isSome_or] at hnot
      rw [OrdMap.mem_keys] at hname
      simp [hname] at hnot
    · rw [hnames, hsome, get?_ownedXattrs, if_pos ⟨hpol, rfl⟩] at hmem
      cases hmem
  · rintro ⟨hstale, hcleared⟩
    have hown : ∀ name, (ownedXattrs k i s policy).get? name = s.xattrs.get? name := by
      intro name
      rw [get?_ownedXattrs]
      split_ifs with hname
      · have hnot := hcleared hname.1
        rw [hnames, ← hname.2] at hnot
        exact (Option.not_isSome_iff_eq_none.1 hnot).symm
      · cases hget : s.xattrs.get? name with
        | some v => rfl
        | none =>
          rw [Option.none_or, ← Option.not_isSome_iff_eq_none, ← OrdMap.mem_keys]
          intro hmem
          rcases hstale name hmem with hin | hin
          · rw [hnames, hget] at hin
            cases hin
          · exact hname hin
    refine OrdMap.ext_get? fun name => ?_
    rw [hx, hown]
    split_ifs with hname
    · obtain ⟨-, rfl⟩ := hname
      cases hacl : s.xattrs.get? k.accessAcl with
      | none => rfl
      | some v => rw [Option.map_some, (hs.acl v hacl).2]
    · rfl

/-- A snapshot of `s` is captured back from a node exactly if the node can take it on. -/
theorem capture_settled_iff (hs : s.Sound k) (hlink : i.type = .symlink → i.perm = 0o777)
    (hcap : capture s policy = some m) (htype : i.type = s.type) {i' : Node}
    (h : (settle k i m policy).utimens calls.now m.mtimeS m.mtimeNs = some i') :
    capture i' policy = some m ↔ Reproducible k i m policy := by
  obtain ⟨perm, x, hsettle, hperm, hx⟩ := settle_eq hs hlink hcap htype
  obtain ⟨kind, hkind, hm⟩ := capture_eq_some hcap
  have hns : m.mtimeNs.val < 10 ^ 9 := by
    rw [hm]
    exact hs.mtimeNs
  rw [hsettle, Inode.utimens_of_lt hns] at h
  cases h
  have hkind' : fileKind i.type = some kind := htype ▸ hkind
  have hback : capture { i with
        perm := perm
        uid := if policy = .numeric then s.uid else i.uid
        gid := if policy = .numeric then s.gid else i.gid
        mtimeS := m.mtimeS
        mtimeNs := m.mtimeNs
        xattrs := x } policy = some m ↔
      perm = s.perm ∧ (kind = .symlink → i.target = s.target) ∧
        (kind = .charDev ∨ kind = .blockDev → i.rdev = s.rdev) ∧ x = s.xattrs := by
    subst hm
    simp only [capture, hkind', Option.map_some, Option.some.injEq, Meta.mk.injEq, true_and,
      OrdMap.entries_inj]
    have hid : ∀ a b : U32, (if policy = .numeric then
        (if policy = .numeric then a else b) else 0) = if policy = .numeric then a else 0 := by
      intro a b
      split_ifs <;> rfl
    simp only [hid, true_and]
    refine and_congr ?_ (and_congr ?_ (and_congr ?_ Iff.rfl))
    · rw [Fin.ext_iff, Fin.ext_iff]
    · split_ifs with hk
      · simp [hk]
      · simp [hk]
    · split_ifs with hk
      · simp [hk]
      · simp [hk]
  rw [hback]
  -- the snapshot's bits, and the group it gives
  have hgid : groupAfter i m policy = if policy = .numeric then s.gid else i.gid := by
    rw [groupAfter, hm]
    split_ifs <;> rfl
  have hbits : m.mode.val / 1024 % 2 = 1 ↔ s.perm.SetGid := by
    rw [hm]
    rfl
  have hset : (m.kind ≠ .symlink → m.mode.val / 1024 % 2 = 1 →
      k.maySetGid (groupAfter i m policy) = true) ↔ perm = s.perm := by
    rw [hperm, hgid, hbits]
  constructor
  · rintro ⟨hsame, htarget, hdev, hx'⟩
    obtain ⟨hstale, hcleared⟩ := (xattrs_settled_iff hs hcap (hsame ▸ hx)).1 hx'
    refine ⟨fun t ht => ?_, fun hk => ?_, hstale, hcleared, hset.2 hsame⟩
    all_goals subst hm
    · simp only at ht
      split_ifs at ht with hk
      cases ht
      exact htarget hk
    · simp only at hk ⊢
      rw [if_pos hk]
      exact hdev hk
  · rintro ⟨htarget, hdev, hstale, hcleared, hgranted⟩
    have hsame := hset.1 hgranted
    have hx' := (xattrs_settled_iff hs hcap (hsame ▸ hx)).2 ⟨hstale, hcleared⟩
    subst hm
    refine ⟨hsame, fun hk => htarget s.target (by simp [hk]), fun hk => ?_, hx'⟩
    have := hdev hk
    simp only [if_pos hk] at this
    exact this

/-- A snapshot that `capture` can produce. -/
def Capturable (k : AttrRules (List Byte)) (policy : OwnerPolicy) (m : Meta) : Prop :=
  ∃ s : Node, s.Sound k ∧ capture s policy = some m

theorem fileKind_inj {t t' : NodeType} {kind : FileKind} (h : fileKind t = some kind)
    (h' : fileKind t' = some kind) : t = t' := by
  cases t <;> cases h <;> cases t' <;> first | rfl | cases h'

theorem mem_keys_chmod (i : Node) (perm : Perm) (name : List Byte) :
    name ∈ (i.chmod k perm).xattrs.keys ↔ name ∈ i.xattrs.keys := by
  rw [OrdMap.mem_keys, OrdMap.mem_keys, Inode.get?_xattrs_chmod]
  split_ifs
  · rw [Option.isSome_map]
  · rfl

theorem reproducible_chmod (i : Node) (perm : Perm) (m : Meta) (policy : OwnerPolicy) :
    Reproducible k (i.chmod k perm) m policy ↔ Reproducible k i m policy := by
  constructor
  · rintro ⟨htarget, hdev, hstale, hcleared, hset⟩
    exact ⟨htarget, hdev, fun name hname => hstale name ((mem_keys_chmod i perm name).2 hname),
      hcleared, hset⟩
  · rintro ⟨htarget, hdev, hstale, hcleared, hset⟩
    exact ⟨htarget, hdev, fun name hname => hstale name ((mem_keys_chmod i perm name).1 hname),
      hcleared, hset⟩

section Example

/-- The names of the attributes with a meaning; where no ACL occurs, the rest does not matter. -/
def plainRules : AttrRules (List Byte) where
  accessAcl := utf8 "system.posix_acl_access".toList
  capability := utf8 "security.capability".toList
  ne := by decide +kernel
  aclPerm _ p := p
  aclChmod v _ := v
  aclStored _ := true
  maySetGid _ := true

/-- All calls succeed. -/
def allGranted : MetaCalls where
  setxattr _ := none
  chown := none
  chmod := none
  utimens := none
  now := (0, 0)

/-- A regular file with the given attributes. -/
def regularFile (mtimeS : Int64) (xattrs : OrdMap (List Byte) (List Byte)) : Node where
  type := .regular
  perm := 0o644
  uid := 1000
  gid := 1000
  mtimeS := mtimeS
  mtimeNs := 5
  target := []
  rdev := 0
  xattrs := xattrs

/-- One user attribute. -/
def oneXattr : OrdMap (List Byte) (List Byte) := OrdMap.empty.insert (utf8 "user.a".toList) [49]

theorem sound_regularFile {mtimeS : Int64} {xattrs : OrdMap (List Byte) (List Byte)}
    (h : xattrs.get? plainRules.accessAcl = none) : (regularFile mtimeS xattrs).Sound plainRules where
  link ht := by cases ht
  acl v hv := by
    have hget : xattrs.get? plainRules.accessAcl = some v := hv
    rw [h] at hget
    cases hget
  uid := (by decide : (1000 : U32) ≠ Inode.noId)
  gid := (by decide : (1000 : U32) ≠ Inode.noId)
  mtimeNs := (by decide : (5 : U32).val < 10 ^ 9)

theorem get?_oneXattr : oneXattr.get? plainRules.accessAcl = none := by decide +kernel

/-- What is captured of such a file. -/
def fileSnapshot (mtimeS : Int64) (xattrs : OrdMap (List Byte) (List Byte)) : Meta where
  kind := .regular
  mode := 0o644
  uid := 1000
  gid := 1000
  mtimeS := mtimeS
  mtimeNs := 5
  symlinkTarget := none
  rdev := 0
  xattrs := xattrs.entries

theorem capturable_fileSnapshot (mtimeS : Int64) {xattrs : OrdMap (List Byte) (List Byte)}
    (h : xattrs.get? plainRules.accessAcl = none) :
    Capturable plainRules .numeric (fileSnapshot mtimeS xattrs) :=
  ⟨regularFile mtimeS xattrs, sound_regularFile h, rfl⟩

end Example

end Disk

end Replicore
