import Replicore.Chunk.Assembly
import Replicore.Disk.Metadata
import Replicore.Lib.Hoare

/-!
# Publishing in one directory

The four functions of `apply.rs` that publish a node, call by call, on the two names of the
destination's directory that they use: the destination and the temporary name.  Where
`Disk/Apply.lean` follows the calls through the directory tree, here it is what stands at the two
names, with its attributes, and the suppression entry of the path.  Every site that a call leaves is
kept in `Run.past`: a crash leaves one of them.

Staging supposes that the temporary name is free.  A regular file that stands there is emptied and
used; a link is followed; and a node that stands there when a special node is to be made is taken
for the node itself, whatever it is.
-/

namespace Replicore

open Bytes Posix

namespace Disk

namespace Staging

/-- A node, and what reading it yields. -/
structure Item where
  inode : Node
  content : List Byte := []

/-- Where a link at the temporary name leads. -/
inductive Leads
  /-- To the destination. -/
  | dest
  /-- To another name. -/
  | away
  | nowhere

/-- What stands at the names, and the suppression entry of the path. -/
structure Site where
  dest : Option Item
  tmp : Option Item
  /-- What a link at the temporary name may lead to. -/
  away : Option Item
  suppressed : Option Hash

/-- A run: the site, and every site so far. -/
structure Run where
  site : Site
  past : List Site
  calls : ℕ := 0
  /-- The staged temporary could not be removed. -/
  kept : Bool := false

/-- What the functions use of the process and its surroundings. -/
structure Machine where
  k : AttrRules (List Byte)
  policy : OwnerPolicy
  /-- The calls that the kernel refuses. -/
  refuse : ℕ → Option Refusal
  /-- The attributes of a new file. -/
  born : Node
  leads : List Byte → Leads
  /-- The contents that a file goes through while it is written. -/
  torn : List (List Byte)
  /-- What a write that fails leaves. -/
  left : List Byte
  now : Int64 × U32
  cas : CasDir
  truncates : Option String
  reads : List EntryEnv

/-- An open file. -/
inductive Fd
  | tmp
  | dest
  | away

/-- A new node. -/
def Machine.newNode (h : Machine) (type : NodeType) (target : List Byte) (rdev : U64) : Node :=
  { h.born with type, target, rdev }

namespace Site

/-- What an open file is. -/
def item (s : Site) : Fd → Option Item
  | .tmp => s.tmp
  | .dest => s.dest
  | .away => s.away

/-- Put a node where an open file is. -/
def put (s : Site) (it : Item) : Fd → Site
  | .tmp => { s with tmp := some it }
  | .dest => { s with dest := some it }
  | .away => { s with away := some it }

/-- Change what is open. -/
def update (s : Site) (f : Item → Item) (fd : Fd) : Site :=
  match s.item fd with
  | none => s
  | some it => s.put (f it) fd

/-- Where the temporary name leads. -/
def place (h : Machine) (s : Site) : Option Fd :=
  match s.tmp with
  | none => some .tmp
  | some it =>
    if it.inode.type = .symlink then
      match h.leads it.inode.target with
      | .dest => some .dest
      | .away => some .away
      | .nowhere => none
    else some .tmp

/-- Open for writing what is not a link; a new file is regular and empty. -/
def openNode (h : Machine) : Option Item → Except Errno Item
  | none => .ok { inode := h.newNode .regular [] 0 }
  | some it =>
    match it.inode.type with
    | .regular => .ok { it with content := [] }
    | .dir => .error .isdir
    | .symlink => .error .loop
    | .fifo | .charDev | .blockDev | .socket => .error (.refused .other)

/-- `File::create` at the temporary name: a link is followed, also one that leads nowhere yet. -/
def create (h : Machine) (s : Site) : Except Errno (Fd × Site) :=
  match s.place h with
  | none => .error .noent
  | some fd =>
    match openNode h (s.item fd) with
    | .error e => .error e
    | .ok it => .ok (fd, s.put it fd)

/-- What the temporary name leads to. -/
def follow (h : Machine) (s : Site) : Except Errno (Fd × Item) :=
  match s.place h with
  | none => .error .noent
  | some fd =>
    match s.item fd with
    | none => .error .noent
    | some it => .ok (fd, it)

/-- Read what the temporary name leads to. -/
def read (h : Machine) (s : Site) : Except Errno (List Byte × Site) :=
  match s.follow h with
  | .error e => .error e
  | .ok (_, it) =>
    match it.inode.type with
    | .regular => .ok (it.content, s)
    | .dir => .error .isdir
    | _ => .error (.refused .other)

/-- `symlink`, `mkfifo` and `mknod` at the temporary name. -/
def make (node : Node) (s : Site) : Except Errno (Unit × Site) :=
  match s.tmp with
  | some _ => .error .exist
  | none => .ok ((), { s with tmp := some { inode := node } })

/-- Change the attributes of the node at the temporary name. -/
def setAttr (f : Node → Option Node) (s : Site) : Except Errno (Unit × Site) :=
  match s.tmp with
  | none => .error .noent
  | some it =>
    match f it.inode with
    | none => .error (.refused .inval)
    | some inode => .ok ((), { s with tmp := some { it with inode } })

/-- `chmod` of what the temporary name leads to. -/
def chmod (h : Machine) (perm : Perm) (s : Site) : Except Errno (Unit × Site) :=
  match s.follow h with
  | .error e => .error e
  | .ok (fd, _) => .ok ((), s.update (fun it => { it with inode := it.inode.chmod h.k perm }) fd)

/-- `rename` of the temporary name to the destination; a directory replaces none that is there. -/
def rename (slash : Bool) (s : Site) : Except Errno (Unit × Site) :=
  match s.tmp with
  | none => .error .noent
  | some it =>
    if it.inode.type = .dir then
      if s.dest.isSome then .error .exist else .ok ((), { s with dest := some it, tmp := none })
    else if s.dest.any (·.inode.type = .dir) then .error .isdir
    else if slash then .error .notdir
    else .ok ((), { s with dest := some it, tmp := none })

/-- `unlink` of the temporary name. -/
def unlink (s : Site) : Except Errno (PUnit × Site) :=
  match s.tmp with
  | none => .error .noent
  | some it => if it.inode.type = .dir then .error .isdir else .ok (⟨⟩, { s with tmp := none })

end Site

/-- Programs that publish. -/
abbrev PublishM := EStateM ApplyError Run

namespace Machine

variable (h : Machine)

/-- One call.  The kernel may refuse any. -/
def call {α : Type} (f : Site → Except Errno (α × Site)) : EStateM Errno Run α := fun r =>
  match h.refuse r.calls with
  | some e => .error (.refused e) { r with calls := r.calls + 1 }
  | none =>
    match f r.site with
    | .error e => .error e { r with calls := r.calls + 1 }
    | .ok (a, s) => .ok a { r with site := s, past := r.past ++ [s], calls := r.calls + 1 }

/-- A call that changes nothing on the site. -/
def sync : EStateM Errno Run Unit := h.call fun s => .ok ((), s)

/-- The site with this content in the open file. -/
def withContent (s : Site) (fd : Fd) (content : List Byte) : Site :=
  s.update (fun it => { it with content }) fd

/-- Write an open file, which goes through other contents on the way. -/
def writeAll (fd : Fd) (content : List Byte) : EStateM Errno Run Unit := fun r =>
  let passing := r.past ++ h.torn.map (withContent r.site fd)
  match h.refuse r.calls with
  | some e =>
    let s := withContent r.site fd h.left
    .error (.refused e) { r with site := s, past := passing ++ [s], calls := r.calls + 1 }
  | none =>
    let s := withContent r.site fd content
    .ok () { r with site := s, past := passing ++ [s], calls := r.calls + 1 }

/-- Register the suppression entry of the path. -/
def register (hash : Hash) : PublishM Unit := fun r =>
  let s := { r.site with suppressed := some hash }
  .ok () { r with site := s, past := r.past ++ [s] }

/-- The xattrs: without support or privilege for one, go on with the rest. -/
def setXattrs : List (List Byte × List Byte) → EStateM Errno Run Unit
  | [] => pure ()
  | (name, value) :: rest => do
    if 0 ∈ name then throw (.refused .inval)
    match ← Hoare.attempt (h.call (Site.setAttr fun i => some (i.setxattr h.k name value))) with
    | .ok () | .error (.refused .perm) | .error (.refused .notsup) => setXattrs rest
    | .error e => throw e

/-- Ownership, skipped without privilege. -/
def setOwner (m : Meta) : EStateM Errno Run Unit :=
  match h.policy with
  | .skip => pure ()
  | .numeric => do
    match ← Hoare.attempt (h.call (Site.setAttr fun i => some (i.chown h.k m.uid m.gid))) with
    | .ok () | .error (.refused .perm) => pure ()
    | .error e => throw e

theorem permBits_lt (mode : U32) : mode.val % 4096 < 4096 := Nat.mod_lt _ (by decide)

/-- The permission bits that a mode sets. -/
def permOf (mode : U32) : Perm := ⟨mode.val % 4096, permBits_lt mode⟩

/-- `apply_meta`: xattrs, ownership, permission bits (not of a symlink), mtime. -/
def applyMeta (m : Meta) : PublishM Unit :=
  Hoare.mapError (.io "meta") do
    h.setXattrs m.xattrs
    h.setOwner m
    if m.kind ≠ .symlink then h.call (Site.chmod h (permOf m.mode))
    h.call (Site.setAttr fun i => i.utimens h.now m.mtimeS m.mtimeNs)

/-- `apply_meta` with a snapshot, if there is one. -/
def applyMetaOpt : Option Meta → PublishM Unit
  | some m => h.applyMeta m
  | none => pure ()

/-- Remove the staged temporary, whatever comes of it. -/
def discard : EStateM Errno Run PUnit := fun r =>
  match h.call Site.unlink r with
  | .ok u r' => .ok u r'
  | .error .noent r' => .error .noent r'
  | .error e r' => .error e { r' with kept := true }

/-- Register, stage under the temporary name and rename into place.  A staged temp is not left
behind on failure. -/
def publish (rel : Path) (hash : Hash) (stage : PublishM Unit) : PublishM Unit := do
  let dest ← ofExcept (safeDest rel)
  Hoare.mapError (.io "mkdir") h.sync
  register hash
  Hoare.onError (do
    stage
    Hoare.mapError (.io "rename") (h.call (Site.rename dest.slash)))
    h.discard

variable [Blake3]

/-- Re-read a staged file and require its hash. -/
def verifyOnDisk (hash : Hash) (rel : Path) : PublishM Unit := do
  let content ← Hoare.mapError (.io "reopen") (h.call (Site.read h))
  if Blake3.hash content ≠ hash then throw (.hashMismatch rel)

/-- What is done with a file that has its bytes: fsync, mode, read back, metadata. -/
def finishFile (rel : Path) (mode : U32) (hash : Hash) (metadata : Option Meta) (fd : Fd) :
    PublishM Unit := do
  Hoare.mapError (.io "fsync") h.sync
  Hoare.mapError (.io "chmod") (h.call fun s =>
    .ok ((), s.update (fun it => { it with inode := it.inode.chmod h.k (permOf mode) }) fd))
  h.verifyOnDisk hash rel
  h.applyMetaOpt metadata

/-- Atomically publish `data`. -/
def applyWrite (rel : Path) (mode : U32) (hash : Hash) (data : List Byte)
    (metadata : Option Meta) : PublishM Unit := do
  if Blake3.hash data ≠ hash then throw (.hashMismatch rel)
  h.publish rel hash do
    let fd ← Hoare.mapError (.io "create") (h.call (Site.create h))
    Hoare.mapError (.io "write") (h.writeAll fd data)
    h.finishFile rel mode hash metadata fd

/-- Stream the chunks of a manifest into an open file; the result is the hash of what was
written. -/
def assemble (manifest : Manifest) (fd : Fd) : PublishM Hash := do
  let (written, _, out) := h.cas.assembleFromCas manifest {} h.truncates h.reads
  Hoare.mapError (fun _ => .cas) (h.writeAll fd out.data)
  match written with
  | .ok written => pure written
  | .error _ => throw .cas

/-- Atomically publish a file assembled from chunks. -/
def applyAssembled (rel : Path) (mode : U32) (hash : Hash) (manifest : Manifest)
    (metadata : Option Meta) : PublishM Unit := do
  if manifest.contentHash ≠ hash then throw (.hashMismatch rel)
  h.publish rel hash do
    let fd ← Hoare.mapError (.io "create") (h.call (Site.create h))
    let written ← h.assemble manifest fd
    if written ≠ hash then throw (.hashMismatch rel)
    h.finishFile rel mode hash metadata fd

/-- Atomically publish a symlink; the kernel refuses an empty target. -/
def applySymlink (rel : Path) (hash : Hash) (m : Meta) : PublishM Unit :=
  match m.symlinkTarget with
  | none => throw (.hashMismatch rel)
  | some target => do
    if Blake3.hash target ≠ hash then throw (.hashMismatch rel)
    h.publish rel hash do
      Hoare.mapError (.io "symlink") (h.call fun s =>
        if target = [] then .error .noent else s.make (h.newNode .symlink target 0))
      h.applyMeta m

/-- The node that `create_special` makes. -/
def specialNode (m : Meta) : Option Node :=
  match m.kind with
  | .fifo => some (h.newNode .fifo [] 0)
  | .charDev => some (h.newNode .charDev [] m.rdev)
  | .blockDev => some (h.newNode .blockDev [] m.rdev)
  | .regular | .symlink => none

/-- `create_special`: an existing node is success. -/
def createSpecial (m : Meta) : PublishM Unit :=
  match h.specialNode m with
  | none => throw (.io "mknod" (.refused .inval))
  | some node => do
    match ← Hoare.attempt (h.call (Site.make node)) with
    | .ok () | .error .exist => pure ()
    | .error e => throw (.io "mknod" e)

/-- Atomically publish a special node. -/
def applySpecial (rel : Path) (m : Meta) : PublishM Unit :=
  h.publish rel 0 do
    h.createSpecial m
    h.applyMeta m

end Machine

/-! ### Complete nodes -/

/-- A remotely supplied version. -/
inductive Change
  | write (mode : U32) (hash : Hash) (data : List Byte) (metadata : Option Meta)
  | assembled (mode : U32) (hash : Hash) (manifest : Manifest) (metadata : Option Meta)
  | symlink (hash : Hash) (m : Meta)
  | special (m : Meta)

/-- The hash of the suppression entry of a version. -/
def Change.hash : Change → Hash
  | .write _ hash _ _ | .assembled _ hash _ _ | .symlink hash _ => hash
  | .special _ => 0

/-- Publish a version. -/
def Machine.apply [Blake3] (h : Machine) (rel : Path) : Change → PublishM Unit
  | .write mode hash data metadata => h.applyWrite rel mode hash data metadata
  | .assembled mode hash manifest metadata => h.applyAssembled rel mode hash manifest metadata
  | .symlink hash m => h.applySymlink rel hash m
  | .special m => h.applySpecial rel m

namespace Machine

variable (h : Machine)

/-- The kernel refuses some call for lack of privilege or support. -/
def Lacks : Prop := ∃ n, h.refuse n = some .perm ∨ h.refuse n = some .notsup

/-- The attributes are set one after the other; one may be left out for lack of privilege or
support. -/
def XattrsDone : List (List Byte × List Byte) → Node → Node → Prop
  | [], i, i' => i' = i
  | (name, value) :: rest, i, i' =>
    XattrsDone rest (i.setxattr h.k name value) i' ∨ h.Lacks ∧ XattrsDone rest i i'

/-- The owner is set, unless by policy or for lack of privilege. -/
def OwnerDone (m : Meta) (i i' : Node) : Prop :=
  if h.policy = .numeric then i' = i.chown h.k m.uid m.gid ∨ h.Lacks ∧ i' = i else i' = i

/-- The permission bits after `apply_meta`. -/
def modeSet (m : Meta) (i : Node) : Node :=
  if m.kind ≠ .symlink then i.chmod h.k (permOf m.mode) else i

/-- The metadata is applied, all of it. -/
def MetaDone (m : Meta) (i i' : Node) : Prop :=
  ∃ i₁ i₂, h.XattrsDone m.xattrs i i₁ ∧ h.OwnerDone m i₁ i₂ ∧
    (h.modeSet m i₂).utimens h.now m.mtimeS m.mtimeNs = some i'

/-- The same with a snapshot, if there is one. -/
def MetaOptDone (metadata : Option Meta) (i i' : Node) : Prop :=
  match metadata with
  | some m => h.MetaDone m i i'
  | none => i' = i

/-- A file with the expected content that has been given the mode and the metadata. -/
def FileDone [Blake3] (base : Node) (mode : U32) (hash : Hash) (metadata : Option Meta) (it : Item) :
    Prop :=
  it.inode.type = .regular ∧ Blake3.hash it.content = hash ∧
    h.MetaOptDone metadata (base.chmod h.k (permOf mode)) it.inode

/-- The complete node of a version.  It is a new one, or what stood at the temporary name. -/
def Complete [Blake3] (tmp : Option Item) (c : Change) (it : Item) : Prop :=
  match c with
  | .write mode hash _ metadata | .assembled mode hash _ metadata =>
    h.FileDone ((tmp.map (·.inode)).getD (h.newNode .regular [] 0)) mode hash metadata it
  | .symlink hash m => ∃ target, m.symlinkTarget = some target ∧ Blake3.hash target = hash ∧
      it.inode.type = .symlink ∧ it.inode.target = target ∧
      h.MetaDone m (h.newNode .symlink target 0) it.inode
  | .special m => ∃ node, h.specialNode m = some node ∧ it.inode.type = node.type ∧
      it.inode.rdev = node.rdev ∧ h.MetaDone m ((tmp.map (·.inode)).getD node) it.inode

end Machine

/-- What does not change when attributes are set. -/
def Like (i i' : Node) : Prop := i'.type = i.type ∧ i'.target = i.target ∧ i'.rdev = i.rdev

theorem Like.refl (i : Node) : Like i i := ⟨rfl, rfl, rfl⟩

theorem Like.trans {i j l : Node} (h : Like i j) (h' : Like j l) : Like i l :=
  ⟨h'.1.trans h.1, h'.2.1.trans h.2.1, h'.2.2.trans h.2.2⟩

variable {h : Machine}

theorem like_setxattr (i : Node) (name value : List Byte) :
    Like i (i.setxattr h.k name value) := by
  unfold Inode.setxattr
  split_ifs <;> exact .refl i

theorem like_utimens {i i' : Node} {now : Int64 × U32} {s : Int64} {ns : U32}
    (hi : i.utimens now s ns = some i') : Like i i' := by
  unfold Inode.utimens at hi
  split_ifs at hi <;> cases hi <;> exact .refl i

theorem like_xattrsDone {xattrs : List (List Byte × List Byte)} {i i' : Node}
    (hi : h.XattrsDone xattrs i i') : Like i i' := by
  induction xattrs generalizing i with
  | nil => exact hi ▸ .refl i
  | cons x xattrs ih =>
    obtain hset | ⟨-, hleft⟩ := hi
    · exact (like_setxattr i x.1 x.2).trans (ih hset)
    · exact ih hleft

theorem like_ownerDone {m : Meta} {i i' : Node} (hi : h.OwnerDone m i i') : Like i i' := by
  unfold Machine.OwnerDone at hi
  split_ifs at hi
  · obtain rfl | ⟨-, rfl⟩ := hi <;> exact ⟨rfl, rfl, rfl⟩
  · exact hi ▸ .refl i

theorem like_modeSet (m : Meta) (i : Node) : Like i (h.modeSet m i) := by
  unfold Machine.modeSet
  split_ifs <;> exact ⟨rfl, rfl, rfl⟩

theorem like_metaDone {m : Meta} {i i' : Node} (hi : h.MetaDone m i i') : Like i i' := by
  obtain ⟨i₁, i₂, hx, ho, ht⟩ := hi
  exact (like_xattrsDone hx).trans <| (like_ownerDone ho).trans <|
    (like_modeSet m i₂).trans (like_utimens ht)

theorem like_metaOptDone {metadata : Option Meta} {i i' : Node}
    (hi : h.MetaOptDone metadata i i') : Like i i' := by
  cases metadata with
  | none => exact hi ▸ .refl i
  | some m => exact like_metaDone hi

/-! ### Runs that leave the destination alone -/

/-- The destination has been as it was all along, and `P` holds of the site. -/
structure Still (s₀ : Site) (P : Site → Prop) (r : Run) : Prop where
  past : ∀ s ∈ r.past, s.dest = s₀.dest
  dest : r.site.dest = s₀.dest
  now : P r.site

variable {s₀ : Site} {P P' : Site → Prop} {α : Type}

theorem Still.mono {r : Run} (hr : Still s₀ P r) (hP : ∀ s, P s → P' s) : Still s₀ P' r :=
  ⟨hr.past, hr.dest, hP _ hr.now⟩

/-- A call that leaves the destination alone. -/
theorem still_call {f : Site → Except Errno (α × Site)} {Q : α → Site → Prop}
    {E : Errno → Site → Prop} (hrefused : ∀ s e n, P s → h.refuse n = some e → E (.refused e) s)
    (herror : ∀ s e, P s → f s = .error e → E e s)
    (hok : ∀ s a s', P s → f s = .ok (a, s') → s'.dest = s.dest ∧ Q a s') :
    Hoare.Triple (Still s₀ P) (h.call f) (fun a => Still s₀ (Q a)) fun e => Still s₀ (E e) := by
  intro r hr
  unfold Machine.call
  cases hrefuse : h.refuse r.calls with
  | some e => exact ⟨hr.past, hr.dest, hrefused _ e _ hr.now hrefuse⟩
  | none =>
    cases hf : f r.site with
    | error e => exact ⟨hr.past, hr.dest, herror _ e hr.now hf⟩
    | ok x =>
      obtain ⟨a, s⟩ := x
      obtain ⟨hdest, hQ⟩ := hok _ a s hr.now hf
      have hs : s.dest = s₀.dest := hdest.trans hr.dest
      exact ⟨List.forall_mem_append.2 ⟨hr.past, List.forall_mem_singleton.2 hs⟩, hs, hQ⟩

/-- A call whose errors leave the site to what held of it. -/
theorem still_call_of_ok {f : Site → Except Errno (α × Site)} {Q : α → Site → Prop}
    (hok : ∀ s a s', P s → f s = .ok (a, s') → s'.dest = s.dest ∧ Q a s') :
    Hoare.Triple (Still s₀ P) (h.call f) (fun a => Still s₀ (Q a)) fun _ => Still s₀ P :=
  still_call (fun _ _ _ hP _ => hP) (fun _ _ hP _ => hP) hok

theorem still_sync : Hoare.Triple (Still s₀ P) h.sync (fun _ => Still s₀ P) fun _ => Still s₀ P :=
  still_call_of_ok fun s _ s' hP hf => by cases hf; exact ⟨rfl, hP⟩

/-- The suppression entry is registered, and `T` holds of what stands at the temporary name. -/
def Ready (hash : Hash) (T : Option Item → Prop) (s : Site) : Prop :=
  s.suppressed = some hash ∧ T s.tmp

/-- The temporary name has this node. -/
def Has (inode : Node) (content : List Byte) (tmp : Option Item) : Prop :=
  tmp = some ⟨inode, content⟩

variable {hash : Hash} {i : Node} {content : List Byte}

/-- The node at the temporary name is as it was; the kernel gave `e`. -/
def Unset (h : Machine) (s₀ : Site) (hash : Hash) (i : Node) (content : List Byte) (e : Errno) :
    Run → Prop :=
  Still s₀ fun s => Ready hash (Has i content) s ∧
    (e = .refused .perm ∨ e = .refused .notsup → h.Lacks)

/-- A change of attributes at the temporary name. -/
theorem ready_setAttr {f : Node → Option Node} :
    Hoare.Triple (Still s₀ (Ready hash (Has i content))) (h.call (Site.setAttr f))
      (fun _ => Still s₀ (Ready hash fun tmp => ∃ i', f i = some i' ∧ Has i' content tmp))
      (Unset h s₀ hash i content) := by
  refine still_call (fun s e n hs hrefuse => ⟨hs, ?_⟩) (fun s e hs hf => ⟨hs, ?_⟩)
    fun s a s' hs hf => ?_
  · rintro (he | he) <;> cases he
    · exact ⟨n, .inl hrefuse⟩
    · exact ⟨n, .inr hrefuse⟩
  · unfold Site.setAttr at hf
    rw [show s.tmp = some ⟨i, content⟩ from hs.2] at hf
    dsimp only at hf
    split at hf <;> cases hf
    rintro (he | he) <;> cases he
  · unfold Site.setAttr at hf
    rw [show s.tmp = some ⟨i, content⟩ from hs.2] at hf
    dsimp only at hf
    split at hf
    · cases hf
    · rename_i i' hi'
      cases hf
      exact ⟨rfl, hs.1, i', hi', rfl⟩

/-- The destination is untouched, and the suppression entry is registered. -/
def Failed (s₀ : Site) (hash : Hash) : Run → Prop := Still s₀ fun s => s.suppressed = some hash

/-- The temporary name has a node of which `φ` holds. -/
def At (s₀ : Site) (hash : Hash) (φ : Node → Prop) (content : List Byte) (r : Run) : Prop :=
  ∃ i, φ i ∧ Still s₀ (Ready hash (Has i content)) r

theorem Still.failed {T : Option Item → Prop} {r : Run} (hr : Still s₀ (Ready hash T) r) :
    Failed s₀ hash r :=
  hr.mono fun _ hs => hs.1

theorem Unset.failed {e : Errno} {r : Run} (hr : Unset h s₀ hash i content e r) :
    Failed s₀ hash r :=
  hr.mono fun _ hs => hs.1.1

theorem Still.at {φ : Node → Prop} {r : Run}
    (hr : Still s₀ (Ready hash fun tmp => ∃ i, φ i ∧ Has i content tmp) r) :
    At s₀ hash φ content r := by
  obtain ⟨hs, i, hi, hT⟩ := hr.now
  exact ⟨i, hi, hr.past, hr.dest, hs, hT⟩

/-- A step from each node that may be at the temporary name. -/
theorem of_at {ε : Type} {φ : Node → Prop} {m : EStateM ε Run α} {Q : α → Run → Prop}
    {E : ε → Run → Prop}
    (hm : ∀ i, φ i → Hoare.Triple (Still s₀ (Ready hash (Has i content))) m Q E) :
    Hoare.Triple (At s₀ hash φ content) m Q E :=
  Hoare.Triple.exists_pre fun i => Hoare.Triple.of_pre (hm i)

theorem ready_setXattrs (xattrs : List (List Byte × List Byte)) (i : Node) :
    Hoare.Triple (Still s₀ (Ready hash (Has i content))) (h.setXattrs xattrs)
      (fun _ => At s₀ hash (h.XattrsDone xattrs i) content) fun _ => Failed s₀ hash := by
  induction xattrs generalizing i with
  | nil => exact fun r hr => ⟨i, rfl, hr⟩
  | cons x xattrs ih =>
    obtain ⟨name, value⟩ := x
    have hset : Hoare.Triple (At s₀ hash (· = i.setxattr h.k name value) content)
        (h.setXattrs xattrs) (fun _ => At s₀ hash (h.XattrsDone ((name, value) :: xattrs) i) content)
        fun _ => Failed s₀ hash :=
      of_at fun i' hi' => (ih i').post fun _ r ⟨i'', hi'', hr⟩ => ⟨i'', .inl (hi' ▸ hi''), hr⟩
    have hleft (hlacks : h.Lacks) : Hoare.Triple (Still s₀ (Ready hash (Has i content)))
        (h.setXattrs xattrs) (fun _ => At s₀ hash (h.XattrsDone ((name, value) :: xattrs) i) content)
        fun _ => Failed s₀ hash :=
      (ih i).post fun _ r ⟨i', hi', hr⟩ => ⟨i', .inr ⟨hlacks, hi'⟩, hr⟩
    unfold Machine.setXattrs
    by_cases hnul : 0 ∈ name
    · rw [if_pos hnul]
      exact fun r hr => hr.failed
    · rw [if_neg hnul]
      refine Hoare.Triple.bind (Hoare.Triple.attempt ready_setAttr) fun answer => ?_
      cases answer with
      | ok _ =>
        refine hset.pre fun r hr => Still.at (hr.mono fun s hs => ⟨hs.1, ?_⟩)
        obtain ⟨i', hi', hT⟩ := hs.2
        exact ⟨i', (Option.some.inj hi').symm, hT⟩
      | error e =>
        have hskip (hlacks : h.Lacks) : Hoare.Triple (Unset h s₀ hash i content e)
            (h.setXattrs xattrs)
            (fun _ => At s₀ hash (h.XattrsDone ((name, value) :: xattrs) i) content)
            fun _ => Failed s₀ hash :=
          (hleft hlacks).pre fun _ hr => hr.mono fun _ hs => hs.1
        cases e with
        | refused x =>
          cases x with
          | perm => exact fun r hr => hskip (hr.now.2 (.inl rfl)) r hr
          | notsup => exact fun r hr => hskip (hr.now.2 (.inr rfl)) r hr
          | _ => exact fun _ hr => Unset.failed hr
        | _ => exact fun _ hr => Unset.failed hr

theorem ready_setOwner (m : Meta) (i : Node) :
    Hoare.Triple (Still s₀ (Ready hash (Has i content))) (h.setOwner m)
      (fun _ => At s₀ hash (h.OwnerDone m i) content) fun _ => Failed s₀ hash := by
  unfold Machine.setOwner Machine.OwnerDone
  cases h.policy with
  | skip => exact fun r hr => ⟨i, rfl, hr⟩
  | numeric =>
    refine Hoare.Triple.bind (Hoare.Triple.attempt ready_setAttr) fun answer => ?_
    cases answer with
    | ok _ =>
      intro r hr
      obtain ⟨i', hi', hr⟩ := Still.at hr
      exact ⟨i', .inl (Option.some.inj hi').symm, hr⟩
    | error e =>
      cases e with
      | refused x =>
        cases x with
        | perm => exact fun r hr => ⟨i, .inr ⟨hr.now.2 (.inl rfl), rfl⟩, hr.mono fun _ hs => hs.1⟩
        | _ => exact fun _ hr => Unset.failed hr
      | _ => exact fun _ hr => Unset.failed hr

/-- Where no link stands at the temporary name, it leads to itself. -/
theorem follow_of_ne {s : Site} {it : Item} (hs : s.tmp = some it)
    (hit : it.inode.type ≠ .symlink) : s.follow h = .ok (.tmp, it) := by
  unfold Site.follow Site.place
  rw [hs]
  dsimp only
  rw [if_neg hit]
  dsimp only [Site.item]
  rw [hs]

/-- `chmod` of a node that is not a link. -/
theorem ready_chmod {perm : Perm} (hi : i.type ≠ .symlink) :
    Hoare.Triple (Still s₀ (Ready hash (Has i content))) (h.call (Site.chmod h perm))
      (fun _ => Still s₀ (Ready hash (Has (i.chmod h.k perm) content)))
      fun _ => Still s₀ (Ready hash (Has i content)) := by
  refine still_call_of_ok fun s _ s' hs hf => ?_
  have htmp : s.tmp = some ⟨i, content⟩ := hs.2
  unfold Site.chmod at hf
  rw [follow_of_ne htmp hi] at hf
  simp only [Site.update, Site.item, htmp, Site.put, Except.ok.injEq, Prod.mk.injEq] at hf
  rw [← hf.2]
  exact ⟨rfl, hs.1, rfl⟩

/-- The metadata on the node at the temporary name; `chmod` would follow a link. -/
theorem ready_applyMeta {m : Meta} (hi : m.kind = .symlink ∨ i.type ≠ .symlink) :
    Hoare.Triple (Still s₀ (Ready hash (Has i content))) (h.applyMeta m)
      (fun _ => At s₀ hash (h.MetaDone m i) content) fun _ => Failed s₀ hash := by
  refine Hoare.Triple.mapError ?_ fun _ _ hr => hr
  refine Hoare.Triple.bind (ready_setXattrs m.xattrs i) fun _ => of_at fun i₁ hx => ?_
  refine Hoare.Triple.bind (ready_setOwner m i₁) fun _ => of_at fun i₂ ho => ?_
  have htime : Hoare.Triple (Still s₀ (Ready hash (Has (h.modeSet m i₂) content)))
      (h.call (Site.setAttr fun i => i.utimens h.now m.mtimeS m.mtimeNs))
      (fun _ => At s₀ hash (h.MetaDone m i) content) fun _ => Failed s₀ hash :=
    ready_setAttr.conseq (fun _ hr => hr)
      (fun _ r hr => (Still.at hr).imp fun i' hi' => ⟨⟨i₁, i₂, hx, ho, hi'.1⟩, hi'.2⟩)
      fun _ _ hr => hr.failed
  have hlike : Like i i₂ := (like_xattrsDone hx).trans (like_ownerDone ho)
  unfold Machine.modeSet at htime
  by_cases hk : m.kind ≠ .symlink
  · rw [if_pos hk] at htime ⊢
    have hi₂ : i₂.type ≠ .symlink := hlike.1 ▸ hi.resolve_left hk
    exact ((ready_chmod hi₂).conseq (fun _ hr => hr) (fun _ _ hr => hr)
      fun _ _ hr => hr.failed).bind fun _ => htime
  · rw [if_neg hk] at htime ⊢
    exact htime

theorem ready_applyMetaOpt {metadata : Option Meta} (hi : i.type ≠ .symlink) :
    Hoare.Triple (Still s₀ (Ready hash (Has i content))) (h.applyMetaOpt metadata)
      (fun _ => At s₀ hash (h.MetaOptDone metadata i) content) fun _ => Failed s₀ hash := by
  cases metadata with
  | none => exact fun r hr => ⟨i, rfl, hr⟩
  | some m => exact ready_applyMeta (.inr hi)

/-! ### Staging -/

/-- What stands at the temporary name, or else a new regular file. -/
def Machine.base (h : Machine) (tmp : Option Item) : Node :=
  (tmp.map (·.inode)).getD (h.newNode .regular [] 0)

/-- A file is open at the temporary name. -/
def Opened (h : Machine) (s₀ : Site) (hash : Hash) (fd : Fd) (r : Run) : Prop :=
  (fd = .tmp ∧ (h.base s₀.tmp).type = .regular) ∧
    ∃ content, Still s₀ (Ready hash (Has (h.base s₀.tmp) content)) r

/-- Where no link stands at the temporary name, `File::create` uses a regular file that stands
there. -/
theorem opened_create (htmp : ∀ it, s₀.tmp = some it → it.inode.type ≠ .symlink) :
    Hoare.Triple (Still s₀ (Ready hash (· = s₀.tmp))) (h.call (Site.create h))
      (Opened h s₀ hash) fun _ => Failed s₀ hash := by
  have hcreate : Hoare.Triple (Still s₀ (Ready hash (· = s₀.tmp))) (h.call (Site.create h))
      (fun fd => Still s₀ fun s => (fd = .tmp ∧ (h.base s₀.tmp).type = .regular) ∧
        ∃ content, Ready hash (Has (h.base s₀.tmp) content) s)
      fun _ => Still s₀ (Ready hash (· = s₀.tmp)) := by
    refine still_call_of_ok fun s fd s' hs hf => ?_
    obtain ⟨hsup, hs⟩ := hs
    unfold Site.create Site.place at hf
    rw [hs] at hf
    unfold Machine.base
    cases hit : s₀.tmp with
    | none =>
      rw [hit] at hf hs
      dsimp only [Site.item] at hf
      rw [hs] at hf
      cases hf
      exact ⟨rfl, ⟨rfl, rfl⟩, [], hsup, rfl⟩
    | some it =>
      rw [hit] at hf hs
      dsimp only at hf
      rw [if_neg (htmp it hit)] at hf
      dsimp only [Site.item] at hf
      rw [hs] at hf
      obtain ⟨inode, content⟩ := it
      cases htype : inode.type with
      | regular =>
        simp only [Site.openNode, htype, Except.ok.injEq, Prod.mk.injEq] at hf
        rw [← hf.1, ← hf.2]
        exact ⟨rfl, ⟨rfl, htype⟩, [], hsup, rfl⟩
      | _ =>
        simp only [Site.openNode, htype] at hf
        cases hf
  refine hcreate.conseq (fun _ hr => hr) (fun fd r hr => ?_) fun _ _ hr => hr.failed
  obtain ⟨hopen, content, hs⟩ := hr.now
  exact ⟨hopen, content, hr.past, hr.dest, hs⟩

theorem withContent_tmp {s : Site} (hs : s.tmp = some ⟨i, content⟩) (content' : List Byte) :
    Machine.withContent s .tmp content' = { s with tmp := some ⟨i, content'⟩ } := by
  simp only [Machine.withContent, Site.update, Site.item, hs, Site.put]

/-- Writing the file at the temporary name. -/
theorem ready_writeAll {content' : List Byte} :
    Hoare.Triple (Still s₀ (Ready hash (Has i content))) (h.writeAll .tmp content')
      (fun _ => Still s₀ (Ready hash (Has i content'))) fun _ => Failed s₀ hash := by
  intro r hr
  have hwith := withContent_tmp hr.now.2
  have htorn : ∀ s ∈ r.past ++ h.torn.map (Machine.withContent r.site .tmp), s.dest = s₀.dest := by
    refine List.forall_mem_append.2 ⟨hr.past, List.forall_mem_map.2 fun torn _ => ?_⟩
    rw [hwith]
    exact hr.dest
  unfold Machine.writeAll
  cases h.refuse r.calls with
  | some e =>
    dsimp only
    rw [hwith]
    exact ⟨List.forall_mem_append.2 ⟨htorn, List.forall_mem_singleton.2 hr.dest⟩, hr.dest,
      hr.now.1⟩
  | none =>
    dsimp only
    rw [hwith]
    exact ⟨List.forall_mem_append.2 ⟨htorn, List.forall_mem_singleton.2 hr.dest⟩, hr.dest,
      hr.now.1, rfl⟩

theorem mapError_failed {P : Run → Prop} {m : EStateM Errno Run α} {Q : α → Run → Prop}
    {T : Option Item → Prop} {f : Errno → ApplyError}
    (hm : Hoare.Triple P m Q fun _ => Still s₀ (Ready hash T)) :
    Hoare.Triple P (Hoare.mapError f m) Q fun _ => Failed s₀ hash :=
  Hoare.Triple.mapError hm fun _ _ hr => hr.failed

/-- A node is made where none stands. -/
theorem ready_make {node : Node} :
    Hoare.Triple (Still s₀ (Ready hash (· = s₀.tmp))) (h.call (Site.make node))
      (fun _ => Still s₀ fun s => s₀.tmp = none ∧ Ready hash (Has node []) s)
      fun e => Still s₀ fun s => (e = .exist → s₀.tmp ≠ none) ∧ Ready hash (· = s₀.tmp) s := by
  refine still_call (fun s e n hs _ => ⟨nofun, hs⟩) (fun s e hs hf => ⟨?_, hs⟩)
    fun s _ s' hs hf => ?_
  · rintro - hnone
    unfold Site.make at hf
    rw [hs.2, hnone] at hf
    cases hf
  · unfold Site.make at hf
    rw [hs.2] at hf
    cases htmp : s₀.tmp with
    | some it =>
      rw [htmp] at hf
      cases hf
    | none =>
      rw [htmp] at hf
      cases hf
      exact ⟨rfl, rfl, hs.1, rfl⟩

theorem specialNode_type {m : Meta} {node : Node} (hnode : h.specialNode m = some node) :
    node.type ≠ .symlink := by
  unfold Machine.specialNode at hnode
  cases hk : m.kind <;> rw [hk] at hnode <;> cases hnode <;> exact nofun

/-- A node that stands at the temporary name already is taken for the one that is to be made. -/
theorem ready_createSpecial {m : Meta} {node : Node} (hnode : h.specialNode m = some node) :
    Hoare.Triple (Still s₀ (Ready hash (· = s₀.tmp))) (h.createSpecial m)
      (fun _ r => ∃ it : Item, it.inode = (s₀.tmp.map (·.inode)).getD node ∧
        Still s₀ (Ready hash (Has it.inode it.content)) r)
      fun _ => Failed s₀ hash := by
  unfold Machine.createSpecial
  rw [hnode]
  refine Hoare.Triple.bind (Hoare.Triple.attempt ready_make) fun answer => ?_
  cases answer with
  | ok _ =>
    intro r hr
    refine ⟨⟨node, []⟩, ?_, hr.mono fun _ hs => hs.2⟩
    rw [hr.now.1]
    rfl
  | error e =>
    cases e with
    | exist =>
      intro r hr
      obtain ⟨it, hit⟩ := Option.ne_none_iff_exists'.1 (hr.now.1 rfl)
      refine ⟨it, ?_, hr.mono fun _ hs => ⟨hs.2.1, hs.2.2.trans hit⟩⟩
      rw [hit]
      rfl
    | _ => exact fun r hr => Still.failed (hr.mono fun _ hs => hs.2)

section

variable [Blake3]

/-- What was read back has the hash. -/
theorem ready_verifyOnDisk {expected : Hash} {rel : Path} (hi : i.type = .regular) :
    Hoare.Triple (Still s₀ (Ready hash (Has i content))) (h.verifyOnDisk expected rel)
      (fun _ r => Blake3.hash content = expected ∧ Still s₀ (Ready hash (Has i content)) r)
      fun _ => Failed s₀ hash := by
  have hread : Hoare.Triple (Still s₀ (Ready hash (Has i content))) (h.call (Site.read h))
      (fun bs => Still s₀ fun s => bs = content ∧ Ready hash (Has i content) s)
      fun _ => Still s₀ (Ready hash (Has i content)) := by
    refine still_call_of_ok fun s bs s' hs hf => ?_
    have hne : i.type ≠ .symlink := by
      rw [hi]
      decide
    unfold Site.read at hf
    rw [follow_of_ne hs.2 hne] at hf
    simp only [hi, Except.ok.injEq, Prod.mk.injEq] at hf
    exact ⟨hf.2 ▸ rfl, hf.1.symm, hf.2 ▸ hs⟩
  refine Hoare.Triple.bind (mapError_failed hread) fun bs => ?_
  by_cases hhash : Blake3.hash bs ≠ expected
  · rw [if_pos hhash]
    exact fun r hr => hr.mono fun _ hs => hs.2.1
  · rw [if_neg hhash]
    exact fun r hr => ⟨hr.now.1 ▸ not_not.1 hhash, hr.mono fun _ hs => hs.2⟩

/-- The staged node is complete. -/
def Staged (h : Machine) (s₀ : Site) (c : Change) (r : Run) : Prop :=
  ∃ it, h.Complete s₀.tmp c it ∧ Still s₀ (Ready c.hash (· = some it)) r

/-- A file with its bytes is finished. -/
theorem staged_finishFile {rel : Path} {mode : U32} {metadata : Option Meta} {fd : Fd}
    (hfd : fd = .tmp) (hi : i.type = .regular) :
    Hoare.Triple (Still s₀ (Ready hash (Has i content))) (h.finishFile rel mode hash metadata fd)
      (fun _ r => ∃ i', h.FileDone i mode hash metadata ⟨i', content⟩ ∧
        Still s₀ (Ready hash (Has i' content)) r)
      fun _ => Failed s₀ hash := by
  subst hfd
  have hchmod : Hoare.Triple (Still s₀ (Ready hash (Has i content)))
      (h.call fun s => .ok ((), s.update (fun it =>
        { it with inode := it.inode.chmod h.k (Machine.permOf mode) }) .tmp))
      (fun _ => Still s₀ (Ready hash (Has (i.chmod h.k (Machine.permOf mode)) content)))
      fun _ => Still s₀ (Ready hash (Has i content)) := by
    refine still_call_of_ok fun s _ s' hs hf => ?_
    have htmp : s.tmp = some ⟨i, content⟩ := hs.2
    simp only [Site.update, Site.item, htmp, Site.put, Except.ok.injEq, Prod.mk.injEq] at hf
    rw [← hf.2]
    exact ⟨rfl, hs.1, rfl⟩
  have hi' : (i.chmod h.k (Machine.permOf mode)).type = .regular := hi
  refine Hoare.Triple.bind (mapError_failed still_sync) fun _ => ?_
  refine Hoare.Triple.bind (mapError_failed hchmod) fun _ => ?_
  refine Hoare.Triple.bind (ready_verifyOnDisk hi') fun _ => Hoare.Triple.of_pre fun hhash => ?_
  have hne : (i.chmod h.k (Machine.permOf mode)).type ≠ .symlink := by
    rw [hi']
    decide
  refine (ready_applyMetaOpt hne).post fun _ r hr => ?_
  obtain ⟨i', hmeta, hr⟩ := hr
  exact ⟨i', ⟨(like_metaOptDone hmeta).1.trans hi', hhash, hmeta⟩, hr⟩

theorem staged_write {rel : Path} {mode : U32} {data : List Byte} {metadata : Option Meta}
    (htmp : ∀ it, s₀.tmp = some it → it.inode.type ≠ .symlink) :
    Hoare.Triple (Still s₀ (Ready hash (· = s₀.tmp)))
      (do
        let fd ← Hoare.mapError (.io "create") (h.call (Site.create h))
        Hoare.mapError (.io "write") (h.writeAll fd data)
        h.finishFile rel mode hash metadata fd)
      (fun _ => Staged h s₀ (.write mode hash data metadata)) fun _ => Failed s₀ hash := by
  refine Hoare.Triple.bind (Hoare.Triple.mapError (opened_create htmp) fun _ _ hr => hr) fun fd => ?_
  refine Hoare.Triple.of_pre fun hfd => Hoare.Triple.exists_pre fun content => ?_
  rw [hfd.1]
  refine Hoare.Triple.bind (Hoare.Triple.mapError ready_writeAll fun _ _ hr => hr) fun _ => ?_
  exact (staged_finishFile rfl hfd.2).post fun _ r ⟨i, hdone, hr⟩ => ⟨⟨i, data⟩, hdone, hr⟩

theorem staged_assembled {rel : Path} {mode : U32} {manifest : Manifest} {metadata : Option Meta}
    (htmp : ∀ it, s₀.tmp = some it → it.inode.type ≠ .symlink) :
    Hoare.Triple (Still s₀ (Ready hash (· = s₀.tmp)))
      (do
        let fd ← Hoare.mapError (.io "create") (h.call (Site.create h))
        let written ← h.assemble manifest fd
        if written ≠ hash then throw (.hashMismatch rel)
        h.finishFile rel mode hash metadata fd)
      (fun _ => Staged h s₀ (.assembled mode hash manifest metadata)) fun _ => Failed s₀ hash := by
  refine Hoare.Triple.bind (Hoare.Triple.mapError (opened_create htmp) fun _ _ hr => hr) fun fd => ?_
  refine Hoare.Triple.of_pre fun hfd => Hoare.Triple.exists_pre fun content => ?_
  rw [hfd.1]
  have hassemble : Hoare.Triple (Still s₀ (Ready hash (Has (h.base s₀.tmp) content)))
      (h.assemble manifest .tmp)
      (fun _ r => ∃ content', Still s₀ (Ready hash (Has (h.base s₀.tmp) content')) r)
      fun _ => Failed s₀ hash := by
    unfold Machine.assemble
    obtain ⟨written, _, out⟩ := h.cas.assembleFromCas manifest {} h.truncates h.reads
    refine Hoare.Triple.bind (Hoare.Triple.mapError ready_writeAll fun _ _ hr => hr) fun _ => ?_
    cases written with
    | ok written => exact fun r hr => ⟨_, hr⟩
    | error _ => exact fun r hr => hr.failed
  refine Hoare.Triple.bind hassemble fun written => Hoare.Triple.exists_pre fun content' => ?_
  by_cases hhash : written ≠ hash
  · rw [if_pos hhash]
    exact fun r hr => hr.failed
  · rw [if_neg hhash]
    exact (staged_finishFile rfl hfd.2).post fun _ r ⟨i, hdone, hr⟩ => ⟨⟨i, content'⟩, hdone, hr⟩

/-- `apply_meta` sets the mode of what a link leads to unless the metadata is a link's. -/
theorem staged_symlink {m : Meta} {target : List Byte} (hkind : m.kind = .symlink)
    (htarget : m.symlinkTarget = some target) (hhash : Blake3.hash target = hash) :
    Hoare.Triple (Still s₀ (Ready hash (· = s₀.tmp)))
      (do
        Hoare.mapError (.io "symlink") (h.call fun s =>
          if target = [] then .error .noent else s.make (h.newNode .symlink target 0))
        h.applyMeta m)
      (fun _ => Staged h s₀ (.symlink hash m)) fun _ => Failed s₀ hash := by
  have hlink : Hoare.Triple (Still s₀ (Ready hash (· = s₀.tmp)))
      (h.call fun s => if target = [] then .error .noent else s.make (h.newNode .symlink target 0))
      (fun _ => Still s₀ (Ready hash (Has (h.newNode .symlink target 0) [])))
      fun _ => Still s₀ (Ready hash (· = s₀.tmp)) := by
    by_cases hempty : target = []
    · simp only [if_pos hempty]
      exact still_call_of_ok fun _ _ _ _ hf => by cases hf
    · simp only [if_neg hempty]
      exact ready_make.conseq (fun _ hr => hr) (fun _ _ hr => hr.mono fun _ hs => hs.2)
        fun _ _ hr => hr.mono fun _ hs => hs.2
  refine Hoare.Triple.bind (mapError_failed hlink) fun _ => ?_
  refine (ready_applyMeta (.inl hkind)).post fun _ r ⟨i, hmeta, hr⟩ => ⟨⟨i, []⟩, ?_, hr⟩
  exact ⟨target, htarget, hhash, (like_metaDone hmeta).1, (like_metaDone hmeta).2.1, hmeta⟩

theorem staged_special {m : Meta}
    (htmp : ∀ it node, s₀.tmp = some it → h.specialNode m = some node →
      it.inode.type = node.type ∧ it.inode.rdev = node.rdev) :
    Hoare.Triple (Still s₀ (Ready 0 (· = s₀.tmp)))
      (do
        h.createSpecial m
        h.applyMeta m)
      (fun _ => Staged h s₀ (.special m)) fun _ => Failed s₀ 0 := by
  cases hnode : h.specialNode m with
  | none =>
    unfold Machine.createSpecial
    rw [hnode]
    exact fun r hr => hr.failed
  | some node =>
    refine Hoare.Triple.bind (ready_createSpecial hnode) fun _ => ?_
    refine Hoare.Triple.exists_pre fun it => Hoare.Triple.of_pre fun hit => ?_
    have hlike : it.inode.type = node.type ∧ it.inode.rdev = node.rdev := by
      cases htmp₀ : s₀.tmp with
      | none =>
        rw [htmp₀] at hit
        exact ⟨congrArg (·.type) hit, congrArg (·.rdev) hit⟩
      | some it₀ =>
        rw [htmp₀] at hit
        exact hit ▸ htmp it₀ node htmp₀ hnode
    refine (ready_applyMeta (.inr (hlike.1 ▸ specialNode_type hnode))).post fun _ r hr => ?_
    obtain ⟨i, hmeta, hr⟩ := hr
    have hi := like_metaDone hmeta
    exact ⟨⟨i, it.content⟩, ⟨node, hnode, hi.1.trans hlike.1, hi.2.2.trans hlike.2, hit ▸ hmeta⟩, hr⟩

/-! ### Publishing -/

/-- The destination is as it was, or complete and announced. -/
def Intact (h : Machine) (s₀ : Site) (c : Change) (s : Site) : Prop :=
  (s.dest = s₀.dest ∨ ∃ it, s.dest = some it ∧ h.Complete s₀.tmp c it) ∧
    (s.dest ≠ s₀.dest → s.suppressed = some c.hash)

/-- No staged temporary remains, unless it could not be removed. -/
def Clean (s₀ : Site) (r : Run) : Prop :=
  r.kept = true ∨ r.site.tmp = none ∨ r.site = s₀

/-- A run that has not done anything yet. -/
def Run.start (s₀ : Site) : Run := { site := s₀, past := [s₀] }

/-- The change is published atomically: whenever the process stops, the destination is as it was or
complete, and its suppression entry is there before it changes; a failure leaves nothing behind. -/
def Atomic (h : Machine) (rel : Path) (c : Change) (s₀ : Site) : Prop :=
  match h.apply rel c (Run.start s₀) with
  | .ok _ r => ∀ s ∈ r.past, Intact h s₀ c s
  | .error _ r => (∀ s ∈ r.past, Intact h s₀ c s) ∧ Clean s₀ r

/-- The sites that publishing the change goes through. -/
def sites (h : Machine) (rel : Path) (c : Change) (s₀ : Site) : List Site :=
  match h.apply rel c (Run.start s₀) with
  | .ok _ r | .error _ r => r.past

variable {c : Change} {rel : Path}

theorem Atomic.intact (hatomic : Atomic h rel c s₀) : ∀ s ∈ sites h rel c s₀, Intact h s₀ c s := by
  unfold Atomic at hatomic
  unfold sites
  cases hend : h.apply rel c (Run.start s₀) with
  | ok _ r =>
    rw [hend] at hatomic
    exact hatomic
  | error _ r =>
    rw [hend] at hatomic
    exact hatomic.1

omit [Blake3] in
theorem Failed.intact [Blake3] {r : Run} (hr : Failed s₀ hash r) :
    ∀ s ∈ r.past, Intact h s₀ c s :=
  fun s hs => ⟨.inl (hr.past s hs), fun hne => absurd (hr.past s hs) hne⟩

omit [Blake3] in
/-- The staged temporary is removed. -/
theorem failed_discard :
    Hoare.Triple (Failed s₀ hash) h.discard
      (fun _ r => Failed s₀ hash r ∧ Clean s₀ r) fun _ r => Failed s₀ hash r ∧ Clean s₀ r := by
  have hunlink : Hoare.Triple (Failed s₀ hash) (h.call Site.unlink)
      (fun _ => Still s₀ fun s => s.suppressed = some hash ∧ s.tmp = none)
      fun e => Still s₀ fun s => s.suppressed = some hash ∧ (e = .noent → s.tmp = none) := by
    refine still_call (fun s e n hs _ => ⟨hs, nofun⟩) (fun s e hs hf => ⟨hs, fun he => ?_⟩)
      fun s _ s' hs hf => ?_
    · subst he
      unfold Site.unlink at hf
      cases htmp : s.tmp with
      | none => rfl
      | some it =>
        rw [htmp] at hf
        dsimp only at hf
        split at hf <;> cases hf
    · unfold Site.unlink at hf
      cases htmp : s.tmp with
      | none =>
        rw [htmp] at hf
        cases hf
      | some it =>
        rw [htmp] at hf
        dsimp only at hf
        split at hf
        · cases hf
        · cases hf
          exact ⟨rfl, hs, rfl⟩
  intro r hr
  have hcall := hunlink r hr
  unfold Machine.discard
  cases hrun : h.call Site.unlink r with
  | ok u r' =>
    rw [hrun] at hcall
    exact ⟨hcall.mono fun _ hs => hs.1, .inr (.inl hcall.now.2)⟩
  | error e r' =>
    rw [hrun] at hcall
    have hfailed : Failed s₀ hash r' := hcall.mono fun _ hs => hs.1
    cases e with
    | noent => exact ⟨hfailed, .inr (.inl (hcall.now.2 rfl))⟩
    | _ => exact ⟨⟨hfailed.past, hfailed.dest, hfailed.now⟩, .inl rfl⟩

/-- A staged node is renamed into place. -/
theorem staged_rename {slash : Bool} :
    Hoare.Triple (Staged h s₀ c) (h.call (Site.rename slash))
      (fun _ r => ∀ s ∈ r.past, Intact h s₀ c s) fun _ => Failed s₀ c.hash := by
  rintro r ⟨it, hit, hr⟩
  unfold Machine.call
  cases h.refuse r.calls with
  | some e => exact ⟨hr.past, hr.dest, hr.now.1⟩
  | none =>
    dsimp only
    have hplaced : ∀ s ∈ r.past ++ [{ r.site with dest := some it, tmp := none }],
        Intact h s₀ c s :=
      List.forall_mem_append.2 ⟨Failed.intact hr.failed,
        List.forall_mem_singleton.2 ⟨.inr ⟨it, rfl, hit⟩, fun _ => hr.now.1⟩⟩
    have hfailed : Failed s₀ c.hash { r with calls := r.calls + 1 } :=
      ⟨hr.past, hr.dest, hr.now.1⟩
    unfold Site.rename
    rw [show r.site.tmp = some it from hr.now.2]
    dsimp only
    split_ifs
    · exact hfailed
    · exact hplaced
    · exact hfailed
    · exact hfailed
    · exact hplaced

/-- What a stage that is complete or fails makes of a publication. -/
theorem publish_intact {stage : PublishM Unit}
    (hstage : Hoare.Triple (Still s₀ (Ready c.hash (· = s₀.tmp))) stage (fun _ => Staged h s₀ c)
      fun _ => Failed s₀ c.hash) :
    Hoare.Triple (· = Run.start s₀) (h.publish rel c.hash stage)
      (fun _ r => ∀ s ∈ r.past, Intact h s₀ c s)
      fun _ r => (∀ s ∈ r.past, Intact h s₀ c s) ∧ Clean s₀ r := by
  have huntouched : ∀ r, Still s₀ (· = s₀) r →
      (∀ s ∈ r.past, Intact h s₀ c s) ∧ Clean s₀ r :=
    fun r hr => ⟨fun s hs => ⟨.inl (hr.past s hs), fun hne => absurd (hr.past s hs) hne⟩,
      .inr (.inr hr.now)⟩
  have hstart : Hoare.Triple (Still s₀ (· = s₀)) (h.publish rel c.hash stage)
      (fun _ r => ∀ s ∈ r.past, Intact h s₀ c s)
      fun _ r => (∀ s ∈ r.past, Intact h s₀ c s) ∧ Clean s₀ r := by
    unfold Machine.publish
    refine Hoare.Triple.bind (Hoare.Triple.ofExcept.conseq (fun _ hr => hr) (fun _ _ hr => hr.2)
      fun _ r hr => huntouched r hr) fun dest => ?_
    refine Hoare.Triple.bind (Hoare.Triple.mapError still_sync fun _ r hr => huntouched r hr)
      fun _ => ?_
    have hregister : Hoare.Triple (Still s₀ (· = s₀)) (Machine.register c.hash)
        (fun _ => Still s₀ (Ready c.hash (· = s₀.tmp)))
        fun _ r => (∀ s ∈ r.past, Intact h s₀ c s) ∧ Clean s₀ r :=
      fun r hr => ⟨List.forall_mem_append.2 ⟨hr.past, List.forall_mem_singleton.2 hr.dest⟩,
        hr.dest, rfl, congrArg (·.tmp) hr.now⟩
    refine Hoare.Triple.bind hregister fun _ => Hoare.Triple.onError (hstage.bind fun _ =>
      Hoare.Triple.mapError staged_rename fun _ _ hr => hr) fun _ => ?_
    exact failed_discard.conseq (fun _ hr => hr) (fun _ _ hr => ⟨Failed.intact hr.1, hr.2⟩)
      fun _ _ hr => ⟨Failed.intact hr.1, hr.2⟩
  refine hstart.pre fun r hr => ?_
  subst hr
  exact ⟨List.forall_mem_singleton.2 rfl, rfl, rfl⟩

/-- What staging supposes: no link at the temporary name of a file, the metadata of a link for a
link, and for a special node nothing at the temporary name but such a node. -/
def Stageable (h : Machine) (c : Change) (tmp : Option Item) : Prop :=
  match c with
  | .write .. | .assembled .. => ∀ it, tmp = some it → it.inode.type ≠ .symlink
  | .symlink _ m => m.kind = .symlink
  | .special m => ∀ it node, tmp = some it → h.specialNode m = some node →
      it.inode.type = node.type ∧ it.inode.rdev = node.rdev

end

section Example

attribute [local instance] Blake3.polynomial

/-- A process whose calls the kernel all grants. -/
def grantedMachine : Machine where
  k := plainRules
  policy := .skip
  refuse _ := none
  born := regularFile 0 OrdMap.empty
  leads _ := .nowhere
  torn := [[]]
  left := []
  now := (0, 0)
  cas := {}
  truncates := none
  reads := []

/-- The metadata of a node without attributes. -/
def plainMeta (kind : FileKind) (rdev : U64) : Meta where
  kind
  mode := 0o644
  uid := 1000
  gid := 1000
  mtimeS := 0
  mtimeNs := 0
  symlinkTarget := none
  rdev
  xattrs := []

/-- What a FIFO that a process staged and did not publish leaves at the temporary name. -/
def stagedFifo : Item := { inode := grantedMachine.newNode .fifo [] 0 }

end Example

end Staging

end Disk

end Replicore
