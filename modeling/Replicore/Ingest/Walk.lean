import Replicore.Disk.Apply
import Replicore.Lib.DirTree

/-!
# The walk over the share

`walk` and `sweep_orphan_temps` of `scanner.rs`: the same loop over a stack of directories, once to
collect every replicated node and once, before the engine starts, to unlink what a killed process
has left staged.  Links are not followed, since the file type of an entry is that of the entry
itself.  Any failure ends the loop: of `read_dir`, of the next entry, or of its file type.
`scan_once` tells the ingest of the nodes that the walk has found, and of the live rows whose path
is not among theirs.

* `walk_finds_each_once` : every replicated node once and nothing else, or an error;
* `write_mem_scanOnce`, `delete_mem_scanOnce` : what a pass tells of a share that can be read;
* `sweep_spec` : the sweep unlinks staging files only, all of those that it may, and the walk finds
  after it what it found before;
* `isTmp_tmpName` : whatever name a version is staged under is one that the walk passes over and the
  sweep unlinks.
-/

namespace Replicore

open Bytes

namespace Ingest

open Disk

/-- What `file_type` says of an entry that is no directory. -/
inductive FileType
  | file
  | symlink
  | fifo
  | charDevice
  | blockDevice
  /-- A runtime endpoint, never replicated. -/
  | socket
  deriving DecidableEq

/-- The share, as reading it goes. -/
abbrev Tree (E : Type) := DirTree Name FileType E

/-- `is_tmp`: the name contains `TMP_SUFFIX`; a name that is no text does not. -/
def isTmp (loc : List Name) : Bool :=
  match loc.getLast?.bind utf8Decode with
  | some name => decide (tmpSuffix <:+: name)
  | none => false

/-- The nodes that `walk` pushes. -/
def isReplicated (loc : List Name) (ftype : FileType) : Bool := !isTmp loc && ftype != .socket

/-- The nodes that `sweep_orphan_temps` tries to unlink. -/
def isOrphan (loc : List Name) (ftype : FileType) : Bool := ftype == .file && isTmp loc

/-- A locally observed mutation. -/
inductive LocalEvent (P : Type)
  | write (abs : P)
  | delete (rel : Path)
  | rename (source : Path) (dest : P)
  deriving DecidableEq

/-- `relativize`, of the part of a path below the share. -/
def relativize (below : List Byte) : Option Path :=
  match utf8Decode below with
  | some rel => if rel = [] then none else some rel
  | none => none

/-- The part below the share of the path of the node with these names. -/
def belowShare (names : List Name) : List Byte := [47].intercalate names

/-- `to_str`, of that part. -/
def relStr (names : List Name) : Option Path := utf8Decode (belowShare names)

variable {E : Type}

/-- Collect every replicated node. -/
def walk (t : Tree E) : Option (Except E (List (List Name))) :=
  (t.traverse (fun out loc ftype => if isReplicated loc ftype then out ++ [loc] else out) []).map
    fun r => match r with
      | .ok out => .ok out
      | .error e => .error e.1

/-- What a pass sends, once the walk has found these: all of them, and then the live rows whose path
is not that of one. -/
def scanSends (onDisk : List (List Name)) (liveFiles : List Path) : List (LocalEvent (List Name)) :=
  let diskRels := onDisk.filterMap relStr
  onDisk.map .write ++ (liveFiles.filter fun rel => rel ∉ diskRels).map .delete

/-- One pass of `scan_once`, as long as the channel is open. -/
def scanOnce (t : Tree E) (liveFiles : List Path) :
    Option (Except E (List (LocalEvent (List Name)))) :=
  (walk t).map (Except.map (scanSends · liveFiles))

/-- Unlink every staging file; the result is what was unlinked, also where the loop fails later.
`removable` says at which locations `remove_file` succeeds. -/
def sweepOrphanTemps (removable : List Name → Bool) (t : Tree E) :
    Option (Except (E × List (List Name)) (List (List Name))) :=
  t.traverse (fun removed loc ftype =>
    if isOrphan loc ftype && removable loc then removed ++ [loc] else removed) []

/-- The share after these files are unlinked. -/
def unlinked (removed : List (List Name)) (t : Tree E) : Tree E :=
  t.erase (fun loc _ => decide (loc ∈ removed)) []

theorem relativize_eq_some {below : List Byte} {rel : Path} :
    relativize below = some rel ↔ below = utf8 rel ∧ rel ≠ [] := by
  unfold relativize
  cases hdec : utf8Decode below with
  | none =>
    refine ⟨nofun, fun ⟨h, _⟩ => ?_⟩
    rw [utf8Decode_eq_some.2 h] at hdec
    cases hdec
  | some p =>
    rw [utf8Decode_eq_some.1 hdec, utf8_injective.eq_iff]
    by_cases hp : p = []
    · simp only [hp, if_true]
      exact ⟨nofun, fun ⟨h, hne⟩ => absurd h.symm hne⟩
    · simp only [hp, if_false, Option.some.injEq]
      exact ⟨fun h => ⟨h, h ▸ hp⟩, And.left⟩

/-! ### What the loops visit -/

/-- A loop that pushes what meets `p`. -/
theorem visitAll_push (p : List Name → FileType → Bool) (l : List (List Name × FileType))
    (out : List (List Name)) :
    DirTree.visitAll (fun out loc ftype => if p loc ftype then out ++ [loc] else out) l out =
      out ++ (l.filter fun x => p x.1 x.2).map Prod.fst := by
  induction l generalizing out with
  | nil => simp [DirTree.visitAll]
  | cons x l ih =>
    refine (ih _).trans ?_
    by_cases h : p x.1 x.2
    · simp [h]
    · simp [h]

/-- The walk always ends: with the replicated nodes in some order, or with an error. -/
theorem walk_spec (t : Tree E) :
    (t.Readable → ∃ out, walk t = some (.ok out) ∧
      out.Perm (((t.nodes []).filter fun x => isReplicated x.1 x.2).map Prod.fst)) ∧
    (¬ t.Readable → ∃ e, walk t = some (.error e)) := by
  obtain ⟨l, ⟨hr, hl, heq⟩ | ⟨hr, -, e, heq⟩⟩ := DirTree.traverse_spec
    (fun out loc ftype => if isReplicated loc ftype then out ++ [loc] else out) t []
  · refine ⟨fun _ => ⟨_, by rw [walk, heq]; rfl, ?_⟩, fun h => absurd hr h⟩
    rw [visitAll_push, List.nil_append]
    exact (hl.filter _).map _
  · exact ⟨fun h => absurd h hr, fun _ => ⟨e, by rw [walk, heq]; rfl⟩⟩

theorem readable_of_walk {t : Tree E} {out : List (List Name)} (h : walk t = some (.ok out)) :
    t.Readable := by
  by_contra hr
  obtain ⟨e, he⟩ := (walk_spec t).2 hr
  rw [h] at he
  cases he

theorem perm_walk {t : Tree E} {out : List (List Name)} (h : walk t = some (.ok out)) :
    out.Perm (((t.nodes []).filter fun x => isReplicated x.1 x.2).map Prod.fst) := by
  obtain ⟨out', hout, hperm⟩ := (walk_spec t).1 (readable_of_walk h)
  rw [h] at hout
  cases hout
  exact hperm

/-- **The walk finds every replicated node once.**  It always ends.  It lists the locations of the
regular files, links, pipes and devices that are no staging files, each of them once and nothing
else, if all of the share can be read; and it fails if any directory or entry cannot be read. -/
theorem walk_finds_each_once (t : Tree E) (hd : t.Distinct) :
    (t.Readable → ∃ out, walk t = some (.ok out) ∧ out.Nodup ∧ ∀ loc, loc ∈ out ↔
      ∃ ftype, (loc, ftype) ∈ t.nodes [] ∧ isTmp loc = false ∧ ftype ≠ .socket) ∧
    (¬ t.Readable → ∃ e, walk t = some (.error e)) := by
  refine ⟨fun hr => ?_, (walk_spec t).2⟩
  obtain ⟨out, hout, hperm⟩ := (walk_spec t).1 hr
  refine ⟨out, hout, ?_, fun loc => ?_⟩
  · exact hperm.nodup_iff.2 ((DirTree.nodup_nodes hd []).sublist (List.filter_sublist.map _))
  · simp [hperm.mem_iff, isReplicated]

/-! ### A pass -/

section

variable {onDisk : List (List Name)} {liveFiles : List Path} {names : List Name} {rel : Path}

theorem write_mem_scanSends : .write names ∈ scanSends onDisk liveFiles ↔ names ∈ onDisk := by
  simp [scanSends]

theorem delete_mem_scanSends : .delete rel ∈ scanSends onDisk liveFiles ↔
    rel ∈ liveFiles ∧ ∀ names ∈ onDisk, relStr names ≠ some rel := by
  simp [scanSends]

/-- What a pass sends is about the replicated nodes. -/
theorem scanOnce_eq_ok {t : Tree E} {events : List (LocalEvent (List Name))}
    (h : scanOnce t liveFiles = some (.ok events)) :
    ∃ onDisk, events = scanSends onDisk liveFiles ∧
      ∀ loc, loc ∈ onDisk ↔ ∃ ftype, (loc, ftype) ∈ t.nodes [] ∧ isReplicated loc ftype := by
  obtain ⟨r, hwalk, hr⟩ := Option.map_eq_some_iff.1 h
  cases r with
  | error e => cases hr
  | ok onDisk =>
    exact ⟨onDisk, (Except.ok.inj hr).symm, fun loc => by simp [(perm_walk hwalk).mem_iff]⟩

/-- A pass tells of every replicated node. -/
theorem write_mem_scanOnce {t : Tree E} {events : List (LocalEvent (List Name))}
    (h : scanOnce t liveFiles = some (.ok events)) :
    .write names ∈ events ↔ ∃ ftype, (names, ftype) ∈ t.nodes [] ∧ isReplicated names ftype := by
  obtain ⟨onDisk, rfl, hmem⟩ := scanOnce_eq_ok h
  rw [write_mem_scanSends, hmem]

/-- A pass tells of a live row as deleted exactly if no replicated node has its path. -/
theorem delete_mem_scanOnce {t : Tree E} {events : List (LocalEvent (List Name))}
    (h : scanOnce t liveFiles = some (.ok events)) :
    .delete rel ∈ events ↔ rel ∈ liveFiles ∧ ∀ names ftype, (names, ftype) ∈ t.nodes [] →
      isReplicated names ftype → relStr names ≠ some rel := by
  obtain ⟨onDisk, rfl, hmem⟩ := scanOnce_eq_ok h
  rw [delete_mem_scanSends]
  refine and_congr_right fun _ => forall_congr' fun loc => ?_
  rw [hmem]
  exact ⟨fun h ftype hin hrep => h ⟨ftype, hin, hrep⟩, fun h ⟨ftype, hin, hrep⟩ => h ftype hin hrep⟩

end

/-! ### Staging names -/

/-- A name under which a version of a file with a textual name is staged. -/
theorem isTmp_tmpName (dir : List Name) (name : List Char) (pid stageSeq : ℕ) :
    isTmp (dir ++ [tmpName (utf8 name) pid stageSeq]) = true := by
  have htext : tmpName (utf8 name) pid stageSeq = utf8 ('.' :: name ++ tmpSuffix ++
      '.' :: Nat.toDigits 10 pid ++ '.' :: Nat.toDigits 10 stageSeq) := by
    simp only [tmpName, utf8_append, utf8_cons]
    rfl
  have hinfix : tmpSuffix <:+: ('.' :: name ++ tmpSuffix ++ '.' :: Nat.toDigits 10 pid ++
      '.' :: Nat.toDigits 10 stageSeq) :=
    ⟨'.' :: name, '.' :: Nat.toDigits 10 pid ++ '.' :: Nat.toDigits 10 stageSeq,
      by simp only [List.append_assoc, List.cons_append]⟩
  rw [isTmp, List.getLast?_append_of_ne_nil _ (by simp), htext]
  have hdecode := utf8Decode_eq_some.2 (rfl : utf8 _ = utf8 ('.' :: name ++ tmpSuffix ++
      '.' :: Nat.toDigits 10 pid ++ '.' :: Nat.toDigits 10 stageSeq))
  simp only [List.getLast?_singleton, Option.bind_some, hdecode]
  exact decide_eq_true hinfix

/-! ### The sweep -/

/-- Nothing that the sweep unlinks is replicated. -/
theorem isReplicated_of_isOrphan {loc : List Name} {ftype : FileType} (h : isOrphan loc ftype) :
    isReplicated loc ftype = false := by
  rw [isOrphan, Bool.and_eq_true] at h
  simp [isReplicated, h.2]

/-- **The sweep.**  For every share and every answer of `remove_file`: what is unlinked are staging
files that could be unlinked; if all of the share can be read, those are all of them, so that a
staging file that is left is one that `remove_file` refused; every other node is still there; and
the walk afterwards finds exactly what it would have found before. -/
theorem sweep_spec (removable : List Name → Bool) (t : Tree E) (hd : t.Distinct) :
    ∃ removed, (sweepOrphanTemps removable t = some (.ok removed) ∧ t.Readable ∨
        ∃ e, sweepOrphanTemps removable t = some (.error (e, removed)) ∧ ¬ t.Readable) ∧
      (∀ loc ∈ removed, removable loc ∧ ∃ ftype, (loc, ftype) ∈ t.nodes [] ∧ isOrphan loc ftype) ∧
      (t.Readable → ∀ loc ftype, (loc, ftype) ∈ (unlinked removed t).nodes [] →
        isOrphan loc ftype → removable loc = false) ∧
      (∀ loc ftype, (loc, ftype) ∈ t.nodes [] → ¬ isOrphan loc ftype →
        (loc, ftype) ∈ (unlinked removed t).nodes []) ∧
      ∀ out, walk t = some (.ok out) →
        ∃ out', walk (unlinked removed t) = some (.ok out') ∧ out'.Perm out := by
  obtain ⟨l, hl⟩ := DirTree.traverse_spec (fun removed loc ftype =>
    if isOrphan loc ftype && removable loc then removed ++ [loc] else removed) t []
  -- what was unlinked, as a part of what was visited
  have hpush := visitAll_push (fun loc ftype => isOrphan loc ftype && removable loc) l []
  rw [List.nil_append] at hpush
  set removed := (l.filter fun x => isOrphan x.1 x.2 && removable x.1).map Prod.fst with hremoved
  have hsub : l.Subperm (t.nodes []) := hl.elim (fun h => h.2.1.subperm) fun h => h.2.1
  have hmem : ∀ loc ∈ removed, removable loc ∧
      ∃ ftype, (loc, ftype) ∈ t.nodes [] ∧ isOrphan loc ftype := by
    intro loc hloc
    obtain ⟨x, hx, rfl⟩ := List.mem_map.1 hloc
    obtain ⟨hx, hp⟩ := List.mem_filter.1 hx
    rw [Bool.and_eq_true] at hp
    exact ⟨hp.2, x.2, hsub.subset hx, hp.1⟩
  -- a location is that of one node only, so nothing else goes with it
  have hkept : ∀ loc ftype, (loc, ftype) ∈ t.nodes [] → ¬ isOrphan loc ftype → loc ∉ removed := by
    intro loc ftype hx hno hloc
    obtain ⟨-, ftype', hx', horphan⟩ := hmem loc hloc
    have hsame := List.inj_on_of_nodup_map (DirTree.nodup_nodes hd []) hx hx' rfl
    exact hno ((Prod.mk.inj hsame).2 ▸ horphan)
  have hnodes : (unlinked removed t).nodes [] =
      (t.nodes []).filter fun x => !decide (x.1 ∈ removed) := DirTree.nodes_erase _ _ _
  refine ⟨removed, ?_, hmem, fun hr loc ftype hx horphan => ?_, fun loc ftype hx hno => ?_,
    fun out hout => ?_⟩
  · obtain ⟨hr, -, heq⟩ | ⟨hr, -, e, heq⟩ := hl
    · exact .inl ⟨heq.trans (by rw [hpush]), hr⟩
    · exact .inr ⟨e, heq.trans (by rw [hpush]), hr⟩
  · rw [hnodes, List.mem_filter] at hx
    obtain ⟨hx, hnot⟩ := hx
    by_contra hrem
    have hperm : l.Perm (t.nodes []) := hl.elim (fun h => h.2.1) fun h => absurd hr h.1
    have hin : loc ∈ removed := by
      refine List.mem_map.2 ⟨(loc, ftype), List.mem_filter.2 ⟨hperm.mem_iff.2 hx, ?_⟩, rfl⟩
      rw [Bool.and_eq_true]
      exact ⟨horphan, by simpa using hrem⟩
    simp [hin] at hnot
  · rw [hnodes, List.mem_filter]
    exact ⟨hx, by simpa using hkept loc ftype hx hno⟩
  · have hr : t.Readable := readable_of_walk hout
    obtain ⟨out', hout', hperm'⟩ :=
      (walk_spec (unlinked removed t)).1 (DirTree.readable_erase.2 hr)
    refine ⟨out', hout', hperm'.trans (.trans (.of_eq (congrArg _ ?_)) (perm_walk hout).symm)⟩
    rw [hnodes, List.filter_filter]
    refine List.filter_congr fun x hx => ?_
    cases hrep : isReplicated x.1 x.2 with
    | false => rfl
    | true =>
      have hno : ¬ isOrphan x.1 x.2 := fun h => by
        rw [isReplicated_of_isOrphan h] at hrep
        cases hrep
      simpa using hkept x.1 x.2 hx hno

section Example

/-- A share with a file, a staging file and a link in a directory, and a socket. -/
def someShare : Tree Unit :=
  .node [97] .file (.dir [100] (.node (tmpName [98] 7 0) .file (.node [99] .symlink .nil))
    (.node [115] .socket .nil))

theorem walk_finds_each_once_someShare :
    ∃ out, walk someShare = some (.ok out) ∧ out.Nodup ∧ [[115]] ∉ out ∧ [[100], [99]] ∈ out := by
  have hd : someShare.Distinct := by
    simp only [someShare, DirTree.Distinct, DirTree.names]
    decide
  obtain ⟨out, hout, hnodup, hmem⟩ := (walk_finds_each_once someShare hd).1 (by
    simp [someShare, DirTree.Readable])
  refine ⟨out, hout, hnodup, fun h => ?_,
    (hmem _).2 ⟨.symlink, by decide, by decide +kernel, by decide⟩⟩
  obtain ⟨ftype, hin, -, hsocket⟩ := (hmem _).1 h
  have hftype : ftype = .socket := by simpa [someShare, DirTree.nodes] using hin
  exact hsocket hftype

theorem sweep_spec_someShare :
    sweepOrphanTemps (fun _ => true) someShare = some (.ok [[[100], tmpName [98] 7 0]]) ∧
      ∃ removed out, walk (unlinked removed someShare) = some (.ok out) ∧
        out.Perm [[[97]], [[100], [99]]] := by
  have hd : someShare.Distinct := by
    simp only [someShare, DirTree.Distinct, DirTree.names]
    decide
  obtain ⟨removed, -, -, -, -, hwalk⟩ := sweep_spec (fun _ => true) someShare hd
  obtain ⟨out, hout, hperm⟩ := hwalk [[[97]], [[100], [99]]] (by decide +kernel)
  exact ⟨by decide +kernel, removed, out, hout, hperm⟩

end Example

end Ingest

end Replicore
