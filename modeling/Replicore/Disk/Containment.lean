import Replicore.Disk.Apply
import Replicore.Lib.Lts

/-!
# Containment under the share root

`safe_dest` is a lexical check, and the kernel follows links on the way to the last component.  So a
version is written outside the share as soon as a directory on its path is a link that leads there,
and an earlier version may have put it there (`escapes_through_symlink`).

Where it does not come to that, everything an apply touches is below the root.  The condition is
about the state before each apply (`Leads`): the deepest directory on the path that exists is the
share root or below it, and where the apply follows the last component (`chmod`, and the creation of
the temporary file) that does not lead outside.
-/

namespace Replicore

open Bytes Posix

namespace Disk

/-- The directory of a path, if it exists, is the root or below it. -/
def ParentInside (root : Loc Name) (fs : Fs Name File) (p : Arg Name) : Prop :=
  ∀ l, dirAt root p.names.dropLast fs = some l → root <+: l

/-- The deepest directory of a path that exists is the root or below it. -/
def DeepestInside (root : Loc Name) (fs : Fs Name File) (p : Arg Name) : Prop :=
  root <+: deepest root fs p.names.dropLast.reverse

/-- The names, followed to the end, do not lead outside. -/
def FollowsInside (root : Loc Name) (fs : Fs Name File) (names : List Name) : Prop :=
  ∀ l, resolve fs true root names = .ok l → Below root l

/-- The temporary names of a destination. -/
def tmpNames (pid stageSeq : ℕ) (dest : Arg Name) : List Name :=
  dest.names.dropLast ++ [tmpName (dest.names.getLastD []) pid stageSeq]

/-- A version at this destination is published inside; `follow` if its staging follows the temporary
name. -/
def PublishInside (h : Host) (fs : Fs Name File) (stageSeq : ℕ) (follow : Prop) (rel : Path) : Prop :=
  ∀ dest, safeDest rel = .ok dest → DeepestInside h.root fs dest ∧
    (follow → FollowsInside h.root fs (tmpNames h.pid stageSeq dest))

/-- No link leads this change outside. -/
def Leads (h : Host) (stageSeq : ℕ) (fs : Fs Name File) : RemoteChange → Prop
  | .version rel _ _ metadata =>
    PublishInside h fs stageSeq (metadata.map (·.kind) ≠ some .symlink) rel
  | .write rel _ _ _ => PublishInside h fs stageSeq True rel
  | .metaOnly rel m => ∀ dest, safeDest rel = .ok dest → ParentInside h.root fs dest ∧
      (m.kind ≠ .symlink ∨ dest.slash → FollowsInside h.root fs dest.names)
  | .rename oldRel newRel _ _ => ∀ src dest, safeDest oldRel = .ok src → safeDest newRel = .ok dest →
      ParentInside h.root fs src ∧ DeepestInside h.root fs dest ∧
      ∀ l t, resolve fs false h.root src.names = .ok l → fs l ≠ some (.link t)
  | .delete rel => ∀ dest, safeDest rel = .ok dest → ParentInside h.root fs dest

/-- An accepted string begins with a name, does not ask for a parent, and its destination has the
components that are not dropped. -/
theorem names_of_safeDest {rel : Path} {dest : Arg Name} (h : safeDest rel = .ok dest) :
    (parts (utf8 rel)).head? ≠ some [] ∧ (parts (utf8 rel)).head? ≠ some [46] ∧
      rel ≠ [] ∧ [46, 46] ∉ parts (utf8 rel) ∧
      dest.names = (parts (utf8 rel)).filter fun c => c ≠ [] ∧ c ≠ [46] := by
  unfold safeDest at h
  dsimp only at h
  split_ifs at h with hrefused
  cases h
  push Not at hrefused
  exact ⟨hrefused.2.1, hrefused.2.2.1, hrefused.1, hrefused.2.2.2, rfl⟩

theorem safeDest_names {rel : Path} {dest : Arg Name} (h : safeDest rel = .ok dest) :
    dest.names = dest.names.dropLast ++ [dest.names.getLastD []] := by
  have hne : dest.names ≠ [] := by
    obtain ⟨hnil, hdot, -, -, hnames⟩ := names_of_safeDest h
    rw [hnames]
    cases hparts : parts (utf8 rel) with
    | nil => exact absurd hparts (by simp [parts])
    | cons c cs =>
      rw [hparts] at hnil hdot
      have hc : c ≠ [] ∧ c ≠ [46] :=
        ⟨fun hc => hnil (by rw [hc]; rfl), fun hc => hdot (by rw [hc]; rfl)⟩
      rw [List.filter_cons_of_pos (by simpa using hc)]
      simp
  rw [List.getLastD_eq_getLast?, List.getLast?_eq_getLast_of_ne_nil hne, Option.getD_some,
    List.dropLast_concat_getLast]

/-! ### Metadata -/

section Meta

variable {h : Host} {p : Arg Name} {I : Fs Name File → Prop}

theorem keeps_setXattrs
    (hbelow : ∀ fs loc, I fs → resolve fs (false || p.slash) h.root p.names = .ok loc →
      Below h.root loc) (xattrs : List (List Byte × List Byte)) :
    Hoare.Keeps (Held h.root I) (h.setXattrs p xattrs) := by
  induction xattrs with
  | nil => exact .pure
  | cons x xattrs ih =>
    unfold Host.setXattrs
    dsimp only
    split_ifs
    · exact .bind .throw fun _ => (keeps_changeAttr hbelow).attempt.bind fun r => by
        split
        · exact ih
        · exact ih
        · exact ih
        · exact .throw
    · refine (keeps_changeAttr hbelow).attempt.bind fun r => ?_
      split
      · exact ih
      · exact ih
      · exact ih
      · exact .throw

theorem keeps_setOwner
    (hbelow : ∀ fs loc, I fs → resolve fs (false || p.slash) h.root p.names = .ok loc →
      Below h.root loc) : Hoare.Keeps (Held h.root I) (h.setOwner p) := by
  unfold Host.setOwner
  split
  · exact .pure
  · refine (keeps_changeAttr hbelow).attempt.bind fun r => ?_
    split
    · exact .pure
    · exact .pure
    · exact .throw

/-- Metadata touches what the path leads to: without the last link, and with it unless the metadata
is that of a symlink. -/
theorem keeps_applyMeta {m : Meta}
    (hbelow : ∀ fs loc, I fs → resolve fs (false || p.slash) h.root p.names = .ok loc →
      Below h.root loc)
    (hfollow : m.kind ≠ .symlink → ∀ fs loc, I fs → resolve fs true h.root p.names = .ok loc →
      Below h.root loc) : Hoare.Keeps (Held h.root I) (h.applyMeta p m) := by
  refine Hoare.Keeps.mapError ?_
  refine (keeps_setXattrs hbelow _).bind fun _ => (keeps_setOwner hbelow).bind fun _ => ?_
  split_ifs with hkind
  · refine Hoare.Keeps.bind (keeps_changeAttr fun fs loc hI hloc => ?_) fun _ =>
      keeps_changeAttr hbelow
    rw [Bool.true_or] at hloc
    exact hfollow hkind fs loc hI hloc
  · exact keeps_changeAttr hbelow

theorem keeps_applyMetaOpt {metadata : Option Meta}
    (hbelow : ∀ fs loc, I fs → resolve fs (false || p.slash) h.root p.names = .ok loc →
      Below h.root loc)
    (hfollow : ∀ fs loc, I fs → resolve fs true h.root p.names = .ok loc → Below h.root loc) :
    Hoare.Keeps (Held h.root I) (h.applyMetaOpt p metadata) := by
  cases metadata with
  | none => exact .pure
  | some m => exact keeps_applyMeta hbelow fun _ => hfollow

end Meta

/-! ### Staging and publishing -/

section Publish

variable {h : Host} {dirs : List Name} {tmp : Name} {l : Loc Name} {fs : Fs Name File}

/-- The directory is open, and its temporary name does not lead outside. -/
structure Staging (root : Loc Name) (dirs : List Name) (tmp : Name) (l : Loc Name)
    (fs : Fs Name File) : Prop extends Opened root dirs l fs where
  follows : FollowsInside root fs (dirs ++ [tmp])

/-- Neither directories nor links come or go while a file is staged. -/
theorem Staging.set (hs : Staging h.root dirs tmp l fs) {c : Change Name File}
    (hplain : Plain (fs c.1)) (hplain' : Plain c.2) (hbelow : Below h.root c.1)
    (hplaced : c.2.isSome → Posix.Placed fs c.1) :
    Staging h.root dirs tmp l (Posix.set fs c) := by
  refine ⟨hs.toOpened.set hplain hbelow hplaced, fun loc hloc => hs.follows loc ?_⟩
  refine resolve_mono (fun loc' node htree hnode => ?_) (fun t ht => ?_) hloc
  · by_cases heq : loc' = c.1
    · subst heq
      rw [set_self] at hnode
      exact absurd htree (hplain' node hnode)
    · rwa [set_of_ne fs heq] at hnode
  · rw [set_of_ne fs]
    · exact ht
    · rintro rfl
      exact absurd trivial (hplain _ ht)

/-- The names in an open directory. -/
theorem Opened.below_of_resolve {root : Loc Name} {n : Name} (ho : Opened root dirs l fs)
    {loc : Loc Name} (hloc : resolve fs (false || false) root (dirs ++ [n]) = .ok loc) :
    Below root loc := by
  rw [Opened.eq_concat ho hloc]
  exact below_concat ho.inside n

theorem keeps_applyMeta_staging {m : Meta} :
    Hoare.Keeps (Held h.root (Staging h.root dirs tmp l))
      (h.applyMeta { names := dirs ++ [tmp] } m) :=
  keeps_applyMeta (fun _ _ hs hloc => Opened.below_of_resolve hs.toOpened hloc)
    fun _ _ _ hs hloc => hs.follows _ hloc

/-- A change through the descriptor of the staged file. -/
theorem keeps_changeFd {fd : Loc Name} {f : File → File} {ctx : String} (hfd : Below h.root fd) :
    Hoare.Keeps (Held h.root (Staging h.root dirs tmp l)) (h.call ctx (changeFd fd f)) := by
  refine Hoare.Keeps.mapError (held_call_of_keeps fun fs u changes hs hok => ?_)
  obtain ⟨hplain, hsome, d, rfl⟩ := changeFd_eq_ok hok
  refine ⟨hs.set hplain (plain_other d) hfd fun _ => .inl hsome, fun c hc => ?_⟩
  obtain rfl := List.mem_singleton.1 hc
  exact hfd

theorem keeps_sync {I : Fs Name File → Prop} {ctx : String} :
    Hoare.Keeps (Held h.root I) (h.sync ctx) := by
  refine Hoare.Keeps.mapError (held_call_of_keeps fun fs u changes hI hok => ?_)
  cases hok
  exact ⟨hI, fun c hc => (by cases hc)⟩

theorem createDirAll_inside {dest : Arg Name} {fs₀ : Fs Name File} (hsound : Sound h.root fs₀)
    (hin : DeepestInside h.root fs₀ dest) :
    Hoare.Triple (Held h.root (· = fs₀))
      (Hoare.mapError (.io "mkdir") (createDirAll h.refuse h.root dest.names.dropLast.reverse) :
        DiskM Unit)
      (fun _ => Held h.root (Made h.root dest.names.dropLast fs₀))
      fun _ => Held h.root (Sound h.root) := by
  have hmake : Hoare.Triple (Held h.root (· = fs₀))
      (createDirAll h.refuse h.root dest.names.dropLast.reverse)
      (fun _ => Held h.root (Made h.root dest.names.dropLast.reverse.reverse fs₀))
      fun _ => Held h.root (Sound h.root) := createDirAll_spec hsound hin
  rw [List.reverse_reverse] at hmake
  exact hmake.mapError fun _ _ hw => hw

/-- What an apply leaves behind, from a given file system. -/
def Inside {α : Type} (h : Host) (fs₀ : Fs Name File) (m : DiskM α) : Prop :=
  Hoare.Triple (Held h.root (· = fs₀)) m (fun _ => Held h.root (Sound h.root))
    fun _ => Held h.root (Sound h.root)

theorem Inside.of_throw {α : Type} {fs₀ : Fs Name File} (hsound : Sound h.root fs₀) (e : ApplyError) :
    Inside h fs₀ (throw e : DiskM α) :=
  fun _ hw => ⟨hw.1 ▸ hsound, hw.2⟩

/-- The check of a destination touches nothing. -/
theorem held_safeDest {rel : Path} {fs₀ : Fs Name File} (hsound : Sound h.root fs₀) :
    Hoare.Triple (Held h.root (· = fs₀)) (MonadExcept.ofExcept (safeDest rel) : DiskM _)
      (fun dest w => safeDest rel = .ok dest ∧ Held h.root (· = fs₀) w)
      fun _ => Held h.root (Sound h.root) :=
  Hoare.Triple.ofExcept.conseq (fun _ hw => hw) (fun _ _ hw => hw) fun _ _ hw =>
    ⟨hw.1 ▸ hsound, hw.2⟩

/-- Publishing, when staging keeps the directory open. -/
theorem publish_inside {rel : Path} {stageSeq : ℕ} {follow : Prop} {fs₀ : Fs Name File}
    (hsound : Sound h.root fs₀) (hin : PublishInside h fs₀ stageSeq follow rel)
    {stage : List Name → DiskM Unit}
    (hstage : ∀ dirs tmp l, Hoare.Triple (Held h.root fun fs => Opened h.root dirs l fs ∧
        (follow → FollowsInside h.root fs (dirs ++ [tmp]))) (stage (dirs ++ [tmp]))
      (fun _ => Held h.root (Opened h.root dirs l)) fun _ => Held h.root (Opened h.root dirs l)) :
    Hoare.Triple (Held h.root (· = fs₀)) (h.publish rel stageSeq stage)
      (fun _ => Held h.root (Sound h.root)) fun _ => Held h.root (Sound h.root) := by
  refine (held_safeDest hsound).bind fun dest => Hoare.Triple.of_pre fun hdest => ?_
  obtain ⟨hdeep, htmp⟩ := hin dest hdest
  refine (createDirAll_inside hsound hdeep).bind fun _ => ?_
  rintro w ⟨⟨-, l, hopened, hfresh⟩, htouched⟩
  -- the temporary name is as it was, or in a new directory
  have hfollow : follow → FollowsInside h.root w.fs (tmpNames h.pid stageSeq dest) := by
    intro hf loc hloc
    obtain heq | hempty := hfresh
    · exact htmp hf loc (heq ▸ hloc)
    · obtain ⟨l', hl', -, hlast⟩ := exists_of_resolve_concat hopened.wf hopened.dir hloc
      cases Except.ok.inj (hopened.resolves.symm.trans hl')
      rw [hlast fun t ht => by rw [hempty] at ht; cases ht]
      exact below_concat hopened.inside _
  have hnames := safeDest_names hdest
  have hrename : Hoare.Triple (Held h.root (Opened h.root dest.names.dropLast l))
      (h.call "rename" (rename h.root { names := tmpNames h.pid stageSeq dest } dest))
      (fun _ => Held h.root (Sound h.root))
      fun _ => Held h.root (Opened h.root dest.names.dropLast l) := by
    refine Hoare.Triple.mapError (E := fun _ => Held h.root (Opened h.root dest.names.dropLast l))
      ?_ fun _ _ hw => hw
    refine held_call (fun _ _ ho => ho) (fun _ _ ho _ => ho) fun fs u changes ho hok => ?_
    obtain ⟨hbelow, hs, -⟩ := rename_changes ho ho rfl hnames hok
    exact ⟨hs, hbelow⟩
  have hclean : Hoare.Triple (Held h.root (Opened h.root dest.names.dropLast l))
      (h.call "unlink" (unlink h.root { names := tmpNames h.pid stageSeq dest }))
      (fun _ => Held h.root (Sound h.root)) fun _ => Held h.root (Sound h.root) :=
    unlink_spec.mapError fun _ _ hw => hw
  refine (Hoare.Triple.onError ((hstage _ _ l).bind fun _ => hrename) fun _ => hclean) w
    ⟨⟨hopened, hfollow⟩, htouched⟩

variable {fs₀ : Fs Name File}

theorem applySpecial_inside {rel : Path} {m : Meta} {stageSeq : ℕ} (hsound : Sound h.root fs₀)
    (hin : PublishInside h fs₀ stageSeq True rel) :
    Inside h fs₀ (h.applySpecial rel m stageSeq) := by
  refine publish_inside hsound hin fun dirs tmp l => ?_
  have hspecial : Hoare.Keeps (Held h.root (Staging h.root dirs tmp l))
      (h.createSpecial (dirs ++ [tmp]) m) := by
    unfold Host.createSpecial
    split_ifs
    · exact .throw
    · refine Hoare.Keeps.bind (Hoare.Keeps.attempt ?_) fun r => ?_
      · refine held_call_of_keeps fun fs u changes hs hok => ?_
        obtain ⟨loc, hloc, hnone, rfl⟩ := makeNode_eq_ok hok
        obtain rfl := Opened.eq_concat hs.toOpened hloc
        have hbelow := below_concat hs.inside tmp
        refine ⟨hs.set (hnone ▸ plain_none) (plain_other _) hbelow fun _ =>
          Opened.placed hs.toOpened, fun c hc => ?_⟩
        obtain rfl := List.mem_singleton.1 hc
        exact hbelow
      · split
        · exact .pure
        · exact .pure
        · exact .throw
  exact (hspecial.bind fun _ => keeps_applyMeta_staging).conseq
    (fun w hw => ⟨⟨hw.1.1, hw.1.2 trivial⟩, hw.2⟩)
    (fun _ w hw => ⟨hw.1.toOpened, hw.2⟩) fun _ w hw => ⟨hw.1.toOpened, hw.2⟩

variable [Blake3]

theorem keeps_verifyOnDisk {I : Fs Name File → Prop} {p : Arg Name} {hash : Hash} {rel : Path} :
    Hoare.Keeps (Held h.root I) (h.verifyOnDisk p hash rel) := by
  refine Hoare.Keeps.bind (Hoare.Keeps.mapError ?_) fun file => ?_
  · refine held_call_of_keeps fun fs d changes hI hok => ?_
    obtain ⟨loc, -, -, rfl⟩ := readFile_eq_ok hok
    exact ⟨hI, fun c hc => (by cases hc)⟩
  · split_ifs
    · exact .throw
    · exact .pure

theorem keeps_stageFile {rel : Path} {hash : Hash} {data : Option (List Byte)}
    {metadata : Option Meta} :
    Hoare.Keeps (Held h.root (Staging h.root dirs tmp l))
      (h.stageFile rel hash data metadata (dirs ++ [tmp])) := by
  -- the file that is created is where the temporary name leads
  have hcreate : Hoare.Triple (Held h.root (Staging h.root dirs tmp l))
      (h.call "create" (createFile h.root (dirs ++ [tmp]) Host.truncate))
      (fun fd w => Below h.root fd ∧ Held h.root (Staging h.root dirs tmp l) w)
      fun _ => Held h.root (Staging h.root dirs tmp l) := by
    refine Hoare.Triple.mapError (E := fun _ => Held h.root (Staging h.root dirs tmp l)) ?_
      fun _ _ hs => hs
    refine (held_call (B := fun fd fs => Below h.root fd ∧ Staging h.root dirs tmp l fs)
      (fun _ _ hs => hs) (fun _ _ hs _ => hs) fun fs fd changes hs hok => ?_).post
      fun fd w hw => ⟨hw.1.1, hw.1.2, hw.2⟩
    obtain ⟨hfd, hplain, d, rfl⟩ := createFile_eq_ok hok
    have hbelow := hs.follows fd hfd
    refine ⟨⟨hbelow, hs.set hplain (plain_other d) hbelow fun _ =>
      resolve_parent hs.wf hs.dir hfd⟩, fun c hc => ?_⟩
    obtain rfl := List.mem_singleton.1 hc
    exact hbelow
  refine hcreate.bind fun fd => Hoare.Triple.of_pre fun hfd => ?_
  cases data with
  | none => exact Hoare.Keeps.throw
  | some bytes =>
    have hrest : Hoare.Keeps (Held h.root (Staging h.root dirs tmp l)) (do
        h.sync "fsync"
        h.call "chmod" (changeFd fd id)
        h.verifyOnDisk { names := dirs ++ [tmp] } hash rel
        h.applyMetaOpt { names := dirs ++ [tmp] } metadata) := by
      refine keeps_sync.bind fun _ => (keeps_changeFd hfd).bind fun _ =>
        keeps_verifyOnDisk.bind fun _ => ?_
      cases metadata with
      | none => exact .pure
      | some m => exact keeps_applyMeta_staging
    refine (keeps_changeFd hfd).bind fun _ => ?_
    split_ifs
    · exact .bind .throw fun _ => hrest
    · exact hrest

theorem publish_stageFile_inside {rel : Path} {hash : Hash} {data : Option (List Byte)}
    {metadata : Option Meta} {stageSeq : ℕ} (hsound : Sound h.root fs₀)
    (hin : PublishInside h fs₀ stageSeq True rel) :
    Inside h fs₀ (h.publish rel stageSeq (h.stageFile rel hash data metadata)) := by
  refine publish_inside hsound hin fun dirs tmp l => ?_
  refine keeps_stageFile.conseq (fun w hw => ⟨⟨hw.1.1, hw.1.2 trivial⟩, hw.2⟩)
    (fun _ w hw => ⟨hw.1.toOpened, hw.2⟩) fun _ w hw => ⟨hw.1.toOpened, hw.2⟩

theorem applyWrite_inside {rel : Path} {hash : Hash} {data : List Byte} {metadata : Option Meta}
    {stageSeq : ℕ} (hsound : Sound h.root fs₀) (hin : PublishInside h fs₀ stageSeq True rel) :
    Inside h fs₀ (h.applyWrite rel hash data metadata stageSeq) := by
  unfold Host.applyWrite
  split_ifs
  · exact Inside.of_throw hsound _
  · exact publish_stageFile_inside hsound hin

theorem applyAssembled_inside {rel : Path} {hash : Hash} {manifest : Manifest}
    {metadata : Option Meta} {stageSeq : ℕ} (hsound : Sound h.root fs₀)
    (hin : PublishInside h fs₀ stageSeq True rel) :
    Inside h fs₀ (h.applyAssembled rel hash manifest metadata stageSeq) := by
  unfold Host.applyAssembled
  split_ifs
  · exact Inside.of_throw hsound _
  · exact publish_stageFile_inside hsound hin

/-- A symlink is staged as one, and its metadata does not follow it. -/
theorem applySymlink_inside {rel : Path} {hash : Hash} {m : Meta} {stageSeq : ℕ} {follow : Prop}
    (hkind : m.kind = .symlink) (hsound : Sound h.root fs₀)
    (hin : PublishInside h fs₀ stageSeq follow rel) :
    Inside h fs₀ (h.applySymlink rel hash m stageSeq) := by
  unfold Host.applySymlink
  split
  · exact Inside.of_throw hsound _
  · rename_i target htarget
    split_ifs
    · exact Inside.of_throw hsound _
    · refine publish_inside hsound hin fun dirs tmp l => ?_
      have hlink : Hoare.Keeps (Held h.root (Opened h.root dirs l))
          (h.call "symlink" (makeLink h.root target (dirs ++ [tmp]))) := by
        refine Hoare.Keeps.mapError (held_call_of_keeps fun fs u changes ho hok => ?_)
        unfold makeLink at hok
        split_ifs at hok
        · obtain ⟨loc, hloc, hnone, rfl⟩ := makeNode_eq_ok hok
          obtain rfl := Opened.eq_concat ho hloc
          have hbelow := below_concat ho.inside tmp
          refine ⟨Opened.set ho (hnone ▸ plain_none) hbelow fun _ => Opened.placed ho, fun c hc => ?_⟩
          obtain rfl := List.mem_singleton.1 hc
          exact hbelow
      have hmeta : Hoare.Keeps (Held h.root (Opened h.root dirs l))
          (h.applyMeta { names := dirs ++ [tmp] } m) :=
        keeps_applyMeta (fun _ _ ho hloc => Opened.below_of_resolve ho hloc)
          fun hne => absurd hkind hne
      exact Hoare.Triple.pre (Hoare.Keeps.bind hlink fun _ => hmeta) fun w hw => ⟨hw.1.1, hw.2⟩

theorem applyVersion_inside {rel : Path} {hash : Option Hash} {manifest : Option Manifest}
    {metadata : Option Meta} {stageSeq : ℕ} (hsound : Sound h.root fs₀)
    (hin : PublishInside h fs₀ stageSeq (metadata.map (·.kind) ≠ some .symlink) rel) :
    Inside h fs₀ (h.applyVersion rel hash manifest metadata stageSeq) := by
  have hfile : metadata.map (·.kind) ≠ some .symlink → PublishInside h fs₀ stageSeq True rel :=
    fun hk dest hdest => ⟨(hin dest hdest).1, fun _ => (hin dest hdest).2 hk⟩
  unfold Host.applyVersion
  split
  · rename_i m
    split
    · rename_i hkind
      split
      · exact applySymlink_inside hkind hsound hin
      · exact Inside.of_throw hsound _
    · rename_i hkind
      exact applySpecial_inside hsound (hfile (by simp [hkind]))
    · rename_i hkind
      exact applySpecial_inside hsound (hfile (by simp [hkind]))
    · rename_i hkind
      exact applySpecial_inside hsound (hfile (by simp [hkind]))
    · rename_i hkind
      split
      · exact applyAssembled_inside hsound (hfile (by simp [hkind]))
      · exact Inside.of_throw hsound _
  · split
    · exact applyAssembled_inside hsound (hfile (by simp))
    · exact Inside.of_throw hsound _

end Publish

/-! ### Changes in place -/

section InPlace

variable {h : Host} {fs₀ : Fs Name File}

/-- What a path resolves to, without the last link, is in its directory. -/
theorem ParentInside.below {dest : Arg Name} (hsound : Sound h.root fs₀)
    (hin : ParentInside h.root fs₀ dest) {names : List Name} {n : Name}
    (hnames : dest.names = names ++ [n]) {loc : Loc Name}
    (hloc : resolve fs₀ false h.root dest.names = .ok loc) : Below h.root loc := by
  rw [hnames] at hloc
  obtain ⟨l, hl, hdir, hlast⟩ := exists_of_resolve_concat hsound.wf hsound.dir hloc
  rw [hlast fun _ _ => rfl]
  refine below_concat (hin l (dirAt_eq_some.2 ⟨?_, hdir⟩)) n
  rw [hnames, List.dropLast_concat]
  exact hl

theorem safeDest_inside {α : Type} {rel : Path} {f : Arg Name → DiskM α} (hsound : Sound h.root fs₀)
    (hf : ∀ dest, safeDest rel = .ok dest → Inside h fs₀ (f dest)) :
    Inside h fs₀ (MonadExcept.ofExcept (safeDest rel) >>= f) :=
  (held_safeDest hsound).bind fun dest => Hoare.Triple.of_pre (hf dest)

theorem applyMetaOnly_inside {rel : Path} {m : Meta} (hsound : Sound h.root fs₀)
    (hin : Leads h 0 fs₀ (.metaOnly rel m)) : Inside h fs₀ (h.applyMetaOnly rel m) := by
  refine safeDest_inside hsound fun dest hdest => ?_
  obtain ⟨hparent, hfollow⟩ := hin dest hdest
  have hkeeps : Hoare.Keeps (Held h.root (· = fs₀)) (h.applyMeta dest m) := by
    refine keeps_applyMeta (fun fs loc hfs hloc => ?_) fun hkind fs loc hfs hloc => ?_
    · subst hfs
      cases hslash : dest.slash with
      | false =>
        rw [hslash] at hloc
        exact hparent.below hsound (safeDest_names hdest) hloc
      | true =>
        rw [hslash] at hloc
        exact hfollow (.inr hslash) loc hloc
    · subst hfs
      exact hfollow (.inl hkind) loc hloc
  exact hkeeps.conseq (fun _ hw => hw) (fun _ w hw => ⟨hw.1 ▸ hsound, hw.2⟩)
    fun _ w hw => ⟨hw.1 ▸ hsound, hw.2⟩

theorem applyDelete_inside {rel : Path} (hsound : Sound h.root fs₀)
    (hin : Leads h 0 fs₀ (.delete rel)) : Inside h fs₀ (h.applyDelete rel) := by
  refine safeDest_inside hsound fun dest hdest => ?_
  have hunlink : Hoare.Triple (Held h.root (· = fs₀)) (Posix.call h.refuse (unlink h.root dest))
      (fun _ => Held h.root (Sound h.root)) fun _ => Held h.root (Sound h.root) := by
    refine held_call (fun _ _ hfs => hfs ▸ hsound) (fun _ _ hfs _ => hfs ▸ hsound)
      fun fs u changes hfs hok => ?_
    subst hfs
    obtain ⟨loc, hloc, -, hdir, rfl⟩ := unlink_eq_ok hok
    have hbelow := (hin dest hdest).below hsound (safeDest_names hdest) hloc
    refine ⟨hsound.set hbelow (fun hnone => by cases hnone) fun hd => absurd hd hdir, fun c hc => ?_⟩
    obtain rfl := List.mem_singleton.1 hc
    exact hbelow
  refine hunlink.attempt.bind fun r => ?_
  cases r with
  | ok _ => exact fun w hw => hw
  | error e => cases e <;> exact fun w hw => hw

/-- A source that was read is a file in a directory inside. -/
theorem exists_source {src : Arg Name} {dirs : List Name} {n : Name} {fs : Fs Name File} {d : File}
    {changes : List (Change Name File)} (hsound : Sound h.root fs)
    (hnames : src.names = dirs ++ [n]) (hparent : ParentInside h.root fs src)
    (hnolink : ∀ l t, resolve fs false h.root src.names = .ok l → fs l ≠ some (.link t))
    (hok : readFile h.root src fs = .ok (d, changes)) :
    ∃ a, Opened h.root dirs a fs ∧ fs (a ++ [n]) = some (.other d) := by
  obtain ⟨loc, hloc, hfile, -⟩ := readFile_eq_ok hok
  rw [ParentInside, hnames, List.dropLast_concat] at hparent
  rw [hnames] at hloc hnolink
  obtain ⟨a, ha, hdir, hlast⟩ := exists_of_resolve_concat hsound.wf hsound.dir hloc
  have hopened : Opened h.root dirs a fs :=
    ⟨hsound, ha, hdir, hparent a (dirAt_eq_some.2 ⟨ha, hdir⟩)⟩
  obtain rfl := hlast fun t ht => absurd ht (hnolink _ t (Opened.resolve_concat hopened))
  exact ⟨a, hopened, hfile⟩

/-- After the move the destination is a file, so following it leads nowhere else. -/
theorem below_of_moved {src dest : Arg Name} {srcDirs destDirs : List Name} {n m : Name}
    {a b : Loc Name} {d : File} {fs : Fs Name File} {changes : List (Change Name File)} {u : Unit}
    (hsrc : Opened h.root srcDirs a fs) (hdest : Opened h.root destDirs b fs)
    (hfile : fs (a ++ [n]) = some (.other d)) (hn : src.names = srcDirs ++ [n])
    (hm : dest.names = destDirs ++ [m]) (hok : rename h.root src dest fs = .ok (u, changes)) :
    (Sound h.root (changes.foldl Posix.set fs) ∧ ∀ follow loc,
      resolve (changes.foldl Posix.set fs) follow h.root dest.names = .ok loc → Below h.root loc) ∧
      ∀ c ∈ changes, Below h.root c.1 := by
  obtain ⟨hbelow, hsound, node, hnode, hmoved, hother⟩ := rename_changes hsrc hdest hn hm hok
  rw [hfile] at hnode
  cases hnode
  refine ⟨⟨hsound, fun follow loc hloc => ?_⟩, hbelow⟩
  rw [hm] at hloc
  obtain ⟨b', hb', hdir', hlast⟩ := exists_of_resolve_concat hsound.wf hsound.dir hloc
  -- the move takes no directory and no link into the way
  have htree : ∀ l node, Node.IsTree node → changes.foldl Posix.set fs l = some node →
      fs l = some node := by
    intro l node htree hl
    by_cases hlm : l = b ++ [m]
    · subst hlm
      rw [hmoved] at hl
      cases hl
      exact absurd htree id
    · obtain hnone | hsame := hother l hlm
      · rw [hnone] at hl
        cases hl
      · rwa [hsame] at hl
  have hb : resolve fs true h.root destDirs = .ok b' :=
    resolve_mono htree (fun t ht => by rw [htree b' .dir trivial hdir'] at ht; cases ht) hb'
  cases Except.ok.inj (hdest.resolves.symm.trans hb)
  rw [hlast fun t ht => by rw [hmoved] at ht; cases ht]
  exact below_concat hdest.inside m

variable [Blake3]

theorem applyRename_inside {oldRel newRel : Path} {hash : Hash} {metadata : Option Meta}
    (hsound : Sound h.root fs₀) (hin : Leads h 0 fs₀ (.rename oldRel newRel hash metadata)) :
    Inside h fs₀ (h.applyRename oldRel newRel hash metadata) := by
  refine safeDest_inside hsound fun src hsrc => safeDest_inside hsound fun dest hdest => ?_
  obtain ⟨hparent, hdeep, hnolink⟩ := hin src dest hsrc hdest
  have hsrcNames := safeDest_names hsrc
  have hdestNames := safeDest_names hdest
  generalize src.names.dropLast = srcDirs, src.names.getLastD [] = n at hsrcNames
  -- reading changes nothing, and shows where the source is
  let Source : Prop := ∃ a d, Opened h.root srcDirs a fs₀ ∧ fs₀ (a ++ [n]) = some (.other d)
  have hread : Hoare.Triple (Held h.root (· = fs₀)) (h.call "reopen" (readFile h.root src))
      (fun _ w => Source ∧ Held h.root (· = fs₀) w) fun _ => Held h.root (· = fs₀) := by
    refine Hoare.Triple.mapError (E := fun _ => Held h.root (· = fs₀)) ?_ fun _ _ hw => hw
    refine (held_call (B := fun _ fs => Source ∧ fs = fs₀) (fun _ _ hfs => hfs)
      (fun _ _ hfs _ => hfs) fun fs d changes hfs hok => ?_).post fun _ w hw =>
        ⟨hw.1.1, hw.1.2, hw.2⟩
    subst hfs
    obtain ⟨a, hopened, hfile⟩ := exists_source hsound hsrcNames hparent hnolink hok
    obtain ⟨-, -, -, rfl⟩ := readFile_eq_ok hok
    exact ⟨⟨⟨a, d, hopened, hfile⟩, rfl⟩, fun c hc => (by cases hc)⟩
  have hverify : Hoare.Triple (Held h.root (· = fs₀)) (h.verifyOnDisk src hash oldRel)
      (fun _ w => Source ∧ Held h.root (· = fs₀) w) fun _ => Held h.root (· = fs₀) := by
    refine hread.bind fun file => ?_
    split_ifs
    · exact fun w hw => hw.2
    · exact fun w hw => hw
  refine hverify.attempt.bind fun r => ?_
  cases r with
  | error e =>
    cases e with
    | io ctx e => cases e <;> exact fun w hw => ⟨hw.1 ▸ hsound, hw.2⟩
    | hashMismatch rel => exact fun w hw => ⟨hw.1 ▸ hsound, hw.2⟩
    | unsafePath rel => exact fun w hw => ⟨hw.1 ▸ hsound, hw.2⟩
    | cas => exact fun w hw => ⟨hw.1 ▸ hsound, hw.2⟩
  | ok _ =>
    refine Hoare.Triple.of_pre fun ⟨a, d, hopened, hfile⟩ => ?_
    refine (createDirAll_inside hsound hdeep).bind fun _ => ?_
    rintro w ⟨⟨hgrown, b, hdestOpened, -⟩, htouched⟩
    have hsrcOpened : Opened h.root srcDirs a w.fs := by
      have hdir := hgrown a .dir hopened.isDir
      refine ⟨hdestOpened.toSound, resolve_mono (fun l node _ hl => hgrown l node hl) (fun t ht => ?_)
        hopened.resolves, hdir, hopened.inside⟩
      rw [hdir] at ht
      cases ht
    let Done : Fs Name File → Prop := fun fs => Sound h.root fs ∧ ∀ follow loc,
      resolve fs follow h.root dest.names = .ok loc → Below h.root loc
    have hrename : Hoare.Triple (Held h.root (· = w.fs)) (h.call "rename" (rename h.root src dest))
        (fun _ => Held h.root Done) fun _ => Held h.root (Sound h.root) := by
      refine Hoare.Triple.mapError (E := fun _ => Held h.root (Sound h.root)) ?_ fun _ _ hw => hw
      refine held_call (fun _ _ hfs => hfs ▸ hdestOpened.toSound)
        (fun _ _ hfs _ => hfs ▸ hdestOpened.toSound) fun fs u changes hfs hok => ?_
      subst hfs
      exact below_of_moved hsrcOpened hdestOpened (hgrown _ _ hfile) hsrcNames hdestNames hok
    have hchmod : Hoare.Keeps (Held h.root Done) (h.call "chmod" (changeAttr true h.root dest)) :=
      (keeps_changeAttr fun fs loc hd hloc => hd.2 _ loc hloc).mapError
    have hmeta : Hoare.Keeps (Held h.root Done) (h.applyMetaOpt dest metadata) :=
      keeps_applyMetaOpt (fun fs loc hd hloc => hd.2 _ loc hloc) fun fs loc hd hloc => hd.2 _ loc hloc
    have hrest : Hoare.Keeps (Held h.root Done) (do
        h.call "chmod" (changeAttr true h.root dest)
        h.applyMetaOpt dest metadata
        pure true) := hchmod.bind fun _ => hmeta.bind fun _ => .pure
    exact (hrename.bind fun _ => hrest.conseq (fun _ hw => hw) (fun _ _ hw => ⟨hw.1.1, hw.2⟩)
      fun _ _ hw => ⟨hw.1.1, hw.2⟩) w ⟨rfl, htouched⟩

end InPlace

/-! ### Runs -/

/-- The file system after an apply, whether it failed or not. -/
def Host.step [Blake3] (h : Host) (w : World Name File) (ev : ℕ × RemoteChange) : World Name File :=
  match h.apply ev.1 ev.2 w with
  | .ok _ w' => w'
  | .error _ w' => w'

/-- Every sequence of applies. -/
def Host.applies [Blake3] (h : Host) : Lts (World Name File) (ℕ × RemoteChange) :=
  .ofFun (fun _ _ => True) h.step

section Runs

variable [Blake3] {h : Host}

theorem apply_inside {fs₀ : Fs Name File} (hsound : Sound h.root fs₀) {stageSeq : ℕ}
    {change : RemoteChange} (hin : Leads h stageSeq fs₀ change) :
    Inside h fs₀ (h.apply stageSeq change) := by
  cases change with
  | version rel hash manifest metadata => exact applyVersion_inside hsound hin
  | write rel hash data metadata => exact applyWrite_inside hsound hin
  | metaOnly rel m => exact applyMetaOnly_inside hsound hin
  | rename oldRel newRel hash metadata =>
    exact Hoare.Triple.bind (applyRename_inside hsound hin) fun _ _ hw => hw
  | delete rel => exact applyDelete_inside hsound hin

/-- **Containment under the share root**, as long as no link leads outside: in every run of applies,
each of which finds that the directory it goes to is in the share and what it follows stays there,
everything that is created, replaced, renamed, changed or removed is below the share root. -/
theorem applies_contained {fs₀ : Fs Name File} (hsound : Sound h.root fs₀) {w : World Name File}
    (hrun : (h.applies.restrict fun w ev => Leads h ev.1 w.fs ev.2).Reach { fs := fs₀ } w) :
    ∀ l ∈ w.touched, Below h.root l := by
  have hinv : Held h.root (Sound h.root) w := by
    refine hrun.invariant ⟨hsound, fun l hl => (by cases hl)⟩ fun w ev w' _ hw hstep => ?_
    obtain ⟨hin, -, rfl⟩ := hstep
    have htriple := apply_inside hw.1 hin w ⟨rfl, hw.2⟩
    unfold Host.step
    cases hres : h.apply ev.1 ev.2 w with
    | ok a w' => rw [hres] at htriple; exact htriple
    | error e w' => rw [hres] at htriple; exact htriple
  exact hinv.2

end Runs

section Example

attribute [local instance] Blake3.polynomial

instance (root l : Loc Name) : Decidable (Below root l) :=
  inferInstanceAs (Decidable (root <+: l ∧ l ≠ root))

/-- The directories `/s`, the share, and `/e`. -/
def twoDirs : Fs Name File := fun l => if l = [] ∨ l = [[115]] ∨ l = [[101]] then some .dir else none

theorem sound_twoDirs : Sound [[115]] twoDirs := by
  refine ⟨⟨rfl, fun l n hn => ?_⟩, rfl⟩
  have hl : l = [] := by
    by_contra hne
    have hnone : twoDirs (l ++ [n]) = none := by
      refine if_neg ?_
      rintro (h | h | h)
      · simp at h
      · exact hne (List.append_eq_singleton_iff.1 h |>.elim And.left fun hr => by cases hr.2)
      · exact hne (List.append_eq_singleton_iff.1 h |>.elim And.left fun hr => by cases hr.2)
    rw [hnone] at hn
    cases hn
  subst hl
  rfl

/-- A host that shares `/s`, where nothing is refused and every manifest assembles to one byte. -/
def sharing : Host where
  root := [[115]]
  pid := 1
  policy := .skip
  cas := fun _ => some [7]
  refuse := fun _ => none

/-- A regular file with the one byte. -/
def fileAt (rel : Path) : RemoteChange :=
  .version rel (some (Blake3.hash [7])) (some ⟨Blake3.hash [7], []⟩) none

/-- A symlink to `/e`. -/
def linkAt (rel : Path) : RemoteChange :=
  .version rel (some (Blake3.hash [47, 101])) none (some {
    kind := .symlink, mode := 0, uid := 0, gid := 0, mtimeS := 0, mtimeNs := 0
    symlinkTarget := some [47, 101], rdev := 0, xattrs := [] })

/-- The file system after these changes. -/
def sharingAfter (changes : List (ℕ × RemoteChange)) : World Name File :=
  changes.foldl sharing.step { fs := twoDirs }

theorem applies_contained_file :
    [[115], [97], [102]] ∈ (sharingAfter [(0, fileAt ['a', '/', 'f'])]).touched ∧
      ∀ l ∈ (sharingAfter [(0, fileAt ['a', '/', 'f'])]).touched, Below [[115]] l := by
  refine ⟨by decide +kernel, applies_contained (h := sharing) sound_twoDirs ?_⟩
  rw [Host.applies, Lts.restrict_ofFun]
  refine .of_foldl .init ⟨⟨fun dest hdest => ?_, trivial⟩, trivial⟩
  have hsafe : safeDest ['a', '/', 'f'] = .ok ⟨[[97], [102]], false⟩ := rfl
  cases hsafe.symm.trans hdest
  have hdeep : sharing.root <+: deepest sharing.root twoDirs [[97]] := by decide +kernel
  refine ⟨hdeep, fun _ l hl => ?_⟩
  -- the directory is still to be made
  cases hl

/-- **A version is written outside the share**: the first one puts a link to `/e` at `d`, the second
one is for `d/x`. -/
theorem escapes_through_symlink :
    Sound sharing.root twoDirs ∧
    ∃ w, sharing.applies.Reach { fs := twoDirs } w ∧ [[101], [120]] ∈ w.touched ∧
      ¬ Below sharing.root [[101], [120]] := by
  refine ⟨sound_twoDirs, sharingAfter [(0, linkAt ['d']), (1, fileAt ['d', '/', 'x'])], ?_,
    by decide +kernel, by decide⟩
  exact .of_foldl .init ⟨trivial, trivial, trivial⟩

end Example

end Disk

end Replicore
