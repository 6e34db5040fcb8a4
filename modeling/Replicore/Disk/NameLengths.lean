import Replicore.Conflict.Names
import Replicore.Disk.Containment
import Replicore.Merkle.Tree

/-!
# How long the derived names are

A temporary name adds 17 bytes, the process id and the stage counter to the name of the
destination, and each link of a copy chain adds 31 bytes to the name of the path.  Neither is
compared with the 255 bytes that a directory allows for a name, or that a peer allows for the name
of a child.  A copy is staged too, beside its own name, so the last link of a chain carries both.
All of these fit exactly if the name of the path is short enough (`namesFit_iff`).
-/

namespace Replicore

open Bytes

/-- The longest name that a directory, or the listing of one, can have. -/
def nameMax : ℕ := 255

/-- The number of bytes in the last component of a path. -/
def nameLen (path : Path) : ℕ := (utf8 (splitDir path).2).length

theorem splitParent_snd (path : Path) : (splitParent path).2 = (splitDir path).2 := by
  unfold splitParent Hier.split splitDir
  cases Text.rsplitOnce '/' path with
  | none => rfl
  | some p => rfl

/-! ### Copy names -/

theorem length_utf8_copyMarker : (utf8 copyMarker).length = 15 := by decide

theorem length_utf8_markName (name hex : List Char) :
    (utf8 (markName name hex)).length =
      (utf8 name).length + (utf8 copyMarker).length + (utf8 hex).length := by
  unfold markName
  split
  · rename_i x stem ext hsplit
    rw [(Text.rsplitOnce_eq_some.1 hsplit).1]
    simp only [utf8_append, List.length_append]
    omega
  · simp only [utf8_append, List.length_append]

section

variable [Blake3]

theorem length_utf8_copyHex (loserHash loserMeta : Hash) :
    (utf8 (copyHex loserHash loserMeta)).length = 16 := by
  rw [copyHex, length_utf8_hexEncode, List.length_take, Hash.bytes, length_beBytes]
  rfl

/-- Each link adds 31 bytes. -/
theorem nameLen_copyPathFor (path : Path) (loserHash loserMeta : Hash) :
    nameLen (copyPathFor path loserHash loserMeta) = nameLen path + 31 := by
  rw [nameLen, splitDir_copyPathFor, length_utf8_markName, length_utf8_copyMarker,
    length_utf8_copyHex, nameLen]

/-- The path at the end of a chain of conflict copies. -/
def copyAlong (path : Path) (links : List (Hash × Hash)) : Path :=
  links.foldl (fun p link => copyPathFor p link.1 link.2) path

theorem nameLen_copyAlong (path : Path) (links : List (Hash × Hash)) :
    nameLen (copyAlong path links) = nameLen path + 31 * links.length := by
  induction links generalizing path with
  | nil => rfl
  | cons link links ih =>
    have hnext := ih (copyPathFor path link.1 link.2)
    rw [nameLen_copyPathFor] at hnext
    rw [copyAlong, List.foldl_cons, ← copyAlong, hnext, List.length_cons]
    omega

variable {lookup : Path → Option Version} {path cp : Path} {c w : Version} {losers : List Version}
  {rows rows' : List PlannedRow}

/-- The names that placing a copy adds are on a chain of links from its first name. -/
theorem exists_links_of_placeCopy {depth : ℕ} (h : placeCopy lookup depth rows cp c = some rows') :
    ∀ r ∈ rows', r ∈ rows ∨ ∃ links, links.length < depth ∧ r.path = copyAlong cp links := by
  induction depth generalizing rows cp c with
  | zero => cases h
  | succ depth ih =>
    obtain ⟨d, hd, hcases⟩ := placeCopy_cases h
    obtain rfl := Nat.succ.inj hd
    -- the rows planned before, and the row at this name
    have hhere : ∀ row : PlannedRow, row.path = cp → ∀ r ∈ rows ++ [row],
        r ∈ rows ∨ ∃ links, links.length < depth + 1 ∧ r.path = copyAlong cp links := by
      intro row hrow r hr
      obtain hr | hr := List.mem_append.1 hr
      · exact .inl hr
      · rw [List.mem_singleton.1 hr, hrow]
        exact .inr ⟨[], Nat.succ_pos depth, rfl⟩
    obtain ⟨-, rfl⟩ | ⟨-, -, rfl⟩ | ⟨-, rfl⟩ | ⟨-, e, win, lose, -, -, -, hlast⟩ := hcases
    · exact fun r hr => .inl hr
    · exact hhere _ rfl
    · exact fun r hr => .inl hr
    · obtain ⟨-, rfl⟩ | ⟨lh, -, -, hnext⟩ := hlast
      · exact hhere _ rfl
      · intro r hr
        obtain hr | ⟨links, hlen, hpath⟩ := ih hnext r hr
        · exact hhere _ rfl r hr
        · exact .inr ⟨(lh, Meta.namingHash lose.metadata) :: links, Nat.succ_lt_succ hlen, hpath⟩

theorem exists_links_of_planCopies (h : planCopies lookup path w rows losers = some rows') :
    ∀ r ∈ rows', r ∈ rows ∨
      ∃ links, links ≠ [] ∧ links.length ≤ maxCopyDepth ∧ r.path = copyAlong path links := by
  induction losers generalizing rows with
  | nil =>
    cases h
    exact fun r hr => .inl hr
  | cons v losers ih =>
    rw [planCopies] at h
    split at h
    · exact ih h
    · rename_i hash _
      split_ifs at h with hkey
      · exact ih h
      · split at h
        · cases h
        · rename_i rows₁ hplace
          intro r hr
          obtain hr | hfar := ih h r hr
          · obtain hr | ⟨links, hlen, hpath⟩ := exists_links_of_placeCopy hplace r hr
            · exact .inl hr
            · exact .inr ⟨(hash, Meta.namingHash v.metadata) :: links, List.cons_ne_nil _ _, hlen,
                hpath⟩
          · exact .inr hfar

/-- A plan has the conflicted path and paths at most `MAX_COPY_DEPTH` links from it. -/
theorem exists_links_of_planCandidates {cs : List Version}
    (h : planCandidates path cs lookup = some rows) :
    ∀ r ∈ rows, r.path = path ∨
      ∃ links, links ≠ [] ∧ links.length ≤ maxCopyDepth ∧ r.path = copyAlong path links := by
  unfold planCandidates at h
  split at h
  · cases h
  · intro r hr
    obtain hr | hfar := exists_links_of_planCopies h r hr
    · rw [List.mem_singleton.1 hr]
      exact .inl rfl
    · exact .inr hfar

end

/-! ### Temporary names -/

namespace Disk

/-- The digits of a number in a name. -/
def digits (n : ℕ) : ℕ := (Nat.toDigits 10 n).length

theorem length_tmpName (name : Name) (pid stageSeq : ℕ) :
    (tmpName name pid stageSeq).length = name.length + 17 + digits pid + digits stageSeq := by
  have hsuffix : (utf8 tmpSuffix).length = 14 := by decide
  simp only [tmpName, List.length_append, List.length_cons, hsuffix, length_utf8_toDigits, digits]
  omega

/-- The file name of a destination. -/
def fileName (dest : Posix.Arg Name) : Name := dest.names.getLastD []

/-! ### Where a copy is staged -/

/-- The components of a path are those of its directory, and its name. -/
theorem parts_splitDir (path : Path) : ∃ dirs : List Name, ∀ name : List Char, '/' ∉ name →
    parts (utf8 ((splitDir path).1 ++ name)) = dirs ++ [utf8 name] := by
  have hslash : ∀ name : List Char, '/' ∉ name → (47 : Byte) ∉ utf8 name :=
    fun name h hmem => h (mem_of_byte_mem_utf8 (c := '/') (by decide) hmem)
  unfold splitDir
  cases Text.rsplitOnce '/' path with
  | none =>
    refine ⟨[], fun name h => ?_⟩
    rw [List.nil_append, List.nil_append, parts, List.splitOn_eq_singleton (hslash name h)]
  | some p =>
    refine ⟨parts (utf8 p.1), fun name h => ?_⟩
    have hbytes : utf8 (p.1 ++ ['/'] ++ name) = utf8 p.1 ++ 47 :: utf8 name := by
      rw [List.append_assoc, utf8_append]
      rfl
    rw [hbytes, parts, List.splitOn_append_cons_self, List.splitOn_eq_singleton (hslash name h),
      parts]

section

variable {rel : Path} {dirs : List Name} {name : Name} {dest : Posix.Arg Name}

/-- Whether a path with a name of more than two bytes is accepted is up to its directory. -/
theorem safeDest_isOk_iff (hparts : parts (utf8 rel) = dirs ++ [name]) (hlen : 2 < name.length) :
    (∃ dest, safeDest rel = .ok dest) ↔
      dirs.head? ≠ some [] ∧ dirs.head? ≠ some [46] ∧ [46, 46] ∉ dirs := by
  have hnil : name ≠ [] := by rintro rfl; simp at hlen
  have hdot : name ≠ [46] := by rintro rfl; simp at hlen
  have hdots : name ≠ [46, 46] := by rintro rfl; simp at hlen
  have hrel : rel ≠ [] := by
    rintro rfl
    have hlast := congrArg List.getLast? hparts
    rw [List.getLast?_concat] at hlast
    exact hnil (Option.some.inj hlast).symm
  have hif : ∀ (p : Prop) [Decidable p] (e : ApplyError) (a : Posix.Arg Name),
      (∃ dest, (if p then Except.error e else .ok a) = .ok dest) ↔ ¬ p := by
    intro p _ e a
    split_ifs with hp <;> simp [hp]
  unfold safeDest
  dsimp only
  rw [hparts, hif]
  cases dirs with
  | nil => simp [hrel, hnil, hdot, Ne.symm hdots]
  | cons d dirs => simp [hrel, Ne.symm hdots]

theorem fileName_of_safeDest (hparts : parts (utf8 rel) = dirs ++ [name]) (hlen : 2 < name.length)
    (h : safeDest rel = .ok dest) : fileName dest = name := by
  have hkept : name ≠ [] ∧ name ≠ [46] :=
    ⟨by rintro rfl; simp at hlen, by rintro rfl; simp at hlen⟩
  rw [fileName, (names_of_safeDest h).2.2.2.2, hparts, List.filter_append]
  simp [hkept]

end

section

variable [Blake3]

theorem splitDir_copyAlong (path : Path) (links : List (Hash × Hash)) :
    (splitDir (copyAlong path links)).1 = (splitDir path).1 := by
  induction links generalizing path with
  | nil => rfl
  | cons link links ih =>
    have hdir := congrArg Prod.fst (splitDir_copyPathFor path link.1 link.2)
    exact (ih _).trans hdir

/-- All copies of a path are in its directory, and have names as long as the chain makes them. -/
theorem parts_copyAlong (path : Path) : ∃ dirs : List Name, ∀ links : List (Hash × Hash),
    ∃ name : Name, name.length = nameLen path + 31 * links.length ∧
      parts (utf8 (copyAlong path links)) = dirs ++ [name] := by
  obtain ⟨dirs, hdirs⟩ := parts_splitDir path
  refine ⟨dirs, fun links => ⟨utf8 (splitDir (copyAlong path links)).2, ?_, ?_⟩⟩
  · rw [← nameLen_copyAlong, nameLen]
  · rw [← hdirs _ (slash_notMem_name _), ← splitDir_copyAlong path links, splitDir_append]

/-- Copies of the path are accepted as destinations. -/
def CopiesAccepted (path : Path) : Prop :=
  ∃ loserHash loserMeta dest, safeDest (copyPathFor path loserHash loserMeta) = .ok dest

/-- Either all links of every chain from a path are accepted, or none is. -/
theorem copiesAccepted_iff {path : Path} {links : List (Hash × Hash)} (hne : links ≠ []) :
    (∃ dest, safeDest (copyAlong path links) = .ok dest) ↔ CopiesAccepted path := by
  obtain ⟨dirs, hdirs⟩ := parts_copyAlong path
  have hiff : ∀ links, links ≠ [] → ((∃ dest, safeDest (copyAlong path links) = .ok dest) ↔
      dirs.head? ≠ some [] ∧ dirs.head? ≠ some [46] ∧ [46, 46] ∉ dirs) := by
    intro links hne
    obtain ⟨name, hlen, hparts⟩ := hdirs links
    have hpos := List.length_pos_of_ne_nil hne
    exact safeDest_isOk_iff hparts (by omega)
  rw [hiff links hne]
  constructor
  · intro h
    obtain ⟨dest, hdest⟩ := (hiff [(0, 0)] (List.cons_ne_nil _ _)).2 h
    exact ⟨0, 0, dest, hdest⟩
  · rintro ⟨loserHash, loserMeta, hdest⟩
    exact (hiff [(loserHash, loserMeta)] (List.cons_ne_nil _ _)).1 hdest

theorem length_fileName_copyAlong {path : Path} {links : List (Hash × Hash)} (hne : links ≠ [])
    {dest : Posix.Arg Name} (h : safeDest (copyAlong path links) = .ok dest) :
    (fileName dest).length = nameLen path + 31 * links.length := by
  obtain ⟨dirs, hdirs⟩ := parts_copyAlong path
  obtain ⟨name, hlen, hparts⟩ := hdirs links
  have hpos := List.length_pos_of_ne_nil hne
  rw [fileName_of_safeDest hparts (by omega) h, hlen]

end

/-! ### Both -/

section

variable [Blake3]

/-- The temporary names beside the path and its copies, all copy names, and the rows that a peer
lists are short enough. -/
structure NamesFit (path : Path) (pid stageSeq : ℕ) : Prop where
  staged : ∀ links, links.length ≤ maxCopyDepth →
    ∀ dest, safeDest (copyAlong path links) = .ok dest →
      (tmpName (fileName dest) pid stageSeq).length ≤ nameMax
  copies : ∀ links, links.length ≤ maxCopyDepth → nameLen (copyAlong path links) ≤ nameMax
  listed : ∀ cs lookup rows, planCandidates path cs lookup = some rows → ∀ r ∈ rows, r.path ≠ path →
    (splitParent r.path).2 ≠ [] ∧ (utf8 (splitParent r.path).2).length ≤ nameMax

/-- The derived names fit exactly if the name of the path leaves room for the decorations of a
temporary name, for those of `MAX_COPY_DEPTH` links, and where a copy can be staged, for both. -/
theorem namesFit_iff (path : Path) (pid stageSeq : ℕ) :
    NamesFit path pid stageSeq ↔
      (∀ dest, safeDest path = .ok dest →
        (fileName dest).length + digits pid + digits stageSeq ≤ 238) ∧
      (CopiesAccepted path → nameLen path + digits pid + digits stageSeq ≤ 114) ∧
      nameLen path ≤ 131 := by
  have hmax : nameMax = 255 := rfl
  have hdepth : maxCopyDepth = 4 := rfl
  -- the longest chain
  let longest : List (Hash × Hash) := List.replicate maxCopyDepth (0, 0)
  have hlongest : longest.length = 4 := List.length_replicate
  have hlongest' : longest ≠ [] := List.ne_nil_of_length_pos (by omega)
  constructor
  · intro h
    refine ⟨fun dest hdest => ?_, fun haccepted => ?_, ?_⟩
    · have hlen := h.staged [] (by simp) dest hdest
      rw [length_tmpName] at hlen
      omega
    · obtain ⟨dest, hdest⟩ := (copiesAccepted_iff hlongest').2 haccepted
      have hlen := h.staged longest (by omega) dest hdest
      rw [length_tmpName, length_fileName_copyAlong hlongest' hdest] at hlen
      omega
    · have hlen := h.copies longest (by omega)
      rw [nameLen_copyAlong] at hlen
      omega
  · rintro ⟨hstage, hcopy, hname⟩
    have hcopies : ∀ links : List (Hash × Hash), links.length ≤ maxCopyDepth →
        nameLen (copyAlong path links) ≤ nameMax := by
      intro links hlinks
      rw [nameLen_copyAlong]
      omega
    refine ⟨fun links hlinks dest hdest => ?_, hcopies, fun cs lookup rows hplan r hr hne => ?_⟩
    · rw [length_tmpName]
      obtain rfl | hne := eq_or_ne links []
      · have hlen := hstage dest hdest
        omega
      · have hlen := hcopy ((copiesAccepted_iff hne).1 ⟨dest, hdest⟩)
        rw [length_fileName_copyAlong hne hdest]
        omega
    · obtain heq | ⟨links, hnil, hlinks, hpath⟩ := exists_links_of_planCandidates hplan r hr
      · exact absurd heq hne
      · have hlen := nameLen_copyAlong path links
        have hpos := List.length_pos_of_ne_nil hnil
        rw [hpath, splitParent_snd, ← nameLen]
        refine ⟨fun hempty => ?_, hcopies links hlinks⟩
        rw [nameLen, hempty] at hlen
        have hzero : (utf8 []).length = 0 := rfl
        omega

end

section Example

attribute [local instance] Blake3.polynomial

/-- A file whose name is as long as a directory allows. -/
def longName : Path := List.replicate 255 'a'

/-- It can be neither staged nor copied. -/
theorem long_name_unfit :
    ¬ ∀ path pid stageSeq, (∀ c ∈ parts (utf8 path), 1 ≤ c.length ∧ c.length ≤ 255) →
      NamesFit path pid stageSeq := by
  intro hall
  have hparts : parts (utf8 longName) = [List.replicate 255 97] := by decide +kernel
  have hlen : nameLen longName = 255 := by decide +kernel
  have hfit := hall longName 1 0 fun c hc => by
    rw [hparts, List.mem_singleton] at hc
    rw [hc, List.length_replicate]
    exact ⟨by decide, le_rfl⟩
  have hcopy := hfit.copies [(0, 0)] (by decide)
  rw [nameLen_copyAlong, hlen] at hcopy
  exact absurd hcopy (by decide)

/-- A file name of `n` letters. -/
def letters (n : ℕ) : Path := List.replicate n 'a'

/-- With one digit for the process and for the counter, 112 letters are the most that the staging of
the last copy leaves room for; the copy names alone would allow 131. -/
theorem namesFit_iff_letters : NamesFit (letters 112) 1 0 ∧ ¬ NamesFit (letters 113) 1 0 ∧
    ¬ NamesFit (letters 131) 1 0 := by
  have hdigits : digits 1 = 1 ∧ digits 0 = 1 := by decide
  have hlen : nameLen (letters 112) = 112 ∧ nameLen (letters 113) = 113 ∧
      nameLen (letters 131) = 131 := by decide +kernel
  have hparts : parts (utf8 (letters 112)) = [] ++ [List.replicate 112 97] := by decide +kernel
  have hcopies : (safeDest (copyPathFor (letters 113) 0 0)).isOk = true ∧
      (safeDest (copyPathFor (letters 131) 0 0)).isOk = true := by decide +kernel
  have haccepted : ∀ {path : Path}, (safeDest (copyPathFor path 0 0)).isOk = true →
      CopiesAccepted path := by
    intro path h
    cases hdest : safeDest (copyPathFor path 0 0) with
    | error e => rw [hdest] at h; cases h
    | ok dest => exact ⟨0, 0, dest, hdest⟩
  refine ⟨(namesFit_iff _ _ _).2 ⟨fun dest hdest => ?_, fun _ => by omega, by omega⟩, fun h => ?_,
    fun h => ?_⟩
  · rw [fileName_of_safeDest hparts (by decide) hdest, List.length_replicate]
    omega
  · have hroom := ((namesFit_iff _ _ _).1 h).2.1 (haccepted hcopies.1)
    omega
  · have hroom := ((namesFit_iff _ _ _).1 h).2.1 (haccepted hcopies.2)
    omega

end Example

end Disk

end Replicore
