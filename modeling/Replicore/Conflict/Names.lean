import Replicore.Conflict.Plan

/-!
# What a conflict-copy name says

A conflict-copy name determines the path it was derived from and the digits in it: the directory
is what stands before the last separator, and the last dot of the name is that of the extension, or
that of the marker when there was none.  There was an extension exactly if another dot stands
between the first character and the last dot, so the path and the digits can be read off
(`unmarkPath_copyPathFor`), whatever dots and markers the path has itself.
-/

namespace Replicore

open Bytes

theorem hexDigit_ne {n : ℕ} (h : n < 16) : hexDigit n ≠ '/' ∧ hexDigit n ≠ '.' := by
  have hall : ∀ k : Fin 16, hexDigit k ≠ '/' ∧ hexDigit k ≠ '.' := by decide
  exact hall ⟨n, h⟩

/-- Hexadecimal digits are neither separators nor dots. -/
theorem notMem_hexEncode (bs : List Byte) : '/' ∉ hexEncode bs ∧ '.' ∉ hexEncode bs := by
  induction bs with
  | nil => simp [hexEncode]
  | cons b bs ih =>
    obtain ⟨hs, hd⟩ := hexDigit_ne (n := b.val / 16) (by omega)
    obtain ⟨hs', hd'⟩ := hexDigit_ne (n := b.val % 16) (by omega)
    simp [hexEncode, ih, hs.symm, hd.symm, hs'.symm, hd'.symm]

/-- The marker after its dot. -/
def markerTail : List Char := "sync-conflict-".toList

theorem copyMarker_eq : copyMarker = '.' :: markerTail := by decide

theorem notMem_markerTail : '/' ∉ markerTail ∧ '.' ∉ markerTail := by decide

/-! ### The name -/

/-- A marked name without extension, and one with. -/
theorem markName_cases (name hex : List Char) :
    (∃ stem ext, stem ≠ [] ∧ '.' ∉ ext ∧ name = stem ++ '.' :: ext ∧
      markName name hex = (stem ++ '.' :: (markerTail ++ hex)) ++ '.' :: ext) ∨
    (∀ stem ext, stem ≠ [] → '.' ∉ ext → name ≠ stem ++ '.' :: ext) ∧
      markName name hex = name ++ '.' :: (markerTail ++ hex) := by
  unfold markName
  split
  · rename_i x stem ext hsplit
    obtain ⟨hname, hext⟩ := Text.rsplitOnce_eq_some.1 hsplit
    refine .inl ⟨x :: stem, ext, List.cons_ne_nil _ _, hext, hname, ?_⟩
    rw [copyMarker_eq]
    simp
  · rename_i hsplit
    refine .inr ⟨?_, by rw [copyMarker_eq]; simp⟩
    rintro stem ext hstem hext rfl
    obtain ⟨x, stem, rfl⟩ := List.exists_cons_of_ne_nil hstem
    exact hsplit x stem ext (Text.rsplitOnce_append hext)

theorem dot_notMem_marked {hex : List Char} (hdot : '.' ∉ hex) : '.' ∉ markerTail ++ hex := by
  intro hmem
  rcases List.mem_append.1 hmem with hmem | hmem
  · exact notMem_markerTail.2 hmem
  · exact hdot hmem

/-- The name that was marked, and the digits. -/
def unmarkName (name : List Char) : List Char × List Char :=
  match Text.rsplitOnce '.' name with
  | none => (name, [])
  | some (front, last) =>
    match Text.rsplitOnce '.' front with
    | some (x :: stem, marked) => (x :: stem ++ '.' :: last, marked.drop markerTail.length)
    | _ => (front, last.drop markerTail.length)

theorem unmarkName_markName (name : List Char) {hex : List Char} (hdot : '.' ∉ hex) :
    unmarkName (markName name hex) = (name, hex) := by
  have hmarked := dot_notMem_marked hdot
  rcases markName_cases name hex with ⟨stem, ext, hstem, hext, hname, he⟩ | ⟨hplain, he⟩
  · obtain ⟨x, stem, rfl⟩ := List.exists_cons_of_ne_nil hstem
    rw [he, unmarkName, Text.rsplitOnce_append hext]
    simp only
    rw [Text.rsplitOnce_append hmarked]
    simp only [List.drop_left]
    rw [hname]
  · rw [he, unmarkName, Text.rsplitOnce_append hmarked]
    simp only
    split
    · -- a name without an extension is not split behind its first character
      rename_i x stem ext hsplit
      obtain ⟨hname, hext⟩ := Text.rsplitOnce_eq_some.1 hsplit
      exact absurd hname (hplain (x :: stem) ext (List.cons_ne_nil _ _) hext)
    · rw [List.drop_left]

/-! ### The directory -/

theorem splitDir_append (path : Path) : (splitDir path).1 ++ (splitDir path).2 = path := by
  unfold splitDir
  split
  · rename_i dir name hsplit
    rw [(Text.rsplitOnce_eq_some.1 hsplit).1]
    simp
  · rfl

theorem slash_notMem_name (path : Path) : '/' ∉ (splitDir path).2 := by
  unfold splitDir
  split
  · rename_i dir name hsplit
    exact (Text.rsplitOnce_eq_some.1 hsplit).2
  · rename_i hsplit
    exact Text.rsplitOnce_eq_none.1 hsplit

/-- Another name in the same directory. -/
theorem splitDir_rename (path : Path) {name : Path} (h : '/' ∉ name) :
    splitDir ((splitDir path).1 ++ name) = ((splitDir path).1, name) := by
  have hdir : (splitDir path).1 = [] ∨ ∃ dir, (splitDir path).1 = dir ++ ['/'] := by
    unfold splitDir
    split
    · exact .inr ⟨_, rfl⟩
    · exact .inl rfl
  rcases hdir with hdir | ⟨dir, hdir⟩
  · rw [hdir, List.nil_append, splitDir, Text.rsplitOnce_eq_none.2 h]
  · rw [hdir, List.append_assoc, List.singleton_append, splitDir, Text.rsplitOnce_append h]

theorem slash_notMem_markName {name hex : List Char} (hname : '/' ∉ name) (hhex : '/' ∉ hex) :
    '/' ∉ markName name hex := by
  rcases markName_cases name hex with ⟨stem, ext, -, -, rfl, he⟩ | ⟨-, he⟩ <;> rw [he]
  · simpa [hhex, notMem_markerTail.1] using hname
  · simpa [hhex, notMem_markerTail.1] using hname

variable [Blake3]

theorem splitDir_copyPathFor (path : Path) (loserHash loserMeta : Hash) :
    splitDir (copyPathFor path loserHash loserMeta) =
      ((splitDir path).1, markName (splitDir path).2 (copyHex loserHash loserMeta)) :=
  splitDir_rename path
    (slash_notMem_markName (slash_notMem_name path) (notMem_hexEncode _).1)

/-- The path a conflict copy was derived from, and the digits. -/
def unmarkPath (path : Path) : Path × List Char :=
  ((splitDir path).1 ++ (unmarkName (splitDir path).2).1, (unmarkName (splitDir path).2).2)

/-- **A conflict-copy name can be taken apart.** -/
theorem unmarkPath_copyPathFor (path : Path) (loserHash loserMeta : Hash) :
    unmarkPath (copyPathFor path loserHash loserMeta) = (path, copyHex loserHash loserMeta) := by
  have hname := unmarkName_markName (splitDir path).2
    (notMem_hexEncode ((Blake3.hash (loserHash.bytes ++ loserMeta.bytes)).bytes.take 8)).2
  rw [unmarkPath, splitDir_copyPathFor]
  simp only
  rw [copyHex, hname, splitDir_append]

/-- A conflict-copy name has one origin. -/
theorem copyPathFor_inj {p p' : Path} {h m h' m' : Hash}
    (heq : copyPathFor p h m = copyPathFor p' h' m') : p = p' ∧ copyHex h m = copyHex h' m' := by
  have hparts := congrArg unmarkPath heq
  rwa [unmarkPath_copyPathFor, unmarkPath_copyPathFor, Prod.mk.injEq] at hparts

/-- A conflict-copy name is longer than what it is the name of. -/
theorem length_lt_copyPathFor (path : Path) (loserHash loserMeta : Hash) :
    path.length < (copyPathFor path loserHash loserMeta).length := by
  have hname : (splitDir path).2.length <
      (markName (splitDir path).2 (copyHex loserHash loserMeta)).length := by
    rcases markName_cases (splitDir path).2 (copyHex loserHash loserMeta) with
      ⟨stem, ext, -, -, hname, he⟩ | ⟨-, he⟩
    · rw [he, hname]
      simp only [List.length_append, List.length_cons]
      omega
    · rw [he]
      simp only [List.length_append, List.length_cons]
      omega
  have hlen := congrArg List.length (splitDir_append path)
  rw [List.length_append] at hlen
  rw [copyPathFor, List.length_append]
  omega

/-! ### Copies of different losers -/

/-- The bytes of a digest that a conflict-copy name shows. -/
def copyDigest (loserHash loserMeta : Hash) : List Byte :=
  (Blake3.hash (loserHash.bytes ++ loserMeta.bytes)).bytes.take 8

theorem copyHex_eq_iff {h m h' m' : Hash} :
    copyHex h m = copyHex h' m' ↔ copyDigest h m = copyDigest h' m' :=
  hexEncode_injective.eq_iff

theorem length_copyHex (loserHash loserMeta : Hash) :
    (copyHex loserHash loserMeta).length = 16 := by
  rw [copyHex, length_hexEncode, List.length_take, Hash.bytes, length_beBytes]
  rfl

/-- A conflict copy is as deep as what it is a copy of. -/
theorem count_slash_copyPathFor (path : Path) (loserHash loserMeta : Hash) :
    (copyPathFor path loserHash loserMeta).count '/' = path.count '/' := by
  have hname := slash_notMem_name path
  have hmarked : '/' ∉ markName (splitDir path).2 (copyHex loserHash loserMeta) :=
    slash_notMem_markName hname (notMem_hexEncode _).1
  calc (copyPathFor path loserHash loserMeta).count '/'
      = (splitDir path).1.count '/' + 0 := by
        rw [copyPathFor, List.count_append, List.count_eq_zero_of_not_mem hmarked]
    _ = ((splitDir path).1 ++ (splitDir path).2).count '/' := by
        rw [List.count_append, List.count_eq_zero_of_not_mem hname]
    _ = path.count '/' := by rw [splitDir_append]

/-- **Copy paths are injective.**  The copy of a path is another path in the same directory, with
no further separator, from which the path and the 16 digits can be read off.  So the copies of
different paths have different names, and the copies of different losers of one path have different
names if the digests in them differ. -/
theorem copyPathFor_recoverable (path : Path) (loserHash loserMeta : Hash) :
    (splitDir (copyPathFor path loserHash loserMeta)).1 = (splitDir path).1 ∧
      (copyPathFor path loserHash loserMeta).count '/' = path.count '/' ∧
      copyPathFor path loserHash loserMeta ≠ path ∧
      unmarkPath (copyPathFor path loserHash loserMeta) = (path, copyHex loserHash loserMeta) ∧
      (copyHex loserHash loserMeta).length = 16 ∧
      (∀ path' loserHash' loserMeta', path ≠ path' →
        copyPathFor path loserHash loserMeta ≠ copyPathFor path' loserHash' loserMeta') ∧
      ∀ path' loserHash' loserMeta',
        copyDigest loserHash loserMeta ≠ copyDigest loserHash' loserMeta' →
          copyPathFor path loserHash loserMeta ≠ copyPathFor path' loserHash' loserMeta' := by
  refine ⟨?_, count_slash_copyPathFor path loserHash loserMeta, ?_,
    unmarkPath_copyPathFor path loserHash loserMeta, length_copyHex loserHash loserMeta, ?_, ?_⟩
  · rw [splitDir_copyPathFor]
  · intro heq
    exact (length_lt_copyPathFor path loserHash loserMeta).ne (congrArg List.length heq).symm
  · intro path' loserHash' loserMeta' hne heq
    exact hne (copyPathFor_inj heq).1
  · intro path' loserHash' loserMeta' hne heq
    exact hne (copyHex_eq_iff.1 (copyPathFor_inj heq).2)

end Replicore
