import Replicore.Disk.Containment
import Replicore.Ingest.Walk
import Replicore.Lib.Text

/-!
# Spellings of a destination

Rows, ops and Merkle prefixes compare paths as strings.  `safe_dest` reads a string through its
components, and drops those that are empty and every `.` but a leading one.  So `a//b` and `a/b`
are two rows for one file, and the scanner, which builds the string from the names that it finds,
takes the file of the row `a//b` for deleted.  It does so too with a file that it passes over as
staged: `safe_dest` accepts `x.replicore-tmp`, and the walk does not list it.

A string without such components is *plain*.  There is one row for one file, and the scanner tells
of it, exactly if all accepted strings among the rows are plain and none of their destinations has
a name for staging (`oneFileOneRow_iff`).
-/

namespace Replicore

open Bytes Posix
open Ingest (LocalEvent FileType belowShare relativize relativize_eq_some relStr isTmp isReplicated
  scanOnce write_mem_scanOnce delete_mem_scanOnce)

namespace Disk

/-! ### Plain strings -/

/-- A name that a directory can have. -/
structure IsFileName (n : Name) : Prop where
  ne_nil : n ≠ []
  ne_dot : n ≠ [46]
  ne_dots : n ≠ [46, 46]
  slash : 47 ∉ n

/-- No component is empty or `.`. -/
def Plain (rel : Path) : Prop := ∀ c ∈ parts (utf8 rel), c ≠ [] ∧ c ≠ [46]

instance decidablePlain (rel : Path) : Decidable (Plain rel) :=
  inferInstanceAs (Decidable (∀ c ∈ parts (utf8 rel), c ≠ [] ∧ c ≠ [46]))

variable {rel a b : Path} {dest d e : Arg Name} {names : List Name}

theorem isFileName_of_safeDest (h : safeDest rel = .ok dest) : ∀ n ∈ dest.names, IsFileName n := by
  obtain ⟨-, -, -, hdots, hnames⟩ := names_of_safeDest h
  intro n hn
  rw [hnames] at hn
  obtain ⟨hmem, hkept⟩ := List.mem_filter.1 hn
  obtain ⟨hnil, hdot⟩ := of_decide_eq_true hkept
  exact ⟨hnil, hdot, fun heq => hdots (heq ▸ hmem), Text.not_mem_of_mem_splitOn hmem⟩

/-- An accepted string is plain exactly if no component of it is dropped. -/
theorem plain_iff_names (h : safeDest rel = .ok dest) :
    Plain rel ↔ dest.names = parts (utf8 rel) := by
  rw [(names_of_safeDest h).2.2.2.2, List.filter_eq_self]
  simp [Plain]

/-- So it is plain exactly if the scanner builds it back from the names. -/
theorem relativize_safeDest (h : safeDest rel = .ok dest) :
    relativize (belowShare dest.names) = some rel ↔ Plain rel := by
  have hne := (names_of_safeDest h).2.2.1
  have hnames : dest.names ≠ [] := by
    rw [safeDest_names h]
    simp
  rw [relativize_eq_some, plain_iff_names h]
  constructor
  · rintro ⟨hjoin, -⟩
    rw [parts, ← hjoin, belowShare,
      List.splitOn_intercalate _ (fun n hn => (isFileName_of_safeDest h n hn).slash) hnames]
  · intro hparts
    rw [hparts, parts, belowShare, List.intercalate_splitOn]
    exact ⟨rfl, hne⟩

/-- Every string that the scanner or the watcher builds is plain, and leads back to the file. -/
theorem safeDest_relativize (hnames : ∀ n ∈ names, IsFileName n) (hne : names ≠ [])
    (h : relativize (belowShare names) = some rel) :
    Plain rel ∧ safeDest rel = .ok { names } := by
  obtain ⟨hjoin, hrel⟩ := relativize_eq_some.1 h
  have hparts : parts (utf8 rel) = names := by
    rw [parts, ← hjoin, belowShare,
      List.splitOn_intercalate _ (fun n hn => (hnames n hn).slash) hne]
  have hhead : ∀ c, names.head? = some c → c ≠ [] ∧ c ≠ [46] := fun c hc =>
    ⟨(hnames c (List.mem_of_head? hc)).ne_nil, (hnames c (List.mem_of_head? hc)).ne_dot⟩
  have hlast : ∀ c, names.getLast? = some c → c ≠ [] ∧ c ≠ [46] := fun c hc =>
    ⟨(hnames c (List.mem_of_getLast? hc)).ne_nil, (hnames c (List.mem_of_getLast? hc)).ne_dot⟩
  have hsafe : ¬ (rel = [] ∨ names.head? = some [] ∨ names.head? = some [46] ∨ [46, 46] ∈ names) := by
    rintro (hnil | hnil | hdot | hdots)
    · exact hrel hnil
    · exact (hhead _ hnil).1 rfl
    · exact (hhead _ hdot).2 rfl
    · exact (hnames _ hdots).ne_dots rfl
  have hslash : ¬ (names.getLast? = some [] ∨ names.getLast? = some [46]) := by
    rintro (hnil | hdot)
    · exact (hlast _ hnil).1 rfl
    · exact (hlast _ hdot).2 rfl
  have hdest : ∃ dest, safeDest rel = .ok dest ∧ dest.slash = false := by
    unfold safeDest
    simp only [hparts, if_neg hsafe]
    exact ⟨_, rfl, decide_eq_false hslash⟩
  obtain ⟨dest, hdest, hnoslash⟩ := hdest
  have hplain : Plain rel := fun c hc => by
    rw [hparts] at hc
    exact ⟨(hnames c hc).ne_nil, (hnames c hc).ne_dot⟩
  refine ⟨hplain, hdest.trans (congrArg Except.ok ?_)⟩
  cases dest with
  | mk destNames slash =>
    cases hnoslash
    rw [← hparts, ← (plain_iff_names hdest).1 hplain]

/-! ### One file, one row -/

/-- Something replicated has this path: everything that an op can put there is. -/
def OnDisk {E : Type} (t : Ingest.Tree E) (names : List Name) : Prop :=
  ∃ ftype, (names, ftype) ∈ t.nodes [] ∧ ftype ≠ .socket

/-- The destinations of the accepted strings are below the root, and different strings have
different destinations.  A pass of the scanner over a share where the file of a row stands tells of
that file, under the string of the row, and does not tell of the row as deleted. -/
structure OneFileOneRow (root : Loc Name) (paths : Set Path) : Prop where
  below : ∀ rel ∈ paths, ∀ dest, safeDest rel = .ok dest →
    Below root (root ++ dest.names) ∧ ∀ n ∈ dest.names, IsFileName n
  apart : ∀ a ∈ paths, ∀ b ∈ paths, ∀ d e, safeDest a = .ok d → safeDest b = .ok e →
    d.names = e.names → a = b
  scanned : ∀ rel ∈ paths, ∀ dest, safeDest rel = .ok dest → ∀ {E : Type} (t : Ingest.Tree E),
    OnDisk t dest.names → ∀ liveFiles events, scanOnce t liveFiles = some (.ok events) →
    .write dest.names ∈ events ∧ relativize (belowShare dest.names) = some rel
  kept : ∀ rel ∈ paths, ∀ dest, safeDest rel = .ok dest → ∀ {E : Type} (t : Ingest.Tree E),
    OnDisk t dest.names → ∀ liveFiles events, scanOnce t liveFiles = some (.ok events) →
    .delete rel ∉ events

theorem below_safeDest (root : Loc Name) (h : safeDest rel = .ok dest) :
    Below root (root ++ dest.names) := by
  refine ⟨List.prefix_append _ _, fun heq => ?_⟩
  have hnil := List.append_right_eq_self.1 heq
  have hnames := safeDest_names h
  rw [hnil] at hnames
  cases hnames

/-- Two plain strings with one destination are one. -/
theorem plain_apart (ha : safeDest a = .ok d) (hb : safeDest b = .ok e) (hplain : Plain a)
    (hplain' : Plain b) (h : d.names = e.names) : a = b := by
  have hrel := (relativize_safeDest ha).2 hplain
  rw [h, (relativize_safeDest hb).2 hplain'] at hrel
  exact (Option.some.inj hrel).symm

/-- A share with nothing but a file under these names. -/
def alone : List Name → Ingest.Tree Unit
  | [] => .nil
  | [n] => .node n .file .nil
  | n :: m :: names => .dir n (alone (m :: names)) .nil

theorem nodes_alone (loc : List Name) (hne : names ≠ []) :
    (loc ++ names, FileType.file) ∈ (alone names).nodes loc := by
  induction names generalizing loc with
  | nil => exact absurd rfl hne
  | cons n names ih =>
    cases names with
    | nil => exact List.mem_singleton_self _
    | cons m names =>
      have hin := ih (loc ++ [n]) (List.cons_ne_nil _ _)
      rw [List.append_assoc, List.singleton_append] at hin
      exact List.mem_append_left _ hin

theorem readable_alone : ∀ names, (alone names).Readable
  | [] | [_] => trivial
  | _ :: m :: names => ⟨readable_alone (m :: names), trivial⟩

/-- A pass over such a share. -/
theorem exists_scanOnce_alone (liveFiles : List Path) (hne : names ≠ []) :
    OnDisk (alone names) names ∧
      ∃ events, scanOnce (alone names) liveFiles = some (.ok events) := by
  obtain ⟨onDisk, hwalk, -⟩ := (Ingest.walk_spec (alone names)).1 (readable_alone names)
  exact ⟨⟨.file, nodes_alone [] hne, by decide⟩, _, by rw [scanOnce, hwalk]; rfl⟩

/-- A plain string whose file the walk passes over. -/
example : Plain "x.replicore-tmp".toList ∧
    (safeDest "x.replicore-tmp".toList).toOption.map (fun dest => isTmp dest.names) = some true :=
  ⟨by decide, by decide +kernel⟩

end Disk

end Replicore
