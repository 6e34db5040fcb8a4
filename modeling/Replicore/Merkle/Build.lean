import Mathlib.Data.List.Induction
import Replicore.Merkle.Tree

/-!
# What the tree lists

`MerkleTree.build` lists a directory for every path that some row is below, and in it an entry for
every name on the way to a row (`Filled`, `IsBuilt`).  The entry of a path that has rows below it
has the hash of its children; otherwise it is the leaf of the row: so a row with other rows below
its path has no leaf.  Whether the entry says that it is a directory depends on the order of the
rows (`EndsAt`).  For rows sorted by path it says so exactly if there are rows below it (`Listed`,
`IsTree`).
-/

namespace Replicore

open Hier (IsName Proper ProperDir Under)

/-- Some row is strictly below the path; the root always counts. -/
def IsDir (rows : List FileRow) (d : Path) : Prop :=
  d = [] ∨ ∃ r ∈ rows, Under '/' d r.path

/-- `a` is `p` or a directory on the way to it. -/
def Within (a p : Path) : Prop := a ≠ [] ∧ (a = p ∨ Under '/' a p)

theorem Within.proper {a p : Path} (h : Within a p) (hp : ProperDir '/' p) : Proper '/' a := by
  obtain ⟨hne, rfl | hu⟩ := h
  · exact hp.resolve_left hne
  · rcases hp with rfl | hp
    · rcases hu with rfl | ⟨rest, hrest⟩
      · exact absurd rfl hne
      · simp at hrest
    · exact hu.proper hp hne

theorem not_within_nil {a : Path} : ¬ Within a [] := by
  rintro ⟨hne, rfl | rfl | ⟨rest, hrest⟩⟩
  · exact hne rfl
  · exact hne rfl
  · simp at hrest

/-- The parent of `p` is on the way, and what is on the way to it. -/
theorem within_iff {a p : Path} (hp : Proper '/' p) :
    Within a p ↔ a = p ∨ Within a (splitParent p).1 := by
  unfold splitParent
  cases hp with
  | name hn =>
    rw [Hier.split_name hn]
    constructor
    · rintro ⟨hne, rfl | hu⟩
      · exact .inl rfl
      · exact absurd hu (Hier.not_under_name hn hne)
    · rintro (rfl | hw)
      · exact ⟨hn.1, .inl rfl⟩
      · exact absurd hw not_within_nil
  | sub hd hn =>
    rw [Hier.split_sub hn]
    constructor
    · rintro ⟨hne, rfl | hu⟩
      · exact .inl rfl
      · exact .inr ⟨hne, (Hier.under_sub hn hne).1 hu⟩
    · rintro (rfl | ⟨hne, hor⟩)
      · exact ⟨by simp, .inl rfl⟩
      · exact ⟨hne, .inr ((Hier.under_sub hn hne).2 hor)⟩

/-- Strictly above a proper path: on the way to its parent. -/
theorem under_iff_within {a p : Path} (hp : Proper '/' p) (ha : a ≠ []) :
    Under '/' a p ↔ Within a (splitParent p).1 := by
  constructor
  · intro hu
    refine ((within_iff hp).1 ⟨ha, .inr hu⟩).resolve_left ?_
    rintro rfl
    exact absurd (hu.length_lt ha) (lt_irrefl _)
  · rintro ⟨-, rfl | hu⟩
    · exact hp.under_split
    · exact hu.trans hp.under_split

theorem join_ne_nil {d n : Path} (hn : IsName '/' n) : joinPrefix d n ≠ [] := by
  unfold joinPrefix Hier.join
  split_ifs
  · exact hn.1
  · simp

theorem exists_joinPrefix {p : Path} (hp : Proper '/' p) :
    ∃ d n, IsName '/' n ∧ p = joinPrefix d n :=
  ⟨_, _, hp.split_spec.2.1, hp.split_spec.2.2.symm⟩

namespace Dirs

variable {dirs : Dirs} {dir name d n : Path} {x : Hash × Bool}

theorem look_put : (dirs.put dir name x).look d n =
    if dir = d ∧ name = n then some x else dirs.look d n := by
  unfold look put
  rw [OrdMap.get?_insert]
  by_cases hd : dir = d
  · subst hd
    rw [if_pos rfl, Option.bind_some, OrdMap.get?_insert]
    by_cases hn : name = n
    · simp [hn]
    · simp only [hn, and_false, if_false]
      cases dirs.get? dir with
      | none => simp
      | some c => simp
  · simp [hd]

theorem isSome_put : ((dirs.put dir name x).get? d).isSome ↔ dir = d ∨ (dirs.get? d).isSome := by
  unfold put
  rw [OrdMap.get?_insert]
  by_cases hd : dir = d
  · simp [hd]
  · simp [hd]

/-- What the ancestor loop does: the entries of `p` and of the directories on the way to it say that
they are directories, and no other entry changes. -/
theorem markAncestors_spec (k : ℕ) (dirs : Dirs) {p : Path} (hp : ProperDir '/' p)
    (hk : p.length ≤ k) :
    (∀ a, Within a p → (markAncestors k dirs p).look (splitParent a).1 (splitParent a).2 =
      some (((dirs.look (splitParent a).1 (splitParent a).2).getD (0, true)).1, true)) ∧
    (∀ d n, (∀ a, Within a p → splitParent a ≠ (d, n)) →
      (markAncestors k dirs p).look d n = dirs.look d n) ∧
    ∀ d, ((markAncestors k dirs p).get? d).isSome ↔
      (dirs.get? d).isSome ∨ ∃ a, Within a p ∧ (splitParent a).1 = d := by
  induction k generalizing dirs p with
  | zero =>
    obtain rfl : p = [] := List.length_eq_zero_iff.1 (Nat.le_zero.1 hk)
    refine ⟨fun a ha => absurd ha not_within_nil, fun d n _ => rfl, fun d => ?_⟩
    exact ⟨.inl, fun h => h.resolve_right fun ⟨a, ha, _⟩ => absurd ha not_within_nil⟩
  | succ k ih =>
    by_cases hne : p = []
    · subst hne
      refine ⟨fun a ha => absurd ha not_within_nil, fun d n _ => rfl, fun d => ?_⟩
      exact ⟨.inl, fun h => h.resolve_right fun ⟨a, ha, _⟩ => absurd ha not_within_nil⟩
    · have hpp : Proper '/' p := hp.resolve_left hne
      have hlen : (splitParent p).1.length ≤ k := by
        have hlt : (splitParent p).1.length < p.length := hpp.under_split.length_lt hne
        omega
      have hup : ProperDir '/' (splitParent p).1 := hpp.split_spec.1
      obtain ⟨hin, hout, hkeys⟩ := ih (dirs.markDir p) hup hlen
      have hloop : markAncestors (k + 1) dirs p =
          markAncestors k (dirs.markDir p) (splitParent p).1 := if_neg hne
      -- the entry of `p` itself is not touched again
      have hself : ∀ a, Within a (splitParent p).1 → splitParent a ≠ splitParent p := by
        intro a ha heq
        have hap := (ha.proper hup).eq_of_split hpp heq
        have hu := (under_iff_within hpp ha.1).2 ha
        rw [hap] at hu
        exact lt_irrefl _ (hu.length_lt hne)
      have hmark : ∀ d n, (dirs.markDir p).look d n = if splitParent p = (d, n) then
          some (((dirs.look d n).getD (0, true)).1, true) else dirs.look d n := by
        intro d n
        rw [markDir]
        dsimp only
        rw [look_put]
        by_cases heq : splitParent p = (d, n)
        · simp [heq]
        · rw [if_neg heq, if_neg]
          rintro ⟨rfl, rfl⟩
          exact heq rfl
      rw [hloop]
      refine ⟨fun a ha => ?_, fun d n hno => ?_, fun d => ?_⟩
      · rcases (within_iff hpp).1 ha with rfl | ha'
        · rw [hout (splitParent a).1 (splitParent a).2 hself, hmark, if_pos rfl]
        · rw [hin a ha', hmark, if_neg (Ne.symm (hself a ha'))]
      · rw [hout d n fun a ha => hno a ((within_iff hpp).2 (.inr ha)), hmark,
          if_neg (hno p ⟨hne, .inl rfl⟩)]
      · rw [hkeys d, markDir]
        dsimp only
        rw [isSome_put]
        constructor
        · rintro ((rfl | hd) | ⟨a, ha, rfl⟩)
          · exact .inr ⟨p, ⟨hne, .inl rfl⟩, rfl⟩
          · exact .inl hd
          · exact .inr ⟨a, (within_iff hpp).2 (.inr ha), rfl⟩
        · rintro (hd | ⟨a, ha, rfl⟩)
          · exact .inl (.inr hd)
          · rcases (within_iff hpp).1 ha with rfl | ha
            · exact .inl (.inl rfl)
            · exact .inr ⟨a, ha, rfl⟩

/-- Setting a hash does nothing, or changes one entry. -/
theorem setHash_cases (dirs : Dirs) (p : Path) (hash : Hash) :
    (dirs.look (splitParent p).1 (splitParent p).2 = none ∧ dirs.setHash p hash = dirs) ∨
      ∃ c x, dirs.get? (splitParent p).1 = some c ∧ c.get? (splitParent p).2 = some x ∧
        dirs.setHash p hash =
          dirs.insert (splitParent p).1 (c.insert (splitParent p).2 (hash, x.2)) := by
  cases hc : dirs.get? (splitParent p).1 with
  | none => exact .inl ⟨by simp [look, hc], by simp [setHash, hc]⟩
  | some c =>
    cases hx : c.get? (splitParent p).2 with
    | none => exact .inl ⟨by simp [look, hc, hx], by simp [setHash, hc, hx]⟩
    | some x => exact .inr ⟨c, x, rfl, hx, by simp [setHash, hc, hx]⟩

theorem isSome_setHash {p : Path} {hash : Hash} :
    ((dirs.setHash p hash).get? d).isSome ↔ (dirs.get? d).isSome := by
  rcases setHash_cases dirs p hash with ⟨-, heq⟩ | ⟨c, x, hc, -, heq⟩
  · rw [heq]
  · rw [heq, OrdMap.get?_insert]
    by_cases hd : (splitParent p).1 = d
    · simp [← hd, hc]
    · simp [hd]

theorem look_setHash {p : Path} {hash : Hash} : (dirs.setHash p hash).look d n =
    if splitParent p = (d, n) then (dirs.look d n).map fun x => (hash, x.2)
    else dirs.look d n := by
  rcases setHash_cases dirs p hash with ⟨hnone, heq⟩ | ⟨c, x, hc, hx, heq⟩
  · rw [heq]
    split_ifs with hp
    · rw [hp] at hnone
      rw [hnone]
      rfl
    · rfl
  · rw [heq]
    unfold look
    rw [OrdMap.get?_insert]
    by_cases hd : (splitParent p).1 = d
    · subst hd
      rw [if_pos rfl, hc, Option.bind_some, Option.bind_some, OrdMap.get?_insert]
      by_cases hn : (splitParent p).2 = n
      · subst hn
        simp [hx]
      · have hne : splitParent p ≠ ((splitParent p).1, n) := fun h => hn (congrArg Prod.snd h)
        rw [if_neg hn, if_neg hne]
    · have hne : splitParent p ≠ (d, n) := fun h => hd (congrArg Prod.fst h)
      rw [if_neg hd, if_neg hne]

theorem get?_setHash_of_ne {p q : Path} {hash : Hash} (h : (splitParent p).1 ≠ q) :
    (dirs.setHash p hash).get? q = dirs.get? q := by
  rcases setHash_cases dirs p hash with ⟨-, heq⟩ | ⟨c, x, -, -, heq⟩
  · rw [heq]
  · rw [heq, OrdMap.get?_insert_of_ne _ _ h]

end Dirs

/-! ### Taking in the rows -/

theorem IsDir.properDir {rows : List FileRow} (hrows : ∀ r ∈ rows, Proper '/' r.path) {d : Path}
    (h : IsDir rows d) : ProperDir '/' d := by
  rcases h with rfl | ⟨r, hr, hu⟩
  · exact .inl rfl
  · by_cases hd : d = []
    · exact .inl hd
    · exact .inr (hu.proper (hrows r hr) hd)

theorem isDir_append {rows : List FileRow} {row : FileRow} (hrow : Proper '/' row.path) {d : Path} :
    IsDir (rows ++ [row]) d ↔ IsDir rows d ∨ Within d (splitParent row.path).1 := by
  by_cases hd : d = []
  · simp [IsDir, hd]
  · rw [← under_iff_within hrow hd]
    constructor
    · rintro (h | ⟨r, hr, hu⟩)
      · exact absurd h hd
      · rcases List.mem_append.1 hr with hr | hr
        · exact .inl (.inr ⟨r, hr, hu⟩)
        · exact .inr (List.mem_singleton.1 hr ▸ hu)
    · rintro ((h | ⟨r, hr, hu⟩) | hu)
      · exact absurd h hd
      · exact .inr ⟨r, List.mem_append_left _ hr, hu⟩
      · exact .inr ⟨row, by simp, hu⟩

/-- Of the rows at or below the path, the last is at the path. -/
def EndsAt (rows : List FileRow) (p : Path) : Prop :=
  (rows.reverse.find? fun r => r.path = p ∨ Under '/' p r.path).map FileRow.path = some p

instance decidableEndsAt (rows : List FileRow) (p : Path) : Decidable (EndsAt rows p) :=
  inferInstanceAs (Decidable (_ = _))

theorem endsAt_append {rows : List FileRow} {row : FileRow} {p : Path} :
    EndsAt (rows ++ [row]) p ↔ row.path = p ∨ (¬ Under '/' p row.path ∧ EndsAt rows p) := by
  unfold EndsAt
  rw [List.reverse_append, List.reverse_singleton, List.singleton_append, List.find?_cons]
  by_cases hp : row.path = p
  · simp [hp]
  · by_cases hu : Under '/' p row.path
    · simp [hp, hu]
    · simp [hp, hu]

theorem exists_of_endsAt {rows : List FileRow} {p : Path} (h : EndsAt rows p) :
    ∃ r ∈ rows, r.path = p := by
  obtain ⟨r, hfind, hp⟩ := Option.map_eq_some_iff.1 h
  exact ⟨r, List.mem_reverse.1 (List.mem_of_find?_eq_some hfind), hp⟩

theorem not_endsAt_nil {rows : List FileRow} (hrows : ∀ r ∈ rows, Proper '/' r.path) :
    ¬ EndsAt rows [] := fun h => by
  obtain ⟨r, hr, hp⟩ := exists_of_endsAt h
  exact (hrows r hr).ne_nil hp

/-- Nothing below the path: a row at it is the last. -/
theorem endsAt_of_not_isDir {rows : List FileRow} {p : Path} (hp : p ≠ []) (h : ¬ IsDir rows p) :
    EndsAt rows p ↔ ∃ r ∈ rows, r.path = p := by
  induction rows using List.reverseRecOn with
  | nil => simp [EndsAt]
  | append_singleton rows row ih =>
    have hrow : ¬ Under '/' p row.path := fun hu => h (.inr ⟨row, by simp, hu⟩)
    have hrows : ¬ IsDir rows p := by
      rintro (hnil | ⟨r, hr, hu⟩)
      · exact hp hnil
      · exact h (.inr ⟨r, List.mem_append_left _ hr, hu⟩)
    rw [endsAt_append, ih hrows]
    constructor
    · rintro (hpath | ⟨-, r, hr, hpath⟩)
      · exact ⟨row, by simp, hpath⟩
      · exact ⟨r, List.mem_append_left _ hr, hpath⟩
    · rintro ⟨r, hr, hpath⟩
      rcases List.mem_append.1 hr with hr | hr
      · exact .inr ⟨hrow, r, hr, hpath⟩
      · exact .inl (List.mem_singleton.1 hr ▸ hpath)

/-- In sorted rows, what is below a path comes behind it. -/
theorem not_endsAt_of_isDir {rows : List FileRow} (hrows : ∀ r ∈ rows, Proper '/' r.path)
    (hsorted : rows.Pairwise fun a b => a.path < b.path) {p : Path} (hp : p ≠ [])
    (h : IsDir rows p) : ¬ EndsAt rows p := by
  induction rows using List.reverseRecOn with
  | nil => simp [EndsAt]
  | append_singleton rows row ih =>
    obtain ⟨hsorted, -, hlast⟩ := List.pairwise_append.1 hsorted
    rw [endsAt_append]
    obtain ⟨r, hr, hu⟩ := h.resolve_left hp
    rcases List.mem_append.1 hr with hr | hr
    · rintro (hpath | ⟨-, hend⟩)
      · have hlt := hlast r hr row (by simp)
        rw [hpath] at hlt
        exact lt_asymm hlt (hu.lt (hrows r (by simp [hr])).ne_nil)
      · exact ih (fun r hr => hrows r (by simp [hr])) hsorted (.inr ⟨r, hr, hu⟩) hend
    · obtain rfl := List.mem_singleton.1 hr
      rintro (hpath | ⟨hnot, -⟩)
      · rw [hpath] at hu
        exact lt_irrefl _ (hu.length_lt hp)
      · exact hnot hu

theorem leaves_foldl {rows : List FileRow} (hsorted : rows.Pairwise fun a b => a.path < b.path)
    (p : Path) (r : FileRow) :
    (rows.foldl (fun leaves row => leaves.insert row.path row)
      (OrdMap.empty : OrdMap Path FileRow)).get? p = some r ↔ r ∈ rows ∧ r.path = p := by
  induction rows using List.reverseRecOn with
  | nil => simp
  | append_singleton rows row ih =>
    obtain ⟨hsorted, -, hlast⟩ := List.pairwise_append.1 hsorted
    rw [List.foldl_append, List.foldl_cons, List.foldl_nil, OrdMap.get?_insert]
    by_cases hp : row.path = p
    · rw [if_pos hp, Option.some.injEq]
      constructor
      · rintro rfl
        exact ⟨by simp, hp⟩
      · rintro ⟨hr, hrp⟩
        rcases List.mem_append.1 hr with hr | hr
        · have hlt := hlast r hr row (by simp)
          rw [hrp, hp] at hlt
          exact absurd hlt (lt_irrefl _)
        · exact (List.mem_singleton.1 hr).symm
    · rw [if_neg hp, ih hsorted]
      constructor
      · rintro ⟨hr, hrp⟩
        exact ⟨List.mem_append_left _ hr, hrp⟩
      · rintro ⟨hr, hrp⟩
        rcases List.mem_append.1 hr with hr | hr
        · exact ⟨hr, hrp⟩
        · exact absurd (List.mem_singleton.1 hr ▸ hrp) hp

variable [Blake3]

open MerkleTree

/-- What the directories of sorted rows list. -/
structure Listed (rows : List FileRow) (dirs : Dirs) : Prop where
  dir : ∀ d, (dirs.get? d).isSome ↔ IsDir rows d
  name : ∀ d n x, dirs.look d n = some x → IsName '/' n
  isDir : ∀ d n h b, dirs.look d n = some (h, b) → (b = true ↔ IsDir rows (joinPrefix d n))
  leaf : ∀ d n h, dirs.look d n = some (h, false) →
    ∃ r ∈ rows, r.path = joinPrefix d n ∧ h = leafHash r
  row : ∀ r ∈ rows, (dirs.look (splitParent r.path).1 (splitParent r.path).2).isSome
  sub : ∀ d, d ≠ [] → IsDir rows d → (dirs.look (splitParent d).1 (splitParent d).2).isSome

/-- What the directories list, once the rows are in, whatever their order. -/
structure Filled (rows : List FileRow) (dirs : Dirs) : Prop where
  dir : ∀ d, (dirs.get? d).isSome ↔ IsDir rows d
  name : ∀ d n x, dirs.look d n = some x → IsName '/' n
  flag : ∀ d n h b, dirs.look d n = some (h, b) → (b = false ↔ EndsAt rows (joinPrefix d n))
  leaf : ∀ d n x, dirs.look d n = some x → ¬ IsDir rows (joinPrefix d n) →
    ∃ r ∈ rows, r.path = joinPrefix d n ∧ x.1 = leafHash r
  row : ∀ r ∈ rows, (dirs.look (splitParent r.path).1 (splitParent r.path).2).isSome
  sub : ∀ d, d ≠ [] → IsDir rows d → (dirs.look (splitParent d).1 (splitParent d).2).isSome

namespace Filled

variable {rows : List FileRow} {dirs : Dirs} {row : FileRow}

theorem init : Filled [] (OrdMap.empty.insert [] OrdMap.empty) := by
  have hlook : ∀ d n, Dirs.look (OrdMap.empty.insert [] OrdMap.empty) d n = none := by
    intro d n
    unfold Dirs.look
    rw [OrdMap.get?_insert]
    split_ifs <;> simp
  refine ⟨fun d => ?_, fun d n x h => ?_, fun d n h b hx => ?_, fun d n x hx => ?_, by simp,
    fun d hd h => ?_⟩
  · rw [OrdMap.get?_insert]
    by_cases hd : d = []
    · simp [hd, IsDir]
    · simp [Ne.symm hd, hd, IsDir]
  · simp [hlook] at h
  · simp [hlook] at hx
  · simp [hlook] at hx
  · simp [IsDir, hd] at h

/-- The entry of a path in its parent. -/
theorem split_eq (h : Filled rows dirs) {d n : Path} {x : Hash × Bool}
    (hx : dirs.look d n = some x) : splitParent (joinPrefix d n) = (d, n) :=
  Hier.split_join (h.name d n x hx)

/-- One row more. -/
theorem addRow (h : Filled rows dirs) (hrow : Proper '/' row.path) :
    Filled (rows ++ [row]) (addRow dirs row) := by
  obtain ⟨hup, hname, hjoin⟩ := hrow.split_spec
  change ProperDir '/' (splitParent row.path).1 at hup
  set par := (splitParent row.path).1 with hpar
  set nm := (splitParent row.path).2 with hnm
  obtain ⟨hin, hout, hkeys⟩ :=
    Dirs.markAncestors_spec par.length (dirs.put par nm (leafHash row, false)) hup le_rfl
  change Filled (rows ++ [row])
    ((dirs.put par nm (leafHash row, false)).markAncestors par.length par)
  set dirs' := (dirs.put par nm (leafHash row, false)).markAncestors par.length par with hdirs'
  -- the row itself is not on the way to its parent
  have hself : ∀ a, Within a par → splitParent a ≠ (par, nm) := by
    intro a ha heq
    have hap := (ha.proper hup).eq_of_split hrow heq
    have hu := (under_iff_within hrow ha.1).2 ha
    rw [hap] at hu
    exact lt_irrefl _ (hu.length_lt hrow.ne_nil)
  have hentry : dirs'.look par nm = some (leafHash row, false) := by
    rw [hout par nm hself, Dirs.look_put, if_pos ⟨rfl, rfl⟩]
  have hother : ∀ d n, (∀ a, Within a par → splitParent a ≠ (d, n)) → (d, n) ≠ (par, nm) →
      dirs'.look d n = dirs.look d n := by
    intro d n hno hne
    rw [hout d n hno, Dirs.look_put, if_neg]
    rintro ⟨rfl, rfl⟩
    exact hne rfl
  -- an entry is that of a marked directory, of the row, or was there before
  have hcases : ∀ d n x, dirs'.look d n = some x →
      (∃ a, Within a par ∧ splitParent a = (d, n) ∧ x.2 = true) ∨
      ((d, n) = (par, nm) ∧ x = (leafHash row, false)) ∨
      (dirs.look d n = some x ∧ (d, n) ≠ (par, nm) ∧
        ∀ a, Within a par → splitParent a ≠ (d, n)) := by
    intro d n x hx
    by_cases hmark : ∃ a, Within a par ∧ splitParent a = (d, n)
    · obtain ⟨a, ha, hsplit⟩ := hmark
      have hset := hin a ha
      rw [hsplit] at hset
      rw [hset, Option.some.injEq] at hx
      exact .inl ⟨a, ha, hsplit, hx ▸ rfl⟩
    · push Not at hmark
      by_cases heq : (d, n) = (par, nm)
      · obtain ⟨rfl, rfl⟩ := Prod.mk.inj heq
        rw [hentry, Option.some.injEq] at hx
        exact .inr (.inl ⟨rfl, hx.symm⟩)
      · rw [hother d n hmark heq] at hx
        exact .inr (.inr ⟨hx, heq, hmark⟩)
  have hjoinA : ∀ {a : Path} {d n : Path}, Within a par → splitParent a = (d, n) →
      IsName '/' n ∧ joinPrefix d n = a := by
    intro a d n ha hsplit
    obtain ⟨-, hn, hj⟩ := (ha.proper hup).split_spec
    rw [show Hier.split '/' a = (d, n) from hsplit] at hn hj
    exact ⟨hn, hj⟩
  -- no entry disappears
  have hkeep : ∀ d n, (dirs.look d n).isSome → (dirs'.look d n).isSome := by
    intro d n hsome
    by_cases hmark : ∃ a, Within a par ∧ splitParent a = (d, n)
    · obtain ⟨a, ha, hsplit⟩ := hmark
      have hset := hin a ha
      rw [hsplit] at hset
      rw [hset]
      rfl
    · push Not at hmark
      by_cases heq : (d, n) = (par, nm)
      · obtain ⟨rfl, rfl⟩ := Prod.mk.inj heq
        rw [hentry]
        rfl
      · rwa [hother d n hmark heq]
  refine ⟨fun d => ?_, fun d n x hx => ?_, fun d n x b hx => ?_, fun d n x hx hnot => ?_,
    fun r hr => ?_, fun d hd hdir => ?_⟩
  · rw [hkeys d, Dirs.isSome_put, h.dir, isDir_append hrow]
    constructor
    · rintro ((rfl | hd) | ⟨a, ha, rfl⟩)
      · by_cases hnil : par = []
        · exact .inl (.inl hnil)
        · exact .inr ⟨hnil, .inl rfl⟩
      · exact .inl hd
      · by_cases hnil : (splitParent a).1 = []
        · exact .inl (.inl hnil)
        · refine .inr ⟨hnil, ?_⟩
          have hua : Under '/' (splitParent a).1 a := (ha.proper hup).under_split
          obtain ⟨-, rfl | hu⟩ := ha
          · exact .inr hua
          · exact .inr (hua.trans hu)
    · rintro (hd | ⟨hne, rfl | hu⟩)
      · exact .inl (.inr hd)
      · exact .inl (.inl rfl)
      · have hparne : par ≠ [] := by
          intro hnil
          rw [← hpar, hnil] at hu
          exact absurd ⟨hne, .inr hu⟩ not_within_nil
        obtain ⟨n, hn, hor⟩ := hu.exists_child (hup.resolve_left hparne)
        refine .inr ⟨Hier.join '/' d n, ⟨?_, hor.imp Eq.symm id⟩, ?_⟩
        · rw [Hier.join, if_neg hne]
          simp
        · exact congrArg Prod.fst (Hier.split_join hn)
  · rcases hcases d n x hx with ⟨a, ha, hsplit, -⟩ | ⟨heq, -⟩ | ⟨hx, -⟩
    · exact (hjoinA ha hsplit).1
    · obtain ⟨rfl, rfl⟩ := Prod.mk.inj heq
      exact hname
    · exact h.name d n x hx
  · rw [endsAt_append]
    rcases hcases d n (x, b) hx with ⟨a, ha, hsplit, hb⟩ | ⟨heq, hxb⟩ | ⟨hold, hne, hmark⟩
    · have hj := (hjoinA ha hsplit).2
      have hb : b = true := hb
      refine iff_of_false (by simp [hb]) ?_
      rintro (hpath | ⟨hnot, -⟩)
      · refine hself a ha ?_
        rw [← hj, ← hpath]
      · exact hnot (hj ▸ (under_iff_within hrow ha.1).2 ha)
    · obtain ⟨rfl, rfl⟩ := Prod.mk.inj heq
      exact iff_of_true (congrArg Prod.snd hxb) (.inl hjoin.symm)
    · have hsplit := h.split_eq hold
      have hpath : row.path ≠ joinPrefix d n := by
        intro hpath
        rw [← hpath] at hsplit
        exact hne hsplit.symm
      have hunder : ¬ Under '/' (joinPrefix d n) row.path := by
        intro hu
        have hjne : joinPrefix d n ≠ [] := join_ne_nil (h.name d n _ hold)
        exact hmark _ ((under_iff_within hrow hjne).1 hu) hsplit
      rw [h.flag d n x b hold]
      simp [hpath, hunder]
  · rw [isDir_append hrow, not_or] at hnot
    rcases hcases d n x hx with ⟨a, ha, hsplit, -⟩ | ⟨heq, hxb⟩ | ⟨hold, -⟩
    · exact absurd ((hjoinA ha hsplit).2 ▸ ha) hnot.2
    · obtain ⟨rfl, rfl⟩ := Prod.mk.inj heq
      exact ⟨row, by simp, hjoin.symm, congrArg Prod.fst hxb⟩
    · obtain ⟨r, hr, hp, hh⟩ := h.leaf d n x hold hnot.1
      exact ⟨r, List.mem_append_left _ hr, hp, hh⟩
  · rcases List.mem_append.1 hr with hr | hr
    · exact hkeep _ _ (h.row r hr)
    · rw [List.mem_singleton.1 hr, ← hpar, ← hnm, hentry]
      rfl
  · rcases (isDir_append hrow).1 hdir with hdir | hw
    · exact hkeep _ _ (h.sub d hd hdir)
    · rw [hin d hw]
      rfl

theorem foldl_addRow (hrows : ∀ r ∈ rows, Proper '/' r.path) :
    Filled rows (rows.foldl MerkleTree.addRow (OrdMap.empty.insert [] OrdMap.empty)) := by
  induction rows using List.reverseRecOn with
  | nil => exact init
  | append_singleton rows row ih =>
    rw [List.foldl_append, List.foldl_cons, List.foldl_nil]
    exact (ih fun r hr => hrows r (by simp [hr])).addRow (hrows row (by simp))

/-- Setting the hash of a directory. -/
theorem setHash (h : Filled rows dirs) (hrows : ∀ r ∈ rows, Proper '/' r.path) {p : Path}
    (hp : p ≠ []) (hdir : IsDir rows p) (hash : Hash) : Filled rows (dirs.setHash p hash) := by
  have hpp : Proper '/' p := (hdir.properDir hrows).resolve_left hp
  have hjoin : ∀ {d n : Path}, splitParent p = (d, n) → joinPrefix d n = p := by
    intro d n heq
    have hj := hpp.split_spec.2.2
    rwa [show Hier.split '/' p = (d, n) from heq] at hj
  -- an entry has the flag it had, and is that of `p` or as it was
  have hcases : ∀ d n x, (dirs.setHash p hash).look d n = some x →
      ∃ y, dirs.look d n = some y ∧ y.2 = x.2 ∧ (x = y ∨ splitParent p = (d, n)) := by
    intro d n x hx
    rw [Dirs.look_setHash] at hx
    split_ifs at hx with heq
    · obtain ⟨y, hy, rfl⟩ := Option.map_eq_some_iff.1 hx
      exact ⟨y, hy, rfl, .inr heq⟩
    · exact ⟨x, hx, rfl, .inl rfl⟩
  have hkeep : ∀ d n, (dirs.look d n).isSome → ((dirs.setHash p hash).look d n).isSome := by
    intro d n hsome
    rw [Dirs.look_setHash]
    split_ifs
    · simpa using hsome
    · exact hsome
  refine ⟨fun d => Dirs.isSome_setHash.trans (h.dir d), fun d n x hx => ?_, fun d n x b hx => ?_,
    fun d n x hx hnot => ?_, fun r hr => hkeep _ _ (h.row r hr),
    fun d hd hdir => hkeep _ _ (h.sub d hd hdir)⟩
  · obtain ⟨y, hy, -⟩ := hcases d n x hx
    exact h.name d n y hy
  · obtain ⟨y, hy, hb, -⟩ := hcases d n (x, b) hx
    rw [← h.flag d n y.1 y.2 hy, hb]
  · obtain ⟨y, hy, hb, rfl | heq⟩ := hcases d n x hx
    · exact h.leaf d n x hy hnot
    · -- the entry of a directory is no leaf
      exact absurd (hjoin heq ▸ hdir) hnot

/-- For sorted rows the flag tells the directories. -/
theorem listed (h : Filled rows dirs) (hrows : ∀ r ∈ rows, Proper '/' r.path)
    (hsorted : rows.Pairwise fun a b => a.path < b.path) : Listed rows dirs := by
  have hflag : ∀ d n x b, dirs.look d n = some (x, b) →
      (b = true ↔ IsDir rows (joinPrefix d n)) := by
    intro d n x b hx
    have hne : joinPrefix d n ≠ [] := join_ne_nil (h.name d n _ hx)
    rw [← Bool.not_eq_false, h.flag d n x b hx]
    constructor
    · intro hend
      by_contra hdir
      obtain ⟨r, hr, hp, -⟩ := h.leaf d n _ hx hdir
      exact hend ((endsAt_of_not_isDir hne hdir).2 ⟨r, hr, hp⟩)
    · exact fun hdir => not_endsAt_of_isDir hrows hsorted hne hdir
  refine ⟨h.dir, h.name, hflag, fun d n x hx => ?_, h.row, h.sub⟩
  exact h.leaf d n _ hx fun hdir => Bool.false_ne_true ((hflag d n x false hx).2 hdir)

end Filled

/-! ### Hashing the directories -/

/-- The entry of `q` in its parent has the hash of its children, whatever it says `q` is. -/
def HasHash (dirs : Dirs) (q : Path) : Prop :=
  (dirs.look (splitParent q).1 (splitParent q).2).map Prod.fst =
    some (hashChildren (childrenOf dirs q))

/-- The tree of rows in any order. -/
structure IsBuilt (rows : List FileRow) (t : MerkleTree) : Prop extends Filled rows t.dirs where
  hashed : ∀ q, q ≠ [] → IsDir rows q → HasHash t.dirs q
  root : t.root = hashChildren (childrenOf t.dirs [])

/-- The entry of `q` in its parent is that of a directory with its children. -/
def Hashed (dirs : Dirs) (q : Path) : Prop :=
  dirs.look (splitParent q).1 (splitParent q).2 =
    some (hashChildren (childrenOf dirs q), true)

/-- The tree of sorted rows. -/
structure IsTree (rows : List FileRow) (t : MerkleTree) : Prop extends Listed rows t.dirs where
  hashed : ∀ q, q ≠ [] → IsDir rows q → Hashed t.dirs q
  root : t.root = hashChildren (childrenOf t.dirs [])
  leaves : ∀ p r, t.leaves.get? p = some r ↔ r ∈ rows ∧ r.path = p

/-- One directory of the pass. -/
def rehash (dirs : Dirs) (p : Path) : Dirs := dirs.setHash p (hashChildren (childrenOf dirs p))

theorem hashUp_eq (leaves : OrdMap Path FileRow) {ps : List Path} (hps : ∀ p ∈ ps, p ≠ [])
    (dirs : Dirs) : hashUp leaves (ps ++ [[]]) dirs =
      ⟨ps.foldl rehash dirs, leaves, hashChildren (childrenOf (ps.foldl rehash dirs) [])⟩ := by
  induction ps generalizing dirs with
  | nil => simp [hashUp]
  | cons p ps ih =>
    have hp := hps p List.mem_cons_self
    rw [List.cons_append, hashUp, if_neg hp]
    exact ih (fun q hq => hps q (List.mem_cons_of_mem _ hq)) _

theorem childrenOf_rehash {dirs : Dirs} {p q : Path} (h : (splitParent p).1 ≠ q) :
    childrenOf (rehash dirs p) q = childrenOf dirs q := by
  rw [childrenOf, rehash, Dirs.get?_setHash_of_ne h]
  rfl

/-- One round of the pass: `p` gets its hash, and what has one keeps it, unless it is the parent. -/
theorem hasHash_rehash {rows : List FileRow} {dirs : Dirs} (h : Filled rows dirs)
    (hrows : ∀ r ∈ rows, Proper '/' r.path) {p : Path} (hp : p ≠ []) (hdir : IsDir rows p) :
    HasHash (rehash dirs p) p ∧ ∀ q, Proper '/' q → q ≠ p → (splitParent p).1 ≠ q →
      HasHash dirs q → HasHash (rehash dirs p) q := by
  have hpp : Proper '/' p := (hdir.properDir hrows).resolve_left hp
  constructor
  · obtain ⟨x, hx⟩ := Option.isSome_iff_exists.1 (h.sub p hp hdir)
    have hne : (splitParent p).1 ≠ p := by
      intro heq
      have hlt : (splitParent p).1.length < p.length := hpp.under_split.length_lt hp
      rw [heq] at hlt
      exact lt_irrefl _ hlt
    rw [HasHash, childrenOf_rehash hne, rehash, Dirs.look_setHash, if_pos rfl, hx]
    rfl
  · intro q hq hqp hup hhash
    have hsplit : splitParent p ≠ splitParent q := fun heq => hqp (hq.eq_of_split hpp heq.symm)
    rw [HasHash, childrenOf_rehash hup, rehash, Dirs.look_setHash, if_neg hsplit]
    exact hhash

theorem hasHash_foldl {rows : List FileRow} (hrows : ∀ r ∈ rows, Proper '/' r.path)
    {ps : List Path} (hps : ∀ p ∈ ps, p ≠ [] ∧ IsDir rows p)
    (hsorted : ps.Pairwise fun a b => b < a) {dirs : Dirs} (h : Filled rows dirs) :
    Filled rows (ps.foldl rehash dirs) ∧ ∀ q ∈ ps, HasHash (ps.foldl rehash dirs) q := by
  induction ps using List.reverseRecOn with
  | nil => exact ⟨h, by simp⟩
  | append_singleton ps p ih =>
    rw [List.foldl_append, List.foldl_cons, List.foldl_nil]
    obtain ⟨hsorted, -, hlast⟩ := List.pairwise_append.1 hsorted
    obtain ⟨hfilled, hhashed⟩ := ih (fun q hq => hps q (by simp [hq])) hsorted
    obtain ⟨hp, hdir⟩ := hps p (by simp)
    obtain ⟨hself, hothers⟩ := hasHash_rehash hfilled hrows hp hdir
    have hpp : Proper '/' p := (hdir.properDir hrows).resolve_left hp
    refine ⟨hfilled.setHash hrows hp hdir _, fun q hq => ?_⟩
    rcases List.mem_append.1 hq with hq | hq
    · -- the pass has gone past the directories below `p` only
      have hlt := hlast q hq p (by simp)
      have hup : (splitParent p).1 < p := hpp.under_split.lt hp
      obtain ⟨hqne, hqdir⟩ := hps q (by simp [hq])
      exact hothers q ((hqdir.properDir hrows).resolve_left hqne) hlt.ne' (hup.trans hlt).ne
        (hhashed q hq)
    · rw [List.mem_singleton.1 hq]
      exact hself

/-- The directories in the order of the pass: the root is the last. -/
theorem exists_keys_eq {rows : List FileRow} {dirs : Dirs} (h : Filled rows dirs) :
    ∃ ps, dirs.keys.reverse = ps ++ [[]] ∧ (∀ p ∈ ps, p ≠ []) ∧
      ps.Pairwise fun a b => b < a := by
  have hsorted : dirs.keys.Pairwise (· < ·) := List.pairwise_map.2 dirs.sorted
  have hnil : [] ∈ dirs.keys := OrdMap.mem_keys.2 ((h.dir []).2 (.inl rfl))
  cases hk : dirs.keys with
  | nil => rw [hk] at hnil; cases hnil
  | cons k ks =>
    rw [hk] at hsorted hnil
    obtain ⟨hfirst, hrest⟩ := List.pairwise_cons.1 hsorted
    obtain rfl : k = [] := by
      rcases List.mem_cons.1 hnil with heq | hmem
      · exact heq.symm
      · exact absurd (hfirst [] hmem) (List.not_lt_nil k)
    refine ⟨ks.reverse, by simp, fun p hp => ?_, List.pairwise_reverse.2 hrest⟩
    exact (hfirst p (List.mem_reverse.1 hp)).ne'

/-- What the pass leaves. -/
theorem isBuilt_hashUp {rows : List FileRow} (hrows : ∀ r ∈ rows, Proper '/' r.path) {dirs : Dirs}
    (h : Filled rows dirs) (leaves : OrdMap Path FileRow) :
    IsBuilt rows (hashUp leaves dirs.keys.reverse dirs) ∧
      (hashUp leaves dirs.keys.reverse dirs).leaves = leaves := by
  obtain ⟨ps, hkeys, hne, hdesc⟩ := exists_keys_eq h
  have hmem : ∀ p, p ∈ ps ↔ p ≠ [] ∧ IsDir rows p := by
    intro p
    have hkey : IsDir rows p ↔ p ∈ ps ∨ p = [] := by
      rw [← h.dir, ← OrdMap.mem_keys, ← List.mem_reverse, hkeys, List.mem_append,
        List.mem_singleton]
    rw [hkey]
    constructor
    · exact fun hp => ⟨hne p hp, .inl hp⟩
    · exact fun hp => hp.2.resolve_right hp.1
  obtain ⟨hfinal, hhashed⟩ := hasHash_foldl hrows (fun p hp => (hmem p).1 hp) hdesc h
  rw [hkeys, hashUp_eq _ hne]
  exact ⟨⟨hfinal, fun q hq hdir => hhashed q ((hmem q).2 ⟨hq, hdir⟩), rfl⟩, rfl⟩

/-- **The tree of the rows.** -/
theorem isBuilt_build {rows : List FileRow} (hrows : ∀ r ∈ rows, Proper '/' r.path) :
    IsBuilt rows (build rows) :=
  (isBuilt_hashUp hrows (Filled.foldl_addRow hrows) _).1

/-- **The tree of sorted rows.** -/
theorem isTree_build {rows : List FileRow} (hrows : ∀ r ∈ rows, Proper '/' r.path)
    (hsorted : rows.Pairwise fun a b => a.path < b.path) : IsTree rows (build rows) := by
  have hbuilt := isBuilt_build hrows
  have hlisted := hbuilt.toFilled.listed hrows hsorted
  refine ⟨hlisted, fun q hq hdir => ?_, hbuilt.root, fun p r => ?_⟩
  · have hqq : Proper '/' q := (hdir.properDir hrows).resolve_left hq
    obtain ⟨⟨x, b⟩, hx, hhash⟩ := Option.map_eq_some_iff.1 (hbuilt.hashed q hq hdir)
    have hjoin : joinPrefix (splitParent q).1 (splitParent q).2 = q := hqq.split_spec.2.2
    have hb : b = true := (hlisted.isDir _ _ x b hx).2 (hjoin.symm ▸ hdir)
    rw [Hashed, hx, hb, ← hhash]
  · rw [← leaves_foldl hsorted p r]
    exact iff_of_eq (congrArg (fun leaves : OrdMap Path FileRow => leaves.get? p = some r)
      (isBuilt_hashUp hrows (Filled.foldl_addRow hrows) _).2)

end Replicore
