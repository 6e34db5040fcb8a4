import Mathlib.Data.List.MinMax
import Replicore.Merkle.Build
import Replicore.Merkle.Leaf

/-!
# Where two trees agree

The rows as a map from paths to what a leaf tells of a row (`dataAt`), and the part of it that has
leaves in the tree (`leafAt`): the rows with nothing below their paths.  If two lists of rows agree
on the leaves below a directory, and their entries on which paths below are directories, the trees
list the same children there (`IsBuilt.childrenOf_congr`).
-/

namespace Replicore

open Bytes MerkleTree
open Hier (IsName Proper ProperDir Under)

/-- Some row is strictly below the path. -/
def HasBelow (rows : List FileRow) (p : Path) : Prop := ∃ r ∈ rows, Under '/' p r.path

instance decidableHasBelow (rows : List FileRow) (p : Path) : Decidable (HasBelow rows p) :=
  List.decidableBEx _ _

/-- The paths are not longer than the longest of them. -/
theorem exists_length_le (rows : List FileRow) : ∃ M, ∀ r ∈ rows, r.path.length ≤ M :=
  ⟨(rows.map fun r => r.path.length).foldr max 0, fun _ hr =>
    List.le_max_of_le (List.mem_map_of_mem hr) le_rfl⟩

/-- The row at a path, as a leaf tells of it. -/
def dataAt (rows : List FileRow) (p : Path) : Option LeafData :=
  (rows.find? fun r => r.path = p).map FileRow.leafData

/-- The row at a path that has nothing below it. -/
def leafAt (rows : List FileRow) (p : Path) : Option LeafData :=
  if HasBelow rows p then none else dataAt rows p

/-- The lists agree as maps. -/
def SameRows (rows rows' : List FileRow) : Prop := ∀ p, dataAt rows p = dataAt rows' p

theorem isDir_iff {rows : List FileRow} {p : Path} (hp : p ≠ []) :
    IsDir rows p ↔ HasBelow rows p :=
  ⟨fun h => h.resolve_left hp, .inr⟩

/-- Rows with distinct paths of non-empty components, without NUL, with lengths and counters that
fit their types. -/
structure WellKeyed (rows : List FileRow) : Prop where
  proper : ∀ r ∈ rows, Proper '/' r.path
  noNul : ∀ r ∈ rows, '\x00' ∉ r.path
  distinct : (rows.map FileRow.path).Nodup
  fits : ∀ r ∈ rows, r.vv.FitsU64
  metaFits : ∀ r ∈ rows, ∀ m, r.metadata = some m → m.Fits

section Maps

variable {rows rows' : List FileRow} {p : Path} {x : LeafData}

theorem eq_of_path_eq (h : (rows.map FileRow.path).Nodup) {r r' : FileRow} (hr : r ∈ rows)
    (hr' : r' ∈ rows) (hp : r.path = r'.path) : r = r' :=
  List.inj_on_of_nodup_map h hr hr' hp

theorem exists_of_dataAt (h : dataAt rows p = some x) :
    ∃ r ∈ rows, r.path = p ∧ r.leafData = x := by
  obtain ⟨r, hfind, hx⟩ := Option.map_eq_some_iff.1 h
  exact ⟨r, List.mem_of_find?_eq_some hfind, of_decide_eq_true (List.find?_some hfind :), hx⟩

theorem dataAt_eq_none : dataAt rows p = none ↔ ∀ r ∈ rows, r.path ≠ p := by
  simp [dataAt]

theorem exists_dataAt {r : FileRow} (hr : r ∈ rows) : ∃ x, dataAt rows r.path = some x :=
  Option.ne_none_iff_exists'.1 fun h => dataAt_eq_none.1 h r hr rfl

theorem dataAt_of_mem (h : (rows.map FileRow.path).Nodup) {r : FileRow} (hr : r ∈ rows) :
    dataAt rows r.path = some r.leafData := by
  obtain ⟨x, hx⟩ := exists_dataAt hr
  obtain ⟨r', hr', hp, rfl⟩ := exists_of_dataAt hx
  rw [hx, eq_of_path_eq h hr hr' hp.symm]

theorem leafAt_of_not_hasBelow (h : ¬ HasBelow rows p) : leafAt rows p = dataAt rows p :=
  if_neg h

theorem leafAt_eq_some : leafAt rows p = some x ↔ ¬ HasBelow rows p ∧ dataAt rows p = some x := by
  unfold leafAt
  split_ifs with h
  · simp [h]
  · simp [h]

theorem hasBelow_iff_data : HasBelow rows p ↔ ∃ q x, Under '/' p q ∧ dataAt rows q = some x := by
  constructor
  · rintro ⟨r, hr, hu⟩
    obtain ⟨x, hx⟩ := exists_dataAt hr
    exact ⟨r.path, x, hu, hx⟩
  · rintro ⟨q, x, hu, hx⟩
    obtain ⟨r, hr, rfl, -⟩ := exists_of_dataAt hx
    exact ⟨r, hr, hu⟩

theorem hasBelow_congr (h : ∀ q, Under '/' p q → dataAt rows q = dataAt rows' q) :
    HasBelow rows p ↔ HasBelow rows' p := by
  rw [hasBelow_iff_data, hasBelow_iff_data]
  exact exists_congr fun q => exists_congr fun x => and_congr_right fun hu => by rw [h q hu]

/-- A path has rows below it exactly if it has leaves below it: the longest of the rows is one. -/
theorem hasBelow_iff_leaf (hrows : ∀ r ∈ rows, Proper '/' r.path) :
    HasBelow rows p ↔ ∃ q x, Under '/' p q ∧ q ≠ [] ∧ leafAt rows q = some x := by
  constructor
  · rintro ⟨r₀, hr₀, hu₀⟩
    set below := rows.filter fun r => Under '/' p r.path with hbelow
    have hmem : ∀ r, r ∈ below ↔ r ∈ rows ∧ Under '/' p r.path := by simp [hbelow]
    obtain ⟨r, hmax⟩ : ∃ r, r ∈ below.argmax fun r => r.path.length := by
      refine Option.ne_none_iff_exists'.1 fun hnone => ?_
      rw [List.argmax_eq_none] at hnone
      exact List.ne_nil_of_mem ((hmem r₀).2 ⟨hr₀, hu₀⟩) hnone
    obtain ⟨hr, hu⟩ := (hmem r).1 (List.argmax_mem hmax)
    obtain ⟨x, hx⟩ := exists_dataAt hr
    refine ⟨r.path, x, hu, (hrows r hr).ne_nil, leafAt_eq_some.2 ⟨?_, hx⟩⟩
    rintro ⟨r', hr', hu'⟩
    have hle := List.le_of_mem_argmax ((hmem r').2 ⟨hr', hu.trans hu'⟩) hmax
    exact absurd (hu'.length_lt (hrows r' hr').ne_nil) (not_lt.2 hle)
  · rintro ⟨q, x, hu, -, hleaf⟩
    obtain ⟨r, hr, rfl, -⟩ := exists_of_dataAt (leafAt_eq_some.1 hleaf).2
    exact ⟨r, hr, hu⟩

end Maps

/-! ### Entries -/

theorem look_eq_childrenOf (dirs : Dirs) (d n : Path) :
    dirs.look d n = (childrenOf dirs d).get? n := by
  unfold Dirs.look childrenOf
  cases dirs.get? d with
  | none => rfl
  | some c => rfl

variable [Blake3]

namespace IsBuilt

variable {rows rows' : List FileRow} {t t' : MerkleTree} {d n : Path}

/-- There is an entry for what is a directory or has a row. -/
theorem isSome_look (h : IsBuilt rows t) (hn : IsName '/' n)
    (hor : HasBelow rows (joinPrefix d n) ∨ ∃ r ∈ rows, r.path = joinPrefix d n) :
    (t.dirs.look d n).isSome := by
  have hsplit : splitParent (joinPrefix d n) = (d, n) := Hier.split_join hn
  rcases hor with hbelow | ⟨r, hr, hp⟩
  · have hsub := h.sub _ (join_ne_nil hn) (.inr hbelow)
    rwa [hsplit] at hsub
  · have hrow := h.row r hr
    rwa [hp, hsplit] at hrow

/-- An entry is that of a path with rows below it, or of a row. -/
theorem look_cases (h : IsBuilt rows t) {x : Hash × Bool} (hx : t.dirs.look d n = some x) :
    (HasBelow rows (joinPrefix d n) ∧ x = (hashChildren (childrenOf t.dirs (joinPrefix d n)),
      !decide (EndsAt rows (joinPrefix d n)))) ∨
    (¬ HasBelow rows (joinPrefix d n) ∧
      ∃ r ∈ rows, r.path = joinPrefix d n ∧ x = (leafHash r, false)) := by
  have hn := h.name d n x hx
  have hne : joinPrefix d n ≠ [] := join_ne_nil hn
  have hsplit : splitParent (joinPrefix d n) = (d, n) := Hier.split_join hn
  have hflag := h.flag d n x.1 x.2 hx
  by_cases hb : HasBelow rows (joinPrefix d n)
  · have hhash := h.hashed _ hne (.inr hb)
    rw [HasHash, hsplit, hx] at hhash
    refine .inl ⟨hb, Prod.ext (Option.some.inj hhash) ?_⟩
    by_cases hends : EndsAt rows (joinPrefix d n)
    · simp [hends, hflag.2 hends]
    · simp [hends, mt hflag.1 hends]
  · have hnot : ¬ IsDir rows (joinPrefix d n) := mt (isDir_iff hne).1 hb
    obtain ⟨r, hr, hp, hhash⟩ := h.leaf d n x hx hnot
    have hfalse := hflag.2 ((endsAt_of_not_isDir hne hnot).2 ⟨r, hr, hp⟩)
    exact .inr ⟨hb, r, hr, hp, Prod.ext hhash hfalse⟩

/-- The entry of a path with rows below it. -/
theorem look_of_hasBelow (h : IsBuilt rows t) (hn : IsName '/' n)
    (hb : HasBelow rows (joinPrefix d n)) :
    t.dirs.look d n = some (hashChildren (childrenOf t.dirs (joinPrefix d n)),
      !decide (EndsAt rows (joinPrefix d n))) := by
  obtain ⟨x, hx⟩ := Option.isSome_iff_exists.1 (h.isSome_look hn (.inl hb))
  obtain ⟨-, heq⟩ | ⟨hnot, -⟩ := h.look_cases hx
  · rw [hx, heq]
  · exact absurd hb hnot

/-- The entry of a row with nothing below it. -/
theorem look_of_row (h : IsBuilt rows t) (hdistinct : (rows.map FileRow.path).Nodup)
    (hn : IsName '/' n) {r : FileRow} (hr : r ∈ rows) (hp : r.path = joinPrefix d n)
    (hb : ¬ HasBelow rows (joinPrefix d n)) : t.dirs.look d n = some (leafHash r, false) := by
  obtain ⟨x, hx⟩ := Option.isSome_iff_exists.1 (h.isSome_look hn (.inr ⟨r, hr, hp⟩))
  obtain ⟨hb', -⟩ | ⟨-, r', hr', hp', heq⟩ := h.look_cases hx
  · exact absurd hb' hb
  · rw [hx, heq, eq_of_path_eq hdistinct hr' hr (hp'.trans hp.symm)]

/-- Otherwise there is none. -/
theorem look_eq_none (h : IsBuilt rows t) (hb : ¬ HasBelow rows (joinPrefix d n))
    (hrow : ∀ r ∈ rows, r.path ≠ joinPrefix d n) : t.dirs.look d n = none := by
  refine Option.eq_none_iff_forall_not_mem.2 fun x hx => ?_
  obtain ⟨hb', -⟩ | ⟨-, r, hr, hp, -⟩ := h.look_cases hx
  · exact hb hb'
  · exact hrow r hr hp

/-- A directory with rows below it has a last child. -/
theorem exists_last (h : IsBuilt rows t) (hproper : ∀ r ∈ rows, Proper '/' r.path) {p : Path}
    (hb : HasBelow rows p) : ∃ es e, (childrenOf t.dirs p).entries = es ++ [e] ∧
      t.dirs.look p e.1 = some e.2 := by
  obtain ⟨r, hr, hu⟩ := hb
  obtain ⟨n, hn, hor⟩ := hu.exists_child (hproper r hr)
  obtain ⟨x, hx⟩ := Option.isSome_iff_exists.1 <|
    h.isSome_look hn (hor.elim (fun hp => .inr ⟨r, hr, hp⟩) fun hb => .inl ⟨r, hr, hb⟩)
  rw [look_eq_childrenOf] at hx
  have hne : (childrenOf t.dirs p).entries ≠ [] := List.ne_nil_of_mem (OrdMap.mem_entries.2 hx)
  refine ⟨_, _, (List.dropLast_append_getLast hne).symm, ?_⟩
  rw [look_eq_childrenOf]
  exact OrdMap.mem_entries.1 (List.getLast_mem hne)

/-- The children that two trees list are the same, where the lists agree below. -/
theorem childrenOf_congr (h : IsBuilt rows t) (h' : IsBuilt rows' t')
    (hproper : ∀ r ∈ rows, Proper '/' r.path) (hproper' : ∀ r ∈ rows', Proper '/' r.path)
    (hdistinct : (rows.map FileRow.path).Nodup) (hdistinct' : (rows'.map FileRow.path).Nodup)
    (hleaf : ∀ p, Under '/' d p → p ≠ [] → leafAt rows p = leafAt rows' p)
    (hends : ∀ p, Under '/' d p → p ≠ [] → HasBelow rows p → (EndsAt rows p ↔ EndsAt rows' p)) :
    childrenOf t.dirs d = childrenOf t'.dirs d := by
  obtain ⟨M, hM⟩ := exists_length_le rows
  have hbelow : ∀ p, Under '/' d p → (HasBelow rows p ↔ HasBelow rows' p) := by
    intro p hp
    rw [hasBelow_iff_leaf hproper, hasBelow_iff_leaf hproper']
    refine exists_congr fun q => exists_congr fun x => and_congr_right fun hu =>
      and_congr_right fun hq => ?_
    rw [hleaf q (hp.trans hu) hq]
  -- from the deepest directories up
  induction hk : M - d.length using Nat.strong_induction_on generalizing d with
  | _ k ih =>
    refine OrdMap.ext_get? fun n => ?_
    rw [← look_eq_childrenOf, ← look_eq_childrenOf]
    by_cases hn : IsName '/' n
    · have hne : joinPrefix d n ≠ [] := join_ne_nil hn
      have hu : Under '/' d (joinPrefix d n) := Hier.under_join
      by_cases hb : HasBelow rows (joinPrefix d n)
      · have hb' := (hbelow _ hu).1 hb
        have hsub : childrenOf t.dirs (joinPrefix d n) = childrenOf t'.dirs (joinPrefix d n) := by
          have hlt : d.length < (joinPrefix d n).length := hu.length_lt hne
          have hlt' : (joinPrefix d n).length < M := by
            obtain ⟨r, hr, hur⟩ := hb
            exact (hur.length_lt (hproper r hr).ne_nil).trans_le (hM r hr)
          exact ih (M - (joinPrefix d n).length) (by omega)
            (fun p hp => hleaf p (hu.trans hp)) (fun p hp => hends p (hu.trans hp))
            (fun p hp => hbelow p (hu.trans hp)) rfl
        rw [h.look_of_hasBelow hn hb, h'.look_of_hasBelow hn hb', hsub]
        simp only [hends _ hu hne hb]
      · have hb' := mt (hbelow _ hu).2 hb
        have hdata := hleaf _ hu hne
        rw [leafAt_of_not_hasBelow hb, leafAt_of_not_hasBelow hb'] at hdata
        cases hx : dataAt rows (joinPrefix d n) with
        | none =>
          rw [h.look_eq_none hb (dataAt_eq_none.1 hx),
            h'.look_eq_none hb' (dataAt_eq_none.1 (hdata ▸ hx))]
        | some x =>
          obtain ⟨r, hr, hp, hrx⟩ := exists_of_dataAt hx
          obtain ⟨r', hr', hp', hrx'⟩ := exists_of_dataAt (hdata ▸ hx)
          rw [h.look_of_row hdistinct hn hr hp hb, h'.look_of_row hdistinct' hn hr' hp' hb',
            leafHash, leafHash, leafBytes_congr (hp.trans hp'.symm) (hrx.trans hrx'.symm)]
    · have hnone : ∀ {s : List FileRow} {u : MerkleTree}, IsBuilt s u → u.dirs.look d n = none :=
        fun hu => Option.eq_none_iff_forall_not_mem.2 fun x hx => hn (hu.name d n x hx)
      rw [hnone h, hnone h']

end IsBuilt

end Replicore
