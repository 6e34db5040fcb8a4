import Replicore.Merkle.Complete

/-!
# What the root identifies

Two lists of rows have trees of one root exactly if they have the same leaves, and the same of the
rows with other rows below their paths stand behind all of these (`root_eq_iff`).  So the root is
blind to the other rows of that kind, and it depends on the order of the rows: it identifies the
rows as a map, up to just these two (`root_identifies_iff`), and always when no row has another
below its path (`root_eq_iff_sameRows`).

Child names are hashed without their lengths.  A listing can still be taken apart, from its end: the
hash of the last child determines the path of that child, and so where its name begins (`path_eq`).
-/

namespace Replicore

open Bytes MerkleTree
open Hier (IsName Proper ProperDir Under)

/-! ### Taking a listing apart -/

/-- The last child: its flag and its hash are the last bytes. -/
theorem childBytes_last_inj {es es' : List (Path × Hash × Bool)} {e e' : Path × Hash × Bool}
    (h : (es ++ [e]).flatMap childBytes = (es' ++ [e']).flatMap childBytes) : e.2 = e'.2 := by
  have hsplit : ∀ (es : List (Path × Hash × Bool)) (e : Path × Hash × Bool),
      (es ++ [e]).flatMap childBytes =
        (es.flatMap childBytes ++ (utf8 e.1 ++ [byte 1])) ++ boolByte e.2.2 :: Hash.bytes e.2.1 := by
    intro es e
    simp [childBytes]
  rw [hsplit, hsplit] at h
  obtain ⟨-, htail⟩ := List.append_inj' h (by simp [Hash.bytes])
  obtain ⟨hflag, hhash⟩ := List.cons.inj htail
  exact Prod.ext (Hash.bytes_inj hhash) (boolByte_inj hflag)

/-- Where flag and hash determine the name, the bytes determine the children. -/
theorem childBytes_inj {es es' : List (Path × Hash × Bool)}
    (hname : ∀ e ∈ es, ∀ e' ∈ es', e.2 = e'.2 → e.1 = e'.1)
    (h : es.flatMap childBytes = es'.flatMap childBytes) : es = es' := by
  induction es using List.reverseRecOn generalizing es' with
  | nil =>
    cases es' with
    | nil => rfl
    | cons e' es' =>
      rw [List.flatMap_cons, childBytes] at h
      simp at h
  | append_singleton es e ih =>
    rcases List.eq_nil_or_concat es' with rfl | ⟨es', e', rfl⟩
    · rw [List.flatMap_append, List.flatMap_singleton, childBytes] at h
      simp at h
    · rw [List.concat_eq_append] at hname h ⊢
      have hlast := childBytes_last_inj h
      have he : e = e' := Prod.ext (hname e (by simp) e' (by simp) hlast) hlast
      subst he
      rw [List.flatMap_append, List.flatMap_append] at h
      rw [ih (fun x hx x' hx' => hname x (by simp [hx]) x' (by simp [hx']))
        (List.append_cancel_right h)]

/-! ### How two lists can agree -/

/-- The lists have the same rows with nothing below their paths. -/
def SameLeaves (rows rows' : List FileRow) : Prop := ∀ p, leafAt rows p = leafAt rows' p

/-- Where there are rows below a path, the row of the path stands behind them in both lists or in
none. -/
def SameEnds (rows rows' : List FileRow) : Prop :=
  ∀ p, HasBelow rows p → (EndsAt rows p ↔ EndsAt rows' p)

/-- Where there are rows below a path, the rows of the path agree. -/
def SameShadowed (rows rows' : List FileRow) : Prop :=
  ∀ p, HasBelow rows p → dataAt rows p = dataAt rows' p

/-- No row has another below its path. -/
def Clear (rows : List FileRow) : Prop := ∀ r ∈ rows, ¬ HasBelow rows r.path

instance decidableClear (rows : List FileRow) : Decidable (Clear rows) := List.decidableBAll _ _

theorem Clear.hasBelow {rows : List FileRow} (h : Clear rows) {p : Path} (hb : HasBelow rows p) :
    ¬ EndsAt rows p ∧ dataAt rows p = none := by
  have hrow : ∀ r ∈ rows, r.path ≠ p := fun r hr hp => h r hr (hp ▸ hb)
  refine ⟨fun hends => ?_, dataAt_eq_none.2 hrow⟩
  obtain ⟨r, hr, hp⟩ := exists_of_endsAt hends
  exact hrow r hr hp

/-- Such rows have nothing that the root does not identify. -/
theorem Clear.same {rows rows' : List FileRow} (h : Clear rows) (h' : Clear rows')
    (hrows : ∀ r ∈ rows, Proper '/' r.path) (hrows' : ∀ r ∈ rows', Proper '/' r.path)
    (hleaves : SameLeaves rows rows') : SameEnds rows rows' ∧ SameShadowed rows rows' := by
  have hbelow : ∀ p, HasBelow rows p → HasBelow rows' p := by
    intro p hb
    obtain ⟨q, x, hu, hq, hx⟩ := (hasBelow_iff_leaf hrows).1 hb
    exact (hasBelow_iff_leaf hrows').2 ⟨q, x, hu, hq, (hleaves q).symm.trans hx⟩
  refine ⟨fun p hb => iff_of_false (h.hasBelow hb).1 (h'.hasBelow (hbelow p hb)).1, fun p hb => ?_⟩
  rw [(h.hasBelow hb).2, (h'.hasBelow (hbelow p hb)).2]

/-- The lists agree as maps if they agree on the rows with nothing below them and on the others. -/
theorem sameRows_iff {rows rows' : List FileRow} (hrows : ∀ r ∈ rows, Proper '/' r.path)
    (hrows' : ∀ r ∈ rows', Proper '/' r.path) :
    SameRows rows rows' ↔ SameLeaves rows rows' ∧ SameShadowed rows rows' := by
  constructor
  · intro hsame
    refine ⟨fun p => ?_, fun p _ => hsame p⟩
    simp only [leafAt, hasBelow_congr fun q _ => hsame q, hsame p]
  · rintro ⟨hleaves, hshadowed⟩ p
    by_cases hb : HasBelow rows p
    · exact hshadowed p hb
    · have hb' : ¬ HasBelow rows' p := by
        rw [hasBelow_iff_leaf hrows']
        rintro ⟨q, x, hu, hq, hx⟩
        exact hb ((hasBelow_iff_leaf hrows).2 ⟨q, x, hu, hq, (hleaves q).trans hx⟩)
      rw [← leafAt_of_not_hasBelow hb, hleaves p, leafAt_of_not_hasBelow hb']

/-! ### What is hashed -/

/-- The bytes of a listing. -/
def MerkleTree.listingBytes (children : Children) : List Byte := children.entries.flatMap childBytes

section

variable [Blake3]

/-- Every byte string that is hashed to build the tree: metadata, leaves and listings. -/
def MerkleTree.hashedBytes (rows : List FileRow) : List (List Byte) :=
  rows.filterMap (fun r => r.metadata.map Meta.serialize) ++
    (rows.map leafBytes ++ (build rows).listings.map listingBytes)

/-- BLAKE3 is injective on what the two builds hash, and no metadata has the hash that stands for
none. -/
structure NoCollision (rows rows' : List FileRow) : Prop where
  inj : ∀ b ∈ hashedBytes rows ++ hashedBytes rows', ∀ b' ∈ hashedBytes rows ++ hashedBytes rows',
    Blake3.hash b = Blake3.hash b' → b = b'
  absent : ∀ r ∈ rows ++ rows', ∀ m, r.metadata = some m → Blake3.hash m.serialize ≠ metaNone

/-- Leaves and listings have no tag that tells them apart.  The flag in the parent does, unless it
says that a directory is none: no leaf of the other side is made of the bytes of such a
directory. -/
structure BytesApart (rows rows' : List FileRow) : Prop extends NoCollision rows rows' where
  leaf_dir : ∀ r ∈ rows, ∀ r' ∈ rows', HasBelow rows' r'.path → EndsAt rows' r'.path →
    leafBytes r ≠ listingBytes (childrenOf (build rows').dirs r'.path)
  dir_leaf : ∀ r' ∈ rows', ∀ r ∈ rows, HasBelow rows r.path → EndsAt rows r.path →
    leafBytes r' ≠ listingBytes (childrenOf (build rows).dirs r.path)

/-- In such rows no entry of a directory says that it is none. -/
theorem NoCollision.bytesApart {rows rows' : List FileRow} (h : NoCollision rows rows')
    (hclear : Clear rows) (hclear' : Clear rows') : BytesApart rows rows' where
  toNoCollision := h
  leaf_dir _ _ r' hr' hb := absurd hb (hclear' r' hr')
  dir_leaf _ _ r hr hb := absurd hb (hclear r hr)

theorem BytesApart.symm {rows rows' : List FileRow} (h : BytesApart rows rows') :
    BytesApart rows' rows where
  inj b hb b' hb' := h.inj b (List.mem_append.2 (List.mem_append.1 hb).symm) b'
    (List.mem_append.2 (List.mem_append.1 hb').symm)
  absent r hr := h.absent r (List.mem_append.2 (List.mem_append.1 hr).symm)
  leaf_dir := h.dir_leaf
  dir_leaf := h.leaf_dir

section

variable {rows rows' : List FileRow}

theorem leafBytes_mem {r : FileRow} (hr : r ∈ rows) : leafBytes r ∈ hashedBytes rows :=
  List.mem_append_right _ (List.mem_append_left _ (List.mem_map_of_mem hr))

theorem listingBytes_mem (hwell : WellKeyed rows) {d : Path} (hd : IsDir rows d) :
    listingBytes (childrenOf (build rows).dirs d) ∈ hashedBytes rows := by
  obtain ⟨c, hc⟩ := Option.isSome_iff_exists.1 (((isBuilt_build hwell.proper).dir d).2 hd)
  have hmem : (d, c) ∈ (build rows).dirs.entries := OrdMap.mem_entries.2 hc
  have hlist : c ∈ (build rows).listings := List.mem_map_of_mem (f := Prod.snd) hmem
  rw [childrenOf, hc]
  exact List.mem_append_right _ (List.mem_append_right _ (List.mem_map_of_mem hlist))

theorem serialize_mem {r : FileRow} (hr : r ∈ rows) {m : Meta} (hm : r.metadata = some m) :
    m.serialize ∈ hashedBytes rows :=
  List.mem_append_left _ (List.mem_filterMap.2 ⟨r, hr, by rw [hm]; rfl⟩)

variable (hwell : WellKeyed rows) (hwell' : WellKeyed rows') (hapart : BytesApart rows rows')

include hwell hwell' hapart

/-- Rows of equal leaves have one path, and the leaves tell the same of them. -/
theorem leafData_eq {r r' : FileRow} (hr : r ∈ rows) (hr' : r' ∈ rows')
    (h : leafHash r = leafHash r') : r.path = r'.path ∧ r.leafData = r'.leafData := by
  have hbytes := hapart.inj _ (List.mem_append_left _ (leafBytes_mem hr)) _
    (List.mem_append_right _ (leafBytes_mem hr')) h
  refine leafBytes_inj (hwell.noNul r hr) (hwell'.noNul r' hr') (hwell.fits r hr)
    (hwell'.fits r' hr') (fun hhash => ?_) hbytes
  cases hm : r.metadata with
  | none =>
    cases hm' : r'.metadata with
    | none => rfl
    | some m' =>
      rw [hm, hm'] at hhash
      exact absurd hhash.symm (hapart.absent r' (List.mem_append_right _ hr') m' hm')
  | some m =>
    cases hm' : r'.metadata with
    | none =>
      rw [hm, hm'] at hhash
      exact absurd hhash (hapart.absent r (List.mem_append_left _ hr) m hm)
    | some m' =>
      rw [hm, hm'] at hhash
      have hser := hapart.inj _ (List.mem_append_left _ (serialize_mem hr hm)) _
        (List.mem_append_right _ (serialize_mem hr' hm')) hhash
      rw [Meta.serialize_inj (hwell.metaFits r hr m hm) (hwell'.metaFits r' hr' m' hm') hser]

omit hwell' in
/-- No leaf of the other side is made of the bytes of a directory that is said to be none. -/
theorem leafHash_ne {p : Path} (hb : HasBelow rows p) (hends : EndsAt rows p) {r' : FileRow}
    (hr' : r' ∈ rows') : leafHash r' ≠ hashChildren (childrenOf (build rows).dirs p) := by
  intro heq
  obtain ⟨r, hr, rfl⟩ := exists_of_endsAt hends
  exact hapart.dir_leaf r' hr' r hr hb hends (hapart.inj _
    (List.mem_append_right _ (leafBytes_mem hr')) _
    (List.mem_append_left _ (listingBytes_mem hwell (.inr hb))) heq)

/-- Entries of one hash and flag are both of directories, or both of leaves. -/
theorem hasBelow_of_entry {d n d' n' : Path} {x : Hash × Bool}
    (hx : (build rows).dirs.look d n = some x) (hx' : (build rows').dirs.look d' n' = some x)
    (hb : HasBelow rows (joinPrefix d n)) : HasBelow rows' (joinPrefix d' n') := by
  by_contra hb'
  obtain ⟨-, hdir⟩ | ⟨hnot, -⟩ := (isBuilt_build hwell.proper).look_cases hx
  · obtain ⟨hb', -⟩ | ⟨-, r', hr', -, hleaf⟩ := (isBuilt_build hwell'.proper).look_cases hx'
    · contradiction
    · obtain ⟨hhash, hflag⟩ := Prod.mk.inj (hleaf.symm.trans hdir)
      have hends : EndsAt rows (joinPrefix d n) := by simpa using hflag
      exact leafHash_ne hwell hapart hb hends hr' hhash
  · exact hnot hb

/-- Listings of one hash have the same bytes. -/
theorem listingBytes_eq {p p' : Path} (hd : IsDir rows p) (hd' : IsDir rows' p')
    (h : hashChildren (childrenOf (build rows).dirs p) =
      hashChildren (childrenOf (build rows').dirs p')) :
    listingBytes (childrenOf (build rows).dirs p) =
      listingBytes (childrenOf (build rows').dirs p') :=
  hapart.inj _ (List.mem_append_left _ (listingBytes_mem hwell hd)) _
    (List.mem_append_right _ (listingBytes_mem hwell' hd')) h

/-- **Where an entry stands.**  Entries of one hash and flag in the two trees have one path: that of
the row, or the one above the last child. -/
theorem path_eq {d n d' n' : Path} {x : Hash × Bool}
    (hx : (build rows).dirs.look d n = some x) (hx' : (build rows').dirs.look d' n' = some x) :
    joinPrefix d n = joinPrefix d' n' := by
  have h := isBuilt_build hwell.proper
  have h' := isBuilt_build hwell'.proper
  obtain ⟨M, hM⟩ := exists_length_le rows
  -- from the deepest directories up
  induction hk : M - (joinPrefix d n).length using Nat.strong_induction_on
    generalizing d n d' n' x with
  | _ k ih =>
    obtain ⟨hb, hdir⟩ | ⟨hb, r, hr, hp, hleaf⟩ := h.look_cases hx
    · have hb' := hasBelow_of_entry hwell hwell' hapart hx hx' hb
      have hdir' := h'.look_of_hasBelow (h'.name d' n' x hx') hb'
      rw [hx', Option.some.injEq] at hdir'
      have hbytes := listingBytes_eq hwell hwell' hapart (.inr hb) (.inr hb')
        (congrArg Prod.fst (hdir.symm.trans hdir'))
      -- the last children have one path, so their directories have
      obtain ⟨es, e, hes, hlast⟩ := h.exists_last hwell.proper hb
      obtain ⟨es', e', hes', hlast'⟩ := h'.exists_last hwell'.proper hb'
      rw [listingBytes, listingBytes, hes, hes'] at hbytes
      rw [← childBytes_last_inj hbytes] at hlast'
      have hn := h.name _ _ _ hlast
      have hlt : (joinPrefix d n).length < (joinPrefix (joinPrefix d n) e.1).length :=
        Hier.under_join.length_lt (join_ne_nil hn)
      have hlt' : (joinPrefix d n).length < M := by
        obtain ⟨r, hr, hu⟩ := hb
        exact (hu.length_lt (hwell.proper r hr).ne_nil).trans_le (hM r hr)
      have hpath := ih (M - (joinPrefix (joinPrefix d n) e.1).length) (by omega) hlast hlast' rfl
      have hsplit := (h.split_eq hlast).symm.trans
        ((congrArg splitParent hpath).trans (h'.split_eq hlast'))
      exact congrArg Prod.fst hsplit
    · obtain ⟨hb', -⟩ | ⟨-, r', hr', hp', hleaf'⟩ := h'.look_cases hx'
      · exact absurd (hasBelow_of_entry hwell' hwell hapart.symm hx' hx hb') hb
      · have hhash := congrArg Prod.fst (hleaf.symm.trans hleaf')
        rw [← hp, ← hp', (leafData_eq hwell hwell' hapart hr hr' hhash).1]

/-- **Listings of one directory are told apart by their hashes.** -/
theorem childrenOf_eq {d : Path} (hd : IsDir rows d) (hd' : IsDir rows' d)
    (heq : hashChildren (childrenOf (build rows).dirs d) =
      hashChildren (childrenOf (build rows').dirs d)) :
    childrenOf (build rows).dirs d = childrenOf (build rows').dirs d := by
  have h := isBuilt_build hwell.proper
  have h' := isBuilt_build hwell'.proper
  refine OrdMap.entries_inj.1 (childBytes_inj ?_ (listingBytes_eq hwell hwell' hapart hd hd' heq))
  rintro ⟨n, x⟩ he ⟨n', x'⟩ he' hx
  obtain rfl : x = x' := hx
  have hlook : (build rows).dirs.look d n = some x := by
    rw [look_eq_childrenOf]
    exact OrdMap.mem_entries.1 he
  have hlook' : (build rows').dirs.look d n' = some x := by
    rw [look_eq_childrenOf]
    exact OrdMap.mem_entries.1 he'
  have hpath := path_eq hwell hwell' hapart hlook hlook'
  have hsplit := (h.split_eq hlook).symm.trans
    ((congrArg splitParent hpath).trans (h'.split_eq hlook'))
  exact congrArg Prod.snd hsplit

/-! ### From the root down -/

/-- Trees of one root list the same everywhere. -/
theorem childrenOf_eq_of_root (hroot : (build rows).root = (build rows').root) {d : Path}
    (hd : IsDir rows d) :
    IsDir rows' d ∧ childrenOf (build rows).dirs d = childrenOf (build rows').dirs d := by
  have h := isBuilt_build hwell.proper
  have h' := isBuilt_build hwell'.proper
  -- one directory down, from a directory `d` where they list the same
  have hstep : ∀ d n, IsName '/' n → HasBelow rows (joinPrefix d n) →
      childrenOf (build rows).dirs d = childrenOf (build rows').dirs d →
      IsDir rows' (joinPrefix d n) ∧ childrenOf (build rows).dirs (joinPrefix d n) =
        childrenOf (build rows').dirs (joinPrefix d n) := by
    intro d n hn hb hsame
    have hlook := h.look_of_hasBelow hn hb
    have hlook' := hlook
    rw [look_eq_childrenOf, hsame, ← look_eq_childrenOf] at hlook'
    have hb' := hasBelow_of_entry hwell hwell' hapart hlook hlook' hb
    have hdir' := h'.look_of_hasBelow hn hb'
    rw [hlook', Option.some.injEq] at hdir'
    exact ⟨.inr hb', childrenOf_eq hwell hwell' hapart (.inr hb) (.inr hb')
      (congrArg Prod.fst hdir')⟩
  rcases hd.properDir hwell.proper with rfl | hproper
  · rw [h.root, h'.root] at hroot
    exact ⟨.inl rfl, childrenOf_eq hwell hwell' hapart (.inl rfl) (.inl rfl) hroot⟩
  · induction hproper with
    | name hn =>
      rw [h.root, h'.root] at hroot
      have hsame := childrenOf_eq hwell hwell' hapart (.inl rfl) (.inl rfl) hroot
      exact hstep [] _ hn ((isDir_iff hn.1).1 hd) hsame
    | @sub d n hpd hn ih =>
      have hup : IsDir rows d := by
        obtain ⟨r, hr, hu⟩ := (isDir_iff (by simp)).1 hd
        exact .inr ⟨r, hr, Hier.Under.trans (.inr ⟨n, rfl⟩) hu⟩
      have hjoin : joinPrefix d n = d ++ '/' :: n := if_neg hpd.ne_nil
      have hdown := hstep d n hn (hjoin ▸ (isDir_iff (by simp)).1 hd) (ih hup).2
      rwa [hjoin] at hdown

/-- Trees of one root: each leaf of one is a leaf of the other. -/
theorem leafAt_of_root (hroot : (build rows).root = (build rows').root) {p : Path} {x : LeafData}
    (hx : leafAt rows p = some x) : leafAt rows' p = some x := by
  have h := isBuilt_build hwell.proper
  have h' := isBuilt_build hwell'.proper
  obtain ⟨hb, hdata⟩ := leafAt_eq_some.1 hx
  obtain ⟨r, hr, rfl, rfl⟩ := exists_of_dataAt hdata
  obtain ⟨d, n, hn, hp⟩ := exists_joinPrefix (hwell.proper r hr)
  have hup : IsDir rows d := .inr ⟨r, hr, hp ▸ Hier.under_join⟩
  rw [hp] at hb
  have hlook := h.look_of_row hwell.distinct hn hr hp hb
  have hlook' := hlook
  rw [look_eq_childrenOf, (childrenOf_eq_of_root hwell hwell' hapart hroot hup).2,
    ← look_eq_childrenOf] at hlook'
  obtain ⟨hb', -⟩ | ⟨hb', r', hr', hp', heq⟩ := h'.look_cases hlook'
  · exact absurd (hasBelow_of_entry hwell' hwell hapart.symm hlook' hlook hb') hb
  · obtain ⟨hpath, hdata'⟩ := leafData_eq hwell hwell' hapart hr hr' (congrArg Prod.fst heq)
    refine leafAt_eq_some.2 ⟨hp ▸ hb', ?_⟩
    rw [hpath, dataAt_of_mem hwell'.distinct hr', hdata']

/-! ### The root -/

/-- **What the root says.**  Roots are equal exactly if the lists have the same leaves, and the same
of the paths with rows below them have their own row behind these. -/
theorem root_eq_iff : (build rows).root = (build rows').root ↔
    SameLeaves rows rows' ∧ SameEnds rows rows' := by
  have h := isBuilt_build hwell.proper
  have h' := isBuilt_build hwell'.proper
  constructor
  · intro hroot
    refine ⟨fun p => ?_, fun p hb => ?_⟩
    · refine Option.ext fun x => ⟨leafAt_of_root hwell hwell' hapart hroot, ?_⟩
      exact leafAt_of_root hwell' hwell hapart.symm hroot.symm
    · by_cases hne : p = []
      · subst hne
        exact iff_of_false (not_endsAt_nil hwell.proper) (not_endsAt_nil hwell'.proper)
      · have hp : Proper '/' p := (IsDir.properDir hwell.proper (.inr hb)).resolve_left hne
        obtain ⟨d, n, hn, rfl⟩ := exists_joinPrefix hp
        have hup : IsDir rows d := by
          obtain ⟨r, hr, hu⟩ := hb
          exact .inr ⟨r, hr, Hier.under_join.trans hu⟩
        have hlook := h.look_of_hasBelow hn hb
        have hlook' := hlook
        rw [look_eq_childrenOf, (childrenOf_eq_of_root hwell hwell' hapart hroot hup).2,
          ← look_eq_childrenOf] at hlook'
        have hb' := hasBelow_of_entry hwell hwell' hapart hlook hlook' hb
        have hdir' := h'.look_of_hasBelow hn hb'
        rw [hlook', Option.some.injEq] at hdir'
        simpa using congrArg Prod.snd hdir'
  · rintro ⟨hleaves, hends⟩
    rw [h.root, h'.root, h.childrenOf_congr h' hwell.proper hwell'.proper hwell.distinct
      hwell'.distinct (fun p _ _ => hleaves p) fun p _ _ => hends p]

/-- **The root identifies the rows**, up to the rows that have others below their paths: of lists
with the same leaves, it tells those apart that differ in which of these rows stand behind all that
is below them, and not those that differ in the rows themselves. -/
theorem root_identifies_iff :
    ((build rows).root = (build rows').root ↔ SameRows rows rows') ↔
      (SameLeaves rows rows' → (SameEnds rows rows' ↔ SameShadowed rows rows')) := by
  rw [root_eq_iff hwell hwell' hapart, sameRows_iff hwell.proper hwell'.proper]
  exact and_congr_right_iff

omit hapart in
/-- The root identifies rows none of which is below another, in any order. -/
theorem root_eq_iff_sameRows (hinj : NoCollision rows rows') (hclear : Clear rows)
    (hclear' : Clear rows') : (build rows).root = (build rows').root ↔ SameRows rows rows' := by
  rw [root_eq_iff hwell hwell' (hinj.bytesApart hclear hclear'),
    sameRows_iff hwell.proper hwell'.proper]
  refine and_congr_right fun hleaves => ?_
  have hsame := hclear.same hclear' hwell.proper hwell'.proper hleaves
  exact iff_of_true hsame.1 hsame.2

end

end

section Example

attribute [local instance] Blake3.polynomial

/-- Another file in the directory `a`, with metadata. -/
def fileC : FileRow where
  path := ['a', '/', 'c']
  contentHash := some 5
  mode := 420
  size := 1
  tombstone := false
  vv := VersionVector.fromIter [(2, 1)]
  uuid := none
  metadata := some ⟨.regular, 420, 0, 0, 1, 0, none, 0, []⟩

theorem WellKeyed.of_subset {rows rows' : List FileRow} (h : WellKeyed rows)
    (hsub : ∀ r ∈ rows', r ∈ rows) (hdistinct : (rows'.map FileRow.path).Nodup) :
    WellKeyed rows' :=
  ⟨fun r hr => h.proper r (hsub r hr), fun r hr => h.noNul r (hsub r hr), hdistinct,
    fun r hr => h.fits r (hsub r hr), fun r hr => h.metaFits r (hsub r hr)⟩

theorem wellKeyed_example : WellKeyed [deletedA, fileB, fileC] := by
  have ha : IsName '/' ['a'] := ⟨by decide, by decide⟩
  have hb : IsName '/' ['b'] := ⟨by decide, by decide⟩
  have hc : IsName '/' ['c'] := ⟨by decide, by decide⟩
  have hfits : ∀ r ∈ [deletedA, fileB, fileC], ∀ e ∈ r.vv.map.entries, e.2 < u64Bound := by decide
  have hmeta : ∀ r ∈ [deletedA, fileB, fileC], ∀ m ∈ r.metadata,
      m.symlinkTarget = none ∧ m.xattrs = [] := by decide
  refine ⟨fun r hr => ?_, by decide, by decide, hfits, fun r hr m hm => ?_⟩
  · simp only [List.mem_cons, List.not_mem_nil, or_false] at hr
    rcases hr with rfl | rfl | rfl
    · exact .name ha
    · exact .sub (.name ha) hb
    · exact .sub (.name ha) hc
  · obtain ⟨htarget, hxattrs⟩ := hmeta r hr m hm
    exact ⟨by simp [htarget], by simp [hxattrs, u64Bound], by simp [hxattrs]⟩

/-- The root does not depend on the order of two files. -/
theorem root_identifies_files :
    (build [fileB, fileC]).root = (build [fileC, fileB]).root ↔
      SameRows [fileB, fileC] [fileC, fileB] := by
  have hwell : WellKeyed [fileB, fileC] := wellKeyed_example.of_subset (by simp) (by decide)
  have hwell' : WellKeyed [fileC, fileB] := wellKeyed_example.of_subset (by simp) (by decide)
  have hclear : Clear [fileB, fileC] := by decide
  have hclear' : Clear [fileC, fileB] := by decide
  have hinj : NoCollision [fileB, fileC] [fileC, fileB] := ⟨by decide +kernel, by decide +kernel⟩
  refine (root_identifies_iff hwell hwell' (hinj.bytesApart hclear hclear')).2 fun hleaves => ?_
  have hsame := hclear.same hclear' hwell.proper hwell'.proper hleaves
  exact iff_of_true hsame.1 hsame.2

/-- The root does not tell of the tombstone of `a`, below which there is a file; and it depends on
the order of the two. -/
theorem root_misses_shadowed :
    (WellKeyed fileBecameDir ∧ WellKeyed [fileB] ∧ BytesApart fileBecameDir [fileB] ∧
      (build fileBecameDir).root = (build [fileB]).root ∧ ¬ SameRows fileBecameDir [fileB]) ∧
    WellKeyed fileBecameDir.reverse ∧ BytesApart fileBecameDir fileBecameDir.reverse ∧
      (build fileBecameDir).root ≠ (build fileBecameDir.reverse).root ∧
      SameRows fileBecameDir fileBecameDir.reverse := by
  refine ⟨⟨wellKeyed_example.of_subset (by simp [fileBecameDir]) (by decide),
    wellKeyed_example.of_subset (by simp) (by decide), ⟨⟨by decide +kernel, by decide +kernel⟩,
      by decide +kernel, by decide +kernel⟩, by decide +kernel, fun hsame => ?_⟩,
    wellKeyed_example.of_subset (by simp [fileBecameDir]) (by decide),
    ⟨⟨by decide +kernel, by decide +kernel⟩, by decide +kernel, by decide +kernel⟩,
    by decide +kernel, fun p => ?_⟩
  · have hnone : dataAt fileBecameDir ['a'] ≠ dataAt [fileB] ['a'] := by decide
    exact hnone (hsame ['a'])
  · by_cases ha : ['a'] = p
    · subst ha
      rfl
    · by_cases hb : ['a', '/', 'b'] = p
      · subst hb
        rfl
      · simp [dataAt, fileBecameDir, deletedA, fileB, ha, hb]

end Example

end Replicore
