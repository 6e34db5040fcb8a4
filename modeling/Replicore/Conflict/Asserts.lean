import Replicore.Conflict.Losses

/-!
# The assertions of the planner

Where the planner reaches a copy path for which a row is planned already, it asserts that this row
has the content hash and the naming hash of the version to be placed, and breaks the chain off.
The comment there argues that the name is a function of these.  But a row at a name need not carry
the version that the name was made for: an occupant of larger key keeps the name, and the version
is pushed on.

`AssertionsHold` follows the planner and collects what it asserts.  Two chains meet only at their
first name, so the assertions hold exactly if no loser comes to the name of an earlier one which
that one has lost to an occupant with another content hash or naming hash (`assertionsHold_iff`).
-/

namespace Replicore

section

variable [Blake3]

/-- What is asserted of a row that is planned already. -/
def SameDurable (a b : Row) : Prop :=
  a.contentHash = b.contentHash ∧ Meta.namingHash a.metadata = Meta.namingHash b.metadata

instance decidableSameDurable (a b : Row) : Decidable (SameDurable a b) :=
  inferInstanceAs (Decidable (_ ∧ _))

/-- The assertions on the way of `placeCopy`. -/
def placeAsserts (lookup : Path → Option Version) :
    ℕ → List PlannedRow → Path → Version → Prop
  | 0, _, _, _ => True
  | depth + 1, rows, cp, content =>
    match rows.find? fun r => r.path = cp with
    | some planned => SameDurable planned.toRow content.toRow
    | none => match lookup cp with
      | none => True
      | some existing =>
        match (copyVv cp).compare existing.vv with
        | .dominates | .equal | .dominated => True
        | .concurrent =>
          match antichain [existing, asCopy cp content] with
          | w :: l :: _ =>
            match l.contentHash with
            | some lh =>
              if l.key = w.key then True
              else placeAsserts lookup depth (rows ++ [collisionRow cp existing w l])
                (copyPathFor cp lh (Meta.namingHash l.metadata)) l
            | none => True
          | _ => True

/-- The assertions on the way of `planCopies`. -/
def planAsserts (lookup : Path → Option Version) (path : Path) (winner : Version) :
    List PlannedRow → List Version → Prop
  | _, [] => True
  | rows, loser :: losers =>
    match loser.contentHash with
    | none => planAsserts lookup path winner rows losers
    | some hash =>
      if loser.key = winner.key then planAsserts lookup path winner rows losers
      else placeAsserts lookup maxCopyDepth rows
          (copyPathFor path hash (Meta.namingHash loser.metadata)) loser ∧
        match placeCopy lookup maxCopyDepth rows
            (copyPathFor path hash (Meta.namingHash loser.metadata)) loser with
        | none => True
        | some rows' => planAsserts lookup path winner rows' losers

/-- The assertions on the way of `planCandidates`. -/
def AssertionsHold (lookup : Path → Option Version) (path : Path) (cs : List Version) : Prop :=
  match antichain cs with
  | [] => True
  | winner :: losers =>
    planAsserts lookup path winner [winnerRow path cs (winner :: losers) winner] losers

variable {lookup : Path → Option Version} {rows : List PlannedRow} {cp : Path} {c : Version}

/-! ### One name -/

theorem placeAsserts_congr {a b : Version} (h : asCopy cp a = asCopy cp b) (depth : ℕ) :
    placeAsserts lookup depth rows cp a ↔ placeAsserts lookup depth rows cp b := by
  have hsame : ∀ r : Row, SameDurable r a.toRow ↔ SameDurable r b.toRow := by
    have hver := congrArg Version.toRow h
    simp only [asCopy, Row.mk.injEq] at hver
    simp [SameDurable, hver]
  cases depth with
  | zero => exact Iff.rfl
  | succ depth => simp only [placeAsserts, h, hsame]

/-- At a name that is planned already its row is asserted of, and nothing is placed. -/
theorem placeAsserts_of_planned {planned : PlannedRow}
    (h : rows.find? (fun r => r.path = cp) = some planned) (depth : ℕ) :
    placeAsserts lookup (depth + 1) rows cp c ↔ SameDurable planned.toRow c.toRow := by
  simp only [placeAsserts, h]

/-- At a name that is not planned yet nothing is asserted, and the chain ends or goes on. -/
theorem placeCopy_free (lookup : Path → Option Version) (depth : ℕ) (hc : c.contentHash.isSome)
    (hfree : ∀ r ∈ rows, r.path ≠ cp) :
    ((∀ t, ¬ CopyLink lookup (cp, c) t) ∧ placeAsserts lookup (depth + 1) rows cp c ∧
      (TakenIn lookup cp ∧ placeCopy lookup (depth + 1) rows cp c = some rows ∨
        ∃ r, RowFor lookup cp c r ∧ placeCopy lookup (depth + 1) rows cp c = some (rows ++ [r]))) ∨
    ∃ t r, CopyLink lookup (cp, c) t ∧ RowFor lookup cp c r ∧
      placeCopy lookup (depth + 1) rows cp c = placeCopy lookup depth (rows ++ [r]) t.1 t.2 ∧
      (placeAsserts lookup (depth + 1) rows cp c ↔
        placeAsserts lookup depth (rows ++ [r]) t.1 t.2) := by
  have hany : (rows.any fun r => decide (r.path = cp)) = false := by
    simpa [List.any_eq_false] using hfree
  have hfind : rows.find? (fun r => r.path = cp) = none := by
    simpa [List.find?_eq_none] using hfree
  cases he : lookup cp with
  | none =>
    refine .inl ⟨not_copyLink_of_apart fun e he' => ?_, ?_, .inr ⟨copyRow cp c, .inl ⟨?_, rfl⟩, ?_⟩⟩
    · rw [he] at he'
      cases he'
    · simp only [placeAsserts, hfind, he]
    · simp [he]
    · simp only [placeCopy, hany, he, Bool.false_eq_true, if_false]
  | some e =>
    have hapart : ¬ Concurrent e (asCopy cp c) → ∀ t, ¬ CopyLink lookup (cp, c) t := by
      refine fun hnot => not_copyLink_of_apart fun e' he' => ?_
      rwa [← Option.some.inj (he.symm.trans he')]
    cases hcmp : (copyVv cp).compare e.vv with
    | dominates =>
      have hlt := VersionVector.compare_eq_dominates.1 hcmp
      refine .inl ⟨hapart fun hconc => hconc.1 hlt.le, ?_, .inr ⟨copyRow cp c, .inl ⟨?_, rfl⟩, ?_⟩⟩
      · simp only [placeAsserts, hfind, he, hcmp]
      · intro e' he'
        rwa [← Option.some.inj (he.symm.trans he')]
      · simp only [placeCopy, hany, he, hcmp, Bool.false_eq_true, if_false]
    | equal =>
      have hle := (VersionVector.compare_eq_equal.1 hcmp).1
      refine .inl ⟨hapart fun hconc => hconc.2 hle, ?_, .inl ⟨⟨e, he, hle⟩, ?_⟩⟩
      · simp only [placeAsserts, hfind, he, hcmp]
      · simp only [placeCopy, hany, he, hcmp, Bool.false_eq_true, if_false]
    | dominated =>
      have hle := (VersionVector.compare_eq_dominated.1 hcmp).le
      refine .inl ⟨hapart fun hconc => hconc.2 hle, ?_, .inl ⟨⟨e, he, hle⟩, ?_⟩⟩
      · simp only [placeAsserts, hfind, he, hcmp]
      · simp only [placeCopy, hany, he, hcmp, Bool.false_eq_true, if_false]
    | concurrent =>
      have hconc : Concurrent e (asCopy cp c) := (VersionVector.compare_eq_concurrent.1 hcmp).symm
      obtain ⟨w, l, hac, hwl⟩ := antichain_collision hconc
      have hrow : RowFor lookup cp c (collisionRow cp e w l) :=
        .inr ⟨e, w, l, he, hconc, hwl, rfl⟩
      cases hlh : l.contentHash with
      | none =>
        refine .inl ⟨not_copyLink_of_end hc he hwl (.inl hlh), ?_, .inr ⟨_, hrow, ?_⟩⟩
        · simp only [placeAsserts, hfind, he, hcmp, hac, hlh]
        · simp only [placeCopy, hany, he, hcmp, hac, hlh, Bool.false_eq_true, if_false]
      | some lh =>
        by_cases hkey : l.key = w.key
        · refine .inl ⟨not_copyLink_of_end hc he hwl (.inr hkey), ?_, .inr ⟨_, hrow, ?_⟩⟩
          · simp only [placeAsserts, hfind, he, hcmp, hac, hlh, hkey, if_true]
          · simp only [placeCopy, hany, he, hcmp, hac, hlh, hkey, Bool.false_eq_true, if_false,
              if_true]
        · obtain ⟨t, hlink, hname, hsame⟩ := copyLink_of_collision he hconc hwl hlh hkey
          refine .inr ⟨t, _, hlink, hrow, ?_, ?_⟩
          · rw [placeCopy_congr hsame, hname, copyPath_of_some hlh]
            simp only [placeCopy, hany, he, hcmp, hac, hlh, hkey, Bool.false_eq_true, if_false]
          · rw [placeAsserts_congr hsame, hname, copyPath_of_some hlh]
            simp only [placeAsserts, hfind, he, hcmp, hac, hlh, hkey, if_false]

/-- A chain has at least so many links. -/
def HasLinks (lookup : Path → Option Version) : ℕ → Path × Version → Prop
  | 0, _ => True
  | n + 1, s => ∃ t, CopyLink lookup s t ∧ HasLinks lookup n t

/-- A chain over free names asserts nothing, is cut off exactly if it has as many links as the depth
allows, and else adds the rows for its names, that of the first among them unless the name has taken
the copy in. -/
theorem placeCopy_chain (lookup : Path → Option Version) (depth : ℕ)
    (hc : c.contentHash.isSome) (hfree : ∀ r ∈ rows, ¬ Descends cp r.path) :
    placeAsserts lookup depth rows cp c ∧
      (placeCopy lookup depth rows cp c = none ↔ HasLinks lookup depth (cp, c)) ∧
      ∀ rows', placeCopy lookup depth rows cp c = some rows' → ∃ added, rows' = rows ++ added ∧
        (∀ r ∈ added, ∃ q v, CopyChain lookup (cp, c) (q, v) ∧ RowFor lookup q v r) ∧
        (TakenIn lookup cp ∨ ∃ r ∈ added, RowFor lookup cp c r) := by
  induction depth generalizing rows cp c with
  | zero => exact ⟨trivial, ⟨fun _ => trivial, fun _ => rfl⟩, nofun⟩
  | succ depth ih =>
    obtain ⟨hend, hasserts, hplace⟩ | ⟨t, r, hlink, hrow, hplace, hasserts⟩ :=
      placeCopy_free lookup depth hc fun r hr heq => hfree r hr (heq ▸ .refl)
    · refine ⟨hasserts, ?_, fun rows' hrows' => ?_⟩
      · have hnot : ¬ HasLinks lookup (depth + 1) (cp, c) := fun ⟨t, ht, _⟩ => hend t ht
        obtain ⟨-, heq⟩ | ⟨r, -, heq⟩ := hplace
        · rw [heq]
          exact ⟨nofun, fun h => absurd h hnot⟩
        · rw [heq]
          exact ⟨nofun, fun h => absurd h hnot⟩
      · obtain ⟨htaken, heq⟩ | ⟨r, hrow, heq⟩ := hplace
        · obtain rfl := Option.some.inj (heq.symm.trans hrows')
          exact ⟨[], by simp, by simp, .inl htaken⟩
        · obtain rfl := Option.some.inj (heq.symm.trans hrows')
          refine ⟨[r], rfl, fun x hx => ?_, .inr ⟨r, by simp, hrow⟩⟩
          rw [List.mem_singleton.1 hx]
          exact ⟨cp, c, .refl, hrow⟩
    · obtain ⟨hasserts', hnone, hadded⟩ :=
        ih (hlink.isSome hc) (free_child hfree hrow.path_eq hlink.copyOf)
      refine ⟨hasserts.2 hasserts', ?_, fun rows' hrows' => ?_⟩
      · rw [hplace, hnone]
        refine ⟨fun h => ⟨t, hlink, h⟩, fun ⟨t', hlink', h⟩ => ?_⟩
        rwa [hlink.unique hlink']
      · rw [hplace] at hrows'
        obtain ⟨added, rfl, hrows, -⟩ := hadded rows' hrows'
        refine ⟨r :: added, by simp, fun x hx => ?_, .inr ⟨r, by simp, hrow⟩⟩
        obtain rfl | hx := List.mem_cons.1 hx
        · exact ⟨cp, c, .refl, hrow⟩
        · obtain ⟨q, v, hchain, hx⟩ := hrows x hx
          exact ⟨q, v, .head hlink hchain, hx⟩

/-! ### All losers -/

variable {path : Path} {done losers : List Version} {row : PlannedRow} {added more : List PlannedRow}
  {x v w : Version}

namespace Walked

theorem nil : Walked lookup path [] [] :=
  ⟨nofun, fun _ hx => absurd hx.mem List.not_mem_nil⟩

theorem concat (h : Walked lookup path done added) (hv : ∀ y ∈ done, y.copyPath path ≠ v.copyPath path)
    (hrows : ∀ r ∈ more, ∃ q c, CopyChain lookup (v.copyPath path, v) (q, c) ∧ RowFor lookup q c r)
    (hstart : TakenIn lookup (v.copyPath path) ∨ ∃ r ∈ more, RowFor lookup (v.copyPath path) v r) :
    Walked lookup path (done ++ [v]) (added ++ more) := by
  refine ⟨fun r hr => ?_, fun x hx => ?_⟩
  · obtain hr | hr := List.mem_append.1 hr
    · obtain ⟨x, q, c, hx, hchain, hrow⟩ := h.rows r hr
      exact ⟨x, q, c, hx.append [v], hchain, hrow⟩
    · obtain ⟨q, c, hchain, hrow⟩ := hrows r hr
      exact ⟨v, q, c, firstNamed_concat.2 (.inr ⟨rfl, hv⟩), hchain, hrow⟩
  · obtain hx | ⟨rfl, -⟩ := firstNamed_concat.1 hx
    · exact (h.starts x hx).imp_right fun ⟨r, hr, hrow⟩ => ⟨r, List.mem_append_left _ hr, hrow⟩
    · exact hstart.imp_right fun ⟨r, hr, hrow⟩ => ⟨r, List.mem_append_right _ hr, hrow⟩

theorem skip (h : Walked lookup path done added) (hx : FirstNamed path done x)
    (hname : x.copyPath path = v.copyPath path) : Walked lookup path (done ++ [v]) added := by
  refine ⟨fun r hr => ?_, fun y hy => ?_⟩
  · obtain ⟨y, q, c, hy, hchain, hrow⟩ := h.rows r hr
    exact ⟨y, q, c, hy.append [v], hchain, hrow⟩
  · obtain hy | ⟨-, hv⟩ := firstNamed_concat.1 hy
    · exact h.starts y hy
    · exact absurd hname (hv x hx.mem)

/-- Only the first with its name has a row there. -/
theorem row_at (h : Walked lookup path done added) (hrow : row.path = path)
    (hx : FirstNamed path done x) {r : PlannedRow} (hr : r ∈ row :: added)
    (hpath : r.path = x.copyPath path) : RowFor lookup (x.copyPath path) x r := by
  obtain rfl | hr := List.mem_cons.1 hr
  · have hlen := length_lt_copyPathFor path (x.contentHash.getD 0) (Meta.namingHash x.metadata)
    rw [hrow] at hpath
    exact absurd (congrArg List.length hpath) hlen.ne
  · obtain ⟨y, q, c, hy, hchain, hrowy⟩ := h.rows r hr
    have hq : q = x.copyPath path := hrowy.path_eq.symm.trans hpath
    subst hq
    have hname := eq_of_descends (copyOf_copyPath y path) (copyOf_copyPath x path)
      (CopyChain.descends hchain) .refl
    obtain rfl := hy.unique hx hname
    -- a link further on would have a longer name
    obtain heq | ⟨t, hlink, hrest⟩ := Relation.ReflTransGen.cases_head hchain
    · obtain ⟨-, rfl⟩ := Prod.mk.inj heq
      exact hrowy
    · have hle := (CopyChain.descends hrest).length_le
      obtain ⟨hash, naming, ht⟩ := hlink.copyOf
      rw [ht] at hle
      exact absurd hle (not_le_of_gt (length_lt_copyPathFor _ hash naming))

end Walked

/-- At the name of an earlier loser the assertion is made of the row that was planned for that one:
it holds if the row carries that loser, and else it is one about the occupant that has kept the
name. -/
theorem placeAsserts_named (h : Walked lookup path done added) (hrow : row.path = path)
    (hx : FirstNamed path done x) (hname : x.copyPath path = v.copyPath path)
    (hv : v.contentHash.isSome) (hsame : SameDurable x.toRow v.toRow) (depth : ℕ) :
    placeAsserts lookup (depth + 1) (row :: added) (v.copyPath path) v ↔
      ∀ e, lookup (v.copyPath path) = some e → Concurrent e (asCopy (v.copyPath path) x) →
        (asCopy (v.copyPath path) x).key ≤ e.key → SameDurable e.toRow v.toRow := by
  cases hfind : (row :: added).find? fun r => r.path = v.copyPath path with
  | none =>
    have hfree : ∀ r ∈ row :: added, r.path ≠ v.copyPath path := by
      simpa [List.find?_eq_none] using hfind
    -- no row is there, so the name has taken the copy in
    have htaken : TakenIn lookup (v.copyPath path) := by
      obtain htaken | ⟨r, hr, hrowr⟩ := h.starts x hx
      · rwa [hname] at htaken
      · exact absurd (hrowr.path_eq.trans hname) (hfree r (List.mem_cons_of_mem _ hr))
    have hapart : ∀ e c, lookup (v.copyPath path) = some e →
        ¬ Concurrent e (asCopy (v.copyPath path) c) := by
      rintro e c he ⟨-, hnot⟩
      obtain ⟨e', he', hle⟩ := htaken
      rw [← Option.some.inj (he.symm.trans he')] at hle
      exact hnot hle
    refine ⟨fun _ e he hconc => absurd hconc (hapart e x he), fun _ => ?_⟩
    obtain ⟨-, hasserts, -⟩ | ⟨t, -, hlink, -⟩ :=
      placeCopy_free lookup depth hv hfree
    · exact hasserts
    · exact absurd hlink (not_copyLink_of_apart (fun e he => hapart e v he) t)
  | some planned =>
    have hpath : planned.path = x.copyPath path := by
      rw [hname]
      simpa using List.find?_some hfind
    have hplanned := h.row_at hrow hx (List.mem_of_find?_eq_some hfind) hpath
    rw [placeAsserts_of_planned hfind, ← hname]
    obtain ⟨hcontent, hmeta, hwins⟩ | ⟨e, he, hconc, hkey, hcontent, hmeta⟩ := hplanned.source
    · refine ⟨fun _ e he hconc hkey => ?_, fun _ => ?_⟩
      · obtain hlt | ⟨-, hlt⟩ := hwins e he
        · exact absurd hlt.le hconc.1
        · exact absurd hlt (not_lt_of_ge hkey)
      · rwa [SameDurable, hcontent, hmeta]
    · have hcarries : SameDurable planned.toRow v.toRow ↔ SameDurable e.toRow v.toRow := by
        rw [SameDurable, SameDurable, hcontent, hmeta]
      rw [hcarries]
      refine ⟨fun hsame' e' he' _ _ => ?_, fun hkept => hkept e he hconc hkey⟩
      rwa [← Option.some.inj (he.symm.trans he')]

/-- Unless an earlier chain was cut off, an occupant that has kept the name of `u` from an earlier
loser has the content hash and the naming hash of `u`. -/
def NameKept (lookup : Path → Option Version) (path : Path) (before : List Version) (u : Version) :
    Prop :=
  (∀ x, FirstNamed path before x → ¬ HasLinks lookup maxCopyDepth (x.copyPath path, x)) →
    ∀ x, FirstNamed path before x → x.copyPath path = u.copyPath path →
      ∀ e, lookup (u.copyPath path) = some e → Concurrent e (asCopy (u.copyPath path) x) →
        (asCopy (u.copyPath path) x).key ≤ e.key → SameDurable e.toRow u.toRow

/-- No loser comes to the name of an earlier one that has lost it to an occupant with another
content hash or naming hash. -/
def OccupantsAgree (lookup : Path → Option Version) (path : Path) (cs : List Version) : Prop :=
  ∀ w losers, antichain cs = w :: losers → ∀ before u after,
    copiers w losers = before ++ u :: after → NameKept lookup path before u

omit [Blake3] in
/-- A split of a list with a first element is before that element or after it. -/
theorem forall_split_cons {α : Type*} {P : List α → α → Prop} {a : α} {l : List α} :
    (∀ before u after, a :: l = before ++ u :: after → P before u) ↔
      P [] a ∧ ∀ before u after, l = before ++ u :: after → P (a :: before) u := by
  constructor
  · refine fun h => ⟨h [] a l rfl, fun before u after hl => h (a :: before) u after ?_⟩
    rw [hl, List.cons_append]
  · rintro ⟨ha, h⟩ before u after hl
    cases before with
    | nil =>
      obtain ⟨rfl, -⟩ := List.cons.inj hl
      exact ha
    | cons x before =>
      obtain ⟨rfl, hrest⟩ := List.cons.inj hl
      exact h before u after hrest

theorem planAsserts_cons (hsome : v.contentHash.isSome) (hkey : v.key ≠ w.key) :
    planAsserts lookup path w rows (v :: losers) ↔
      placeAsserts lookup maxCopyDepth rows (v.copyPath path) v ∧
        ∀ rows', placeCopy lookup maxCopyDepth rows (v.copyPath path) v = some rows' →
          planAsserts lookup path w rows' losers := by
  obtain ⟨hash, hhash⟩ := Option.isSome_iff_exists.1 hsome
  rw [copyPath_of_some hhash]
  simp only [planAsserts, hhash, hkey, if_false]
  refine and_congr_right fun _ => ?_
  cases placeCopy lookup maxCopyDepth rows (copyPathFor path hash (Meta.namingHash v.metadata)) v with
  | none => simp
  | some rows' => simp

theorem planAsserts_copiers (w : Version) (losers : List Version) :
    planAsserts lookup path w rows losers ↔ planAsserts lookup path w rows (copiers w losers) := by
  induction losers generalizing rows with
  | nil => exact Iff.rfl
  | cons v losers ih =>
    cases hhash : v.contentHash with
    | none =>
      have hskip : copiers w (v :: losers) = copiers w losers := by simp [copiers, hhash]
      rw [hskip, ← ih]
      simp only [planAsserts, hhash]
    | some hash =>
      have hsome : v.contentHash.isSome := by rw [hhash]; rfl
      by_cases hkey : v.key = w.key
      · have hskip : copiers w (v :: losers) = copiers w losers := by simp [copiers, hkey]
        rw [hskip, ← ih]
        simp only [planAsserts, hhash, hkey, if_true]
      · have hkeep : copiers w (v :: losers) = v :: copiers w losers := by
          simp [copiers, hsome, hkey]
        rw [hkeep, planAsserts_cons hsome hkey, planAsserts_cons hsome hkey]
        exact and_congr_right fun _ => forall_congr' fun rows' => imp_congr_right fun _ => ih

theorem planAsserts_iff (hrow : row.path = path)
    (hlosers : ∀ v ∈ losers, v.contentHash.isSome ∧ v.key ≠ w.key)
    (hnames : ∀ a ∈ done ++ losers, ∀ b ∈ done ++ losers, a.copyPath path = b.copyPath path →
      SameDurable a.toRow b.toRow)
    (hdone : Walked lookup path done added)
    (hshort : ∀ x, FirstNamed path done x → ¬ HasLinks lookup maxCopyDepth (x.copyPath path, x)) :
    planAsserts lookup path w (row :: added) losers ↔
      ∀ before u after, losers = before ++ u :: after → NameKept lookup path (done ++ before) u := by
  induction losers generalizing done added with
  | nil => exact ⟨fun _ before u after hl => by simp at hl, fun _ => trivial⟩
  | cons v losers ih =>
    obtain ⟨hsome, hkey⟩ := hlosers v List.mem_cons_self
    have hlater : ∀ x ∈ losers, x.contentHash.isSome ∧ x.key ≠ w.key :=
      fun x hx => hlosers x (List.mem_cons_of_mem _ hx)
    have hassoc : ∀ l, done ++ [v] ++ l = done ++ v :: l := fun l => by simp
    -- the later losers, after the rows that this one leaves
    have hnext : ∀ copies, Walked lookup path (done ++ [v]) copies →
        (∀ x, FirstNamed path (done ++ [v]) x →
          ¬ HasLinks lookup maxCopyDepth (x.copyPath path, x)) →
        placeCopy lookup maxCopyDepth (row :: added) (v.copyPath path) v = some (row :: copies) →
        ((∀ rows', placeCopy lookup maxCopyDepth (row :: added) (v.copyPath path) v = some rows' →
            planAsserts lookup path w rows' losers) ↔
          ∀ before u after, losers = before ++ u :: after →
            NameKept lookup path (done ++ v :: before) u) := by
      intro copies hcopies hshort' hplace
      have hiff := ih hlater (by simpa only [hassoc] using hnames) hcopies hshort'
      simp only [hassoc] at hiff
      rw [hplace]
      simpa using hiff
    rw [planAsserts_cons hsome hkey,
      forall_split_cons (P := fun before u => NameKept lookup path (done ++ before) u),
      List.append_nil]
    by_cases hv : ∀ y ∈ done, y.copyPath path ≠ v.copyPath path
    · -- a new name: nothing is asserted, and the chain is cut off or leaves its rows
      have hfirst : FirstNamed path (done ++ [v]) v := firstNamed_concat.2 (.inr ⟨rfl, hv⟩)
      obtain ⟨hasserts, hnone, hadded⟩ :=
        placeCopy_chain lookup maxCopyDepth hsome (hdone.free hrow hv)
      have hkept : NameKept lookup path done v := fun _ x hx hname => absurd hname (hv x hx.mem)
      refine and_congr (iff_of_true hasserts hkept) ?_
      by_cases hlong : HasLinks lookup maxCopyDepth (v.copyPath path, v)
      · rw [hnone.2 hlong]
        refine iff_of_true nofun fun before u after _ hshort' => ?_
        rw [← hassoc] at hshort'
        exact absurd hlong (hshort' v (hfirst.append before))
      · obtain ⟨rows', hrows'⟩ := Option.ne_none_iff_exists'.1 (mt hnone.1 hlong)
        obtain ⟨more, rfl, hmore, hstart⟩ := hadded rows' hrows'
        refine hnext (added ++ more) (hdone.concat hv hmore hstart) (fun x hx => ?_) hrows'
        obtain hx | ⟨rfl, -⟩ := firstNamed_concat.1 hx
        · exact hshort x hx
        · exact hlong
    · -- the name of an earlier loser
      obtain ⟨y, hy, hname⟩ : ∃ y ∈ done, y.copyPath path = v.copyPath path := by simpa using hv
      obtain ⟨x, hx, hxy⟩ := exists_firstNamed path hy
      have hxv := hxy.trans hname
      have hsame : SameDurable x.toRow v.toRow := by
        refine hnames x ?_ v ?_ hxv
        · simp [hx.mem]
        · simp
      have hplace : placeCopy lookup maxCopyDepth (row :: added) (v.copyPath path) v =
          some (row :: added) := placeCopy_of_settled (hname ▸ hdone.settled hy) 3 v
      refine and_congr ?_ ?_
      · refine (placeAsserts_named hdone hrow hx hxv hsome hsame 3).trans ?_
        refine ⟨fun h _ x' hx' hx'v => ?_, fun h => h hshort x hx hxv⟩
        obtain rfl := hx'.unique hx (hx'v.trans hxv.symm)
        exact h
      · refine hnext added (hdone.skip hx hxv) (fun x' hx' => ?_) hplace
        obtain hx' | ⟨rfl, hv'⟩ := firstNamed_concat.1 hx'
        · exact hshort x' hx'
        · exact absurd hv' hv

/-! ### The planner -/

/-- The copy names of the candidates tell their content and naming hashes. -/
def NamesApart (path : Path) (cs : List Version) : Prop :=
  ∀ a ∈ antichain cs, ∀ b ∈ antichain cs, a.contentHash.isSome → b.contentHash.isSome →
    a.copyPath path = b.copyPath path → SameDurable a.toRow b.toRow

instance decidableNamesApart (path : Path) (cs : List Version) : Decidable (NamesApart path cs) :=
  inferInstanceAs (Decidable (∀ a ∈ antichain cs, ∀ b ∈ antichain cs, _))

/-- The assertions of the planner hold exactly if no loser comes to the name of an earlier one that
has lost it to an occupant with another content hash or naming hash. -/
theorem assertionsHold_iff (path : Path) (cs : List Version) (lookup : Path → Option Version)
    (hnames : NamesApart path cs) :
    AssertionsHold lookup path cs ↔ OccupantsAgree lookup path cs := by
  cases hac : antichain cs with
  | nil => simp [AssertionsHold, OccupantsAgree, hac]
  | cons w losers =>
    have hcopier : ∀ v ∈ copiers w losers, v ∈ antichain cs ∧ v.contentHash.isSome ∧ v.key ≠ w.key := by
      intro v hv
      obtain ⟨hmem, hd⟩ := List.mem_filter.1 hv
      exact ⟨hac ▸ List.mem_cons_of_mem _ hmem, of_decide_eq_true hd⟩
    have hrow : (winnerRow path cs (w :: losers) w).path = path := rfl
    have hstart : Walked lookup path [] [] := Walked.nil
    have hiff := planAsserts_iff (w := w) hrow (fun v hv => (hcopier v hv).2)
      (fun a ha b hb => hnames a (hcopier a ha).1 b (hcopier b hb).1 (hcopier a ha).2.1
        (hcopier b hb).2.1)
      hstart fun x hx => absurd hx.mem List.not_mem_nil
    simp only [AssertionsHold, OccupantsAgree, hac]
    rw [planAsserts_copiers, hiff]
    simp

end

section Example

attribute [local instance] Blake3.polynomial

/-- The metadata of a file with the given modification time. -/
def metaAt (mtime : Int64) : Option Meta := some ⟨.regular, 420, 0, 0, mtime, 0, none, 0, []⟩

/-- Node `n` has written a content and the modification time. -/
def touchedBy (n : NodeId) (mtime : Int64) : Version where
  contentHash := some 5
  mode := 420
  size := 3
  tombstone := false
  vv := VersionVector.fromIter [(n, 1)]
  uuid := some n
  metadata := metaAt mtime
  metaHash := Meta.hashOf (metaAt mtime)

/-- Two losers with one copy name. -/
def touchedTwice : List Version := [writtenBy 3 9 420, touchedBy 1 0, touchedBy 2 1]

/-- A user has a file of larger key at that name. -/
def squatted : Path → Option Version := fun q =>
  if q = (touchedBy 1 0).copyPath "a".toList then some (writtenBy 7 9 420) else none

theorem assertionsHold_touched_twice : AssertionsHold noRows "a".toList touchedTwice := by
  have hnames : NamesApart "a".toList touchedTwice := by decide +kernel
  rw [assertionsHold_iff "a".toList touchedTwice noRows hnames]
  intro _ _ _ _ _ _ _ _ _ _ _ e he
  cases he

set_option linter.constructorNameAsVariable false in
/-- The first of the losers is pushed on by the user's file, which the second then meets. -/
theorem assertion_fails_squatted :
    ¬ ∀ path cs lookup, NamesApart path cs → AssertionsHold lookup path cs := by
  simp only [not_forall]
  refine ⟨"a".toList, touchedTwice, squatted, by decide +kernel, fun h => ?_⟩
  have hac : antichain touchedTwice = [writtenBy 3 9 420, touchedBy 2 1, touchedBy 1 0] := by
    decide +kernel
  simp only [AssertionsHold, hac] at h
  obtain ⟨-, hlater⟩ := (planAsserts_cons rfl (by decide +kernel)).1 h
  generalize hrow : winnerRow "a".toList touchedTwice _ _ = row at hlater
  have hround : ((placeCopy squatted maxCopyDepth [row] ((touchedBy 2 1).copyPath "a".toList)
      (touchedBy 2 1)).bind fun rows => (rows.find? fun r =>
        r.path = (touchedBy 1 0).copyPath "a".toList).map (·.contentHash)) = some (some 9) := by
    rw [← hrow]
    decide +kernel
  obtain ⟨rows', hplace, hplanned⟩ := Option.bind_eq_some_iff.1 hround
  obtain ⟨planned, hfind, hcontent⟩ := Option.map_eq_some_iff.1 hplanned
  obtain ⟨hasserts, -⟩ := (planAsserts_cons rfl (by decide +kernel)).1 (hlater rows' hplace)
  have hsame := (placeAsserts_of_planned hfind 3).1 hasserts
  exact absurd (hcontent.symm.trans hsame.1) (by decide)

end Example

end Replicore
