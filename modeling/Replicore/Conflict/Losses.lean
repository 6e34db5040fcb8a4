import Mathlib.Logic.Relation
import Replicore.Conflict.Order

/-!
# What a plan loses

A plan keeps one version at the conflicted path and gives every loser with content a copy; where a
row occupies the name of a copy, the one of the two with the smaller key is pushed one link
further.  The chain of links is a function of the candidates and of the rows looked up (`CopyLink`,
`Reached`), and the plan has a row at each of its names, or finds a row there that has taken the
copy in (`planCopies_chains`).

A version without a content hash has no copy name.  The planner takes it for a delete, "nothing to
preserve"; but FIFOs and devices have no content hash either.  `planCandidates_nothingLost_iff` says
which versions are dropped, and that nothing is lost exactly if each of them is also kept elsewhere.
-/

namespace Replicore

section

variable [Blake3]

/-! ### The files that versions stand for -/

/-- Two rows with the same content hash, kind and naming hash. -/
structure SameFile (a b : Row) : Prop where
  contentHash : a.contentHash = b.contentHash
  kind : a.metadata.map (·.kind) = b.metadata.map (·.kind)
  naming : Meta.namingHash a.metadata = Meta.namingHash b.metadata

instance (a b : Row) : Decidable (SameFile a b) :=
  decidable_of_iff (a.contentHash = b.contentHash ∧
      a.metadata.map (·.kind) = b.metadata.map (·.kind) ∧
      Meta.namingHash a.metadata = Meta.namingHash b.metadata)
    ⟨fun h => ⟨h.1, h.2.1, h.2.2⟩, fun h => ⟨h.contentHash, h.kind, h.naming⟩⟩

theorem SameFile.symm {a b : Row} (h : SameFile a b) : SameFile b a :=
  ⟨h.contentHash.symm, h.kind.symm, h.naming.symm⟩

theorem SameFile.trans {a b c : Row} (h : SameFile a b) (h' : SameFile b c) : SameFile a c :=
  ⟨h.contentHash.trans h'.contentHash, h.kind.trans h'.kind, h.naming.trans h'.naming⟩

theorem sameFile_of_eq {a b : Row} (hc : a.contentHash = b.contentHash)
    (hm : a.metadata = b.metadata) : SameFile a b :=
  ⟨hc, by rw [hm], by rw [hm]⟩

/-- The name of the copy of a version that has lost the path `p`. -/
def Version.copyPath (v : Version) (p : Path) : Path := copyNameOf p (v.contentHash.getD 0) v

theorem SameFile.copyPath_eq {a b : Version} (h : SameFile a.toRow b.toRow) :
    a.copyPath = b.copyPath := by
  funext p
  rw [Version.copyPath, Version.copyPath, copyNameOf, copyNameOf, h.contentHash, h.naming]

theorem copyPath_of_some {v : Version} {hash : Hash} (h : v.contentHash = some hash) (p : Path) :
    v.copyPath p = copyPathFor p hash (Meta.namingHash v.metadata) := by
  rw [Version.copyPath, h]
  rfl

variable (lookup : Path → Option Version)

/-- The row at a copy name has the vector of the copy, or one above it. -/
def TakenIn (cp : Path) : Prop := ∃ e, lookup cp = some e ∧ copyVv cp ≤ e.vv

/-- The copy of a version that has lost the path `p` was made earlier, at one of the names along its
chain. -/
def CopyMade (p : Path) (v : Version) : Prop :=
  v.contentHash.isSome ∧ ∃ k < maxCopyDepth, TakenIn lookup (v.copyPath^[k + 1] p)

/-- A planned live row stands for the same file, or the copy was made earlier. -/
def Preserved (rows : List PlannedRow) (p : Path) (v : Version) : Prop :=
  (∃ r ∈ rows, r.tombstone = false ∧ SameFile r.toRow v.toRow) ∨ CopyMade lookup p v

/-- No conflicting version is lost: every live member of the antichain, and every live row that the
plan displaces, has the key of the version that won its path or is preserved; and every planned row
comes from an undominated candidate or from a row at a copy name. -/
structure NothingLost (path : Path) (cs : List Version) (rows : List PlannedRow) : Prop where
  members : ∀ v ∈ antichain cs, v.tombstone = false →
    (∃ w losers, antichain cs = w :: losers ∧ v.key = w.key) ∨ Preserved lookup rows path v
  displaced : ∀ r ∈ rows, r.path ≠ path → ∀ e, lookup r.path = some e → e.tombstone = false →
    e.key = (Version.fromRow r.toRow).key ∨ Preserved lookup rows r.path e
  sources : ∀ r ∈ rows, ∃ v, (Undominated cs v ∨ ∃ q, IsCopyName q ∧ lookup q = some v) ∧
    r.contentHash = v.contentHash ∧ (r.tombstone = false → r.metadata = v.metadata)

/-- A version that takes part in a resolution. -/
def InPlay (cs : List Version) (v : Version) : Prop :=
  v ∈ antichain cs ∨ ∃ q, IsCopyName q ∧ lookup q = some v

/-- The hashes of the versions in play are those of their metadata and do not collide: versions with
the same content and metadata hash, and losers with the same digits in their copy names, stand for
the same file. -/
structure PlanHashesApart (cs : List Version) : Prop where
  canonical : ∀ v, InPlay lookup cs v → v.metaHash = Meta.hashOf v.metadata
  keys : ∀ a b, InPlay lookup cs a → InPlay lookup cs b →
    a.contentHash.getD 0 = b.contentHash.getD 0 → a.metaHash = b.metaHash →
    SameFile a.toRow b.toRow
  names : ∀ a ∈ antichain cs, ∀ b ∈ antichain cs, ∀ digits, a.copyDigits = some digits →
    b.copyDigits = some digits → SameFile a.toRow b.toRow

/-! ### The chain of links -/

/-- One link of a copy chain: a row concurrent with the copy occupies the name, and the one of the
two with the smaller key is pushed on. -/
inductive CopyLink : Path × Version → Path × Version → Prop
  | pushed {cp : Path} {c e : Version} : lookup cp = some e → Concurrent e (asCopy cp c) →
      (asCopy cp c).key < e.key → CopyLink (cp, c) (c.copyPath cp, c)
  | occupant {cp : Path} {c e : Version} : lookup cp = some e → Concurrent e (asCopy cp c) →
      e.key < (asCopy cp c).key → e.contentHash.isSome → CopyLink (cp, c) (e.copyPath cp, e)

/-- A chain of links. -/
abbrev CopyChain : Path × Version → Path × Version → Prop := Relation.ReflTransGen (CopyLink lookup)

/-- The first of the losers with its copy name. -/
def FirstNamed (path : Path) (losers : List Version) (v : Version) : Prop :=
  ∃ before after, losers = before ++ v :: after ∧ ∀ x ∈ before, x.copyPath path ≠ v.copyPath path

/-- The name `cp` stands on the chain of a loser, with `c` to be placed there. -/
def Reached (path : Path) (cs : List Version) (cp : Path) (c : Version) : Prop :=
  ∃ w losers v, antichain cs = w :: losers ∧ FirstNamed path (copiers w losers) v ∧
    CopyChain lookup (v.copyPath path, v) (cp, c)

/-- The versions that the planner drops, with the path they lose: losers without a content hash, and
occupants of a reached name that have no content hash or no history. -/
inductive Dropped (path : Path) (cs : List Version) : Path → Version → Prop
  | loser {w v : Version} {losers : List Version} : antichain cs = w :: losers → v ∈ losers →
      v.tombstone = false → v.contentHash = none → v.key ≠ w.key → Dropped path cs path v
  | unnamed {cp : Path} {c e : Version} : Reached lookup path cs cp c → lookup cp = some e →
      e.tombstone = false → Concurrent e (asCopy cp c) → e.contentHash = none →
      e.key < (asCopy cp c).key → Dropped path cs cp e
  | unwritten {cp : Path} {c e : Version} : Reached lookup path cs cp c → lookup cp = some e →
      e.tombstone = false → e.vv < copyVv cp → e.key ≠ (asCopy cp c).key → Dropped path cs cp e

/-- The versions that get a row: the winner, a copy that wins its name, and an occupant that keeps
it. -/
inductive Kept (path : Path) (cs : List Version) : Version → Prop
  | winner {w : Version} {losers : List Version} : antichain cs = w :: losers →
      w.tombstone = false → Kept path cs w
  | copy {cp : Path} {c : Version} : Reached lookup path cs cp c →
      (∀ e, lookup cp = some e →
        e.vv < copyVv cp ∨ Concurrent e (asCopy cp c) ∧ e.key ≤ (asCopy cp c).key) → Kept path cs c
  | occupant {cp : Path} {c e : Version} : Reached lookup path cs cp c → lookup cp = some e →
      Concurrent e (asCopy cp c) → (asCopy cp c).key ≤ e.key → Kept path cs e

/-- Whatever is dropped is kept elsewhere, or was copied earlier. -/
def Spared (path : Path) (cs : List Version) : Prop :=
  ∀ p v, Dropped lookup path cs p v →
    (∃ k, Kept lookup path cs k ∧ SameFile v.toRow k.toRow) ∨ CopyMade lookup p v

/-! ### Names along a chain -/

/-- A name is a copy name of another. -/
def CopyOf (a b : Path) : Prop := ∃ hash naming, b = copyPathFor a hash naming

/-- A name lies at or below another. -/
abbrev Descends : Path → Path → Prop := Relation.ReflTransGen CopyOf

omit lookup in
theorem copyOf_copyPath (v : Version) (p : Path) : CopyOf p (v.copyPath p) := ⟨_, _, rfl⟩

theorem Descends.length_le {a b : Path} (h : Descends a b) : a.length ≤ b.length := by
  induction h with
  | refl => exact le_rfl
  | tail _ hlast ih =>
    obtain ⟨hash, naming, rfl⟩ := hlast
    exact ih.trans (length_lt_copyPathFor _ hash naming).le

/-- Names below two copy names of one path are different, unless these are one. -/
theorem eq_of_descends {path a b q : Path} (ha : CopyOf path a) (hb : CopyOf path b)
    (haq : Descends a q) (hbq : Descends b q) : a = b := by
  have hparent : Relator.RightUnique (Function.swap CopyOf) := by
    rintro x y z ⟨h, m, hy⟩ ⟨h', m', hz⟩
    exact (copyPathFor_inj (hy.symm.trans hz)).1
  -- one of two copies of a path is not below the other: its parent is the path, which is shorter
  have hbelow : ∀ {x y : Path}, CopyOf path x → CopyOf path y → Descends x y → x = y := by
    intro x y ⟨h, m, hx⟩ ⟨h', m', hy⟩ hxy
    rcases Relation.ReflTransGen.cases_tail hxy with heq | ⟨z, hxz, h'', m'', hz⟩
    · exact heq.symm
    · obtain rfl := (copyPathFor_inj (hy.symm.trans hz)).1
      have hlen := length_lt_copyPathFor path h m
      rw [← hx] at hlen
      exact absurd (Descends.length_le hxz) (not_le_of_gt hlen)
  rcases Relation.ReflTransGen.total_of_right_unique hparent haq.swap hbq.swap with h | h
  · exact (hbelow hb ha h.swap).symm
  · exact hbelow ha hb h.swap

variable {lookup}

/-- A link leads to a copy name of the name it comes from. -/
theorem CopyLink.copyOf {s t : Path × Version} (h : CopyLink lookup s t) : CopyOf s.1 t.1 := by
  cases h with
  | pushed => exact copyOf_copyPath _ _
  | occupant => exact copyOf_copyPath _ _

theorem CopyLink.isSome {s t : Path × Version} (h : CopyLink lookup s t)
    (hs : s.2.contentHash.isSome) : t.2.contentHash.isSome := by
  cases h with
  | pushed => exact hs
  | occupant _ _ _ hsome => exact hsome

theorem CopyChain.descends {s t : Path × Version} (h : CopyChain lookup s t) :
    Descends s.1 t.1 := by
  induction h with
  | refl => exact .refl
  | tail _ hlast ih => exact ih.tail hlast.copyOf

theorem CopyLink.unique {s t t' : Path × Version} (h : CopyLink lookup s t)
    (h' : CopyLink lookup s t') : t = t' := by
  cases h with
  | pushed he hc hkey =>
    cases h' with
    | pushed => rfl
    | occupant he' hc' hkey' =>
      obtain rfl := Option.some.inj (he.symm.trans he')
      exact absurd hkey' (lt_asymm hkey)
  | occupant he hc hkey hsome =>
    cases h' with
    | pushed he' hc' hkey' =>
      obtain rfl := Option.some.inj (he.symm.trans he')
      exact absurd hkey' (lt_asymm hkey)
    | occupant he' =>
      obtain rfl := Option.some.inj (he.symm.trans he')
      rfl

/-- The contents that are placed along a chain are the first one and rows at copy names. -/
theorem CopyChain.content {cp q : Path} {c v : Version} (hcp : IsCopyName cp)
    (hc : c.contentHash.isSome) (h : CopyChain lookup (cp, c) (q, v)) :
    IsCopyName q ∧ v.contentHash.isSome ∧ (v = c ∨ ∃ p, IsCopyName p ∧ lookup p = some v) := by
  generalize ht : (q, v) = t at h
  induction h generalizing q v with
  | refl =>
    cases ht
    exact ⟨hcp, hc, .inl rfl⟩
  | tail _ hlast ih =>
    cases hlast with
    | pushed =>
      cases ht
      obtain ⟨-, hsome, hsrc⟩ := ih rfl
      exact ⟨⟨_, _, _, rfl⟩, hsome, hsrc⟩
    | occupant he _ _ hsome =>
      cases ht
      exact ⟨⟨_, _, _, rfl⟩, hsome, .inr ⟨_, (ih rfl).1, he⟩⟩

/-! ### What is placed at a name -/

/-- The row that the planner places for `c` at the name `cp`. -/
def RowFor (lookup : Path → Option Version) (cp : Path) (c : Version) (r : PlannedRow) : Prop :=
  (∀ e, lookup cp = some e → e.vv < copyVv cp) ∧ r = copyRow cp c ∨
  ∃ e w l, lookup cp = some e ∧ Concurrent e (asCopy cp c) ∧
    (w = e ∧ l = asCopy cp c ∧ l.key ≤ w.key ∨ w = asCopy cp c ∧ l = e ∧ l.key < w.key) ∧
    r = collisionRow cp e w l

theorem RowFor.path_eq {cp : Path} {c : Version} {r : PlannedRow} (h : RowFor lookup cp c r) :
    r.path = cp := by
  rcases h with ⟨-, rfl⟩ | ⟨e, w, l, -, -, -, rfl⟩
  · rfl
  · rfl

theorem RowFor.live {cp : Path} {c : Version} {r : PlannedRow} (h : RowFor lookup cp c r) :
    r.tombstone = false := by
  rcases h with ⟨-, rfl⟩ | ⟨e, w, l, -, -, -, rfl⟩
  · rfl
  · rfl

/-- It carries the copy or the occupant. -/
theorem RowFor.source {cp : Path} {c : Version} {r : PlannedRow} (h : RowFor lookup cp c r) :
    r.contentHash = c.contentHash ∧ r.metadata = c.metadata ∧
        (∀ e, lookup cp = some e →
          e.vv < copyVv cp ∨ Concurrent e (asCopy cp c) ∧ e.key < (asCopy cp c).key) ∨
      ∃ e, lookup cp = some e ∧ Concurrent e (asCopy cp c) ∧ (asCopy cp c).key ≤ e.key ∧
        r.contentHash = e.contentHash ∧ r.metadata = e.metadata := by
  rcases h with ⟨hlt, rfl⟩ | ⟨e, w, l, he, hc, ⟨rfl, rfl, hkey⟩ | ⟨rfl, rfl, hkey⟩, rfl⟩
  · exact .inl ⟨rfl, rfl, fun e he => .inl (hlt e he)⟩
  · exact .inr ⟨w, he, hc, hkey, rfl, rfl⟩
  · refine .inl ⟨rfl, rfl, fun e' he' => .inr ?_⟩
    obtain rfl := Option.some.inj (he.symm.trans he')
    exact ⟨hc, hkey⟩

/-- A chain ends at a name without a row that is concurrent with the copy. -/
theorem not_copyLink_of_apart {cp : Path} {c : Version}
    (h : ∀ e, lookup cp = some e → ¬ Concurrent e (asCopy cp c)) : ∀ t, ¬ CopyLink lookup (cp, c) t := by
  intro t hlink
  cases hlink with
  | pushed he hconc => exact h _ he hconc
  | occupant he hconc => exact h _ he hconc

/-- A chain ends where the one that loses the name has the same key or no content hash. -/
theorem not_copyLink_of_end {cp : Path} {c e w l : Version} (hc : c.contentHash.isSome)
    (he : lookup cp = some e)
    (hwl : w = e ∧ l = asCopy cp c ∧ l.key ≤ w.key ∨ w = asCopy cp c ∧ l = e ∧ l.key < w.key)
    (hend : l.contentHash = none ∨ l.key = w.key) : ∀ t, ¬ CopyLink lookup (cp, c) t := by
  intro t hlink
  cases hlink with
  | pushed he' _ hkey =>
    obtain rfl := Option.some.inj (he.symm.trans he')
    rcases hwl with ⟨rfl, rfl, -⟩ | ⟨rfl, rfl, hkey'⟩
    · rcases hend with hnone | heq
      · rw [show (asCopy cp c).contentHash = c.contentHash from rfl] at hnone
        rw [hnone] at hc
        cases hc
      · exact absurd heq hkey.ne
    · exact absurd hkey (lt_asymm hkey')
  | occupant he' _ hkey hsome =>
    obtain rfl := Option.some.inj (he.symm.trans he')
    rcases hwl with ⟨rfl, rfl, hkey'⟩ | ⟨rfl, rfl, -⟩
    · exact absurd hkey (not_lt_of_ge hkey')
    · rcases hend with hnone | heq
      · rw [hnone] at hsome
        cases hsome
      · exact absurd heq hkey.ne

/-- Where the one that loses the name has content and another key, it is pushed on. -/
theorem copyLink_of_collision {cp : Path} {c e w l : Version} {lh : Hash} (he : lookup cp = some e)
    (hconc : Concurrent e (asCopy cp c))
    (hwl : w = e ∧ l = asCopy cp c ∧ l.key ≤ w.key ∨ w = asCopy cp c ∧ l = e ∧ l.key < w.key)
    (hlh : l.contentHash = some lh) (hne : l.key ≠ w.key) :
    ∃ t, CopyLink lookup (cp, c) t ∧ t.1 = l.copyPath cp ∧ asCopy t.1 t.2 = asCopy t.1 l := by
  rcases hwl with ⟨rfl, rfl, hkey⟩ | ⟨rfl, rfl, hkey⟩
  · exact ⟨_, .pushed he hconc (lt_of_le_of_ne hkey hne), rfl, rfl⟩
  · exact ⟨_, .occupant he hconc hkey (by rw [hlh]; rfl), rfl, rfl⟩

/-- A chain ends where the name has taken the copy in, where it is free, and where the one that
loses the name has the same key or no content hash. -/
theorem placeCopy_step {depth : ℕ} {rows rows' : List PlannedRow} {cp : Path} {c : Version}
    (h : placeCopy lookup depth rows cp c = some rows') (hc : c.contentHash.isSome)
    (hfree : ∀ r ∈ rows, r.path ≠ cp) :
    ∃ d, depth = d + 1 ∧ (TakenIn lookup cp ∧ (∀ t, ¬ CopyLink lookup (cp, c) t) ∧ rows' = rows ∨
      ∃ r, RowFor lookup cp c r ∧
        ((∀ t, ¬ CopyLink lookup (cp, c) t) ∧ rows' = rows ++ [r] ∨
          ∃ t, CopyLink lookup (cp, c) t ∧
            placeCopy lookup d (rows ++ [r]) t.1 t.2 = some rows')) := by
  obtain ⟨d, rfl, hcases⟩ := placeCopy_cases h
  refine ⟨d, rfl, ?_⟩
  rcases hcases with ⟨⟨r, hr, hpath⟩, -⟩ | ⟨-, hlt, rfl⟩ | ⟨⟨e, he, hle⟩, rfl⟩ |
    ⟨-, e, w, l, he, hconc, hwl, hlast⟩
  · exact absurd hpath (hfree r hr)
  · refine .inr ⟨_, .inl ⟨hlt, rfl⟩, .inl ⟨not_copyLink_of_apart fun e he hc => ?_, rfl⟩⟩
    exact hc.1 (hlt e he).le
  · refine .inl ⟨⟨e, he, hle⟩, not_copyLink_of_apart fun e' he' hc => ?_, rfl⟩
    obtain rfl := Option.some.inj (he.symm.trans he')
    exact hc.2 hle
  · refine .inr ⟨_, .inr ⟨e, w, l, he, hconc, hwl, rfl⟩, ?_⟩
    rcases hlast with ⟨hend, rfl⟩ | ⟨lh, hlh, hne, hnext⟩
    · exact .inl ⟨not_copyLink_of_end hc he hwl hend, rfl⟩
    · obtain ⟨t, hlink, hname, hsame⟩ := copyLink_of_collision he hconc hwl hlh hne
      refine .inr ⟨t, hlink, ?_⟩
      rw [placeCopy_congr hsame d, hname, copyPath_of_some hlh]
      exact hnext

/-! ### What a chain leaves behind -/

/-- The names below the next name of a chain are free as well. -/
theorem free_child {rows : List PlannedRow} {cp t : Path} {r : PlannedRow}
    (hfree : ∀ x ∈ rows, ¬ Descends cp x.path) (hr : r.path = cp) (ht : CopyOf cp t) :
    ∀ x ∈ rows ++ [r], ¬ Descends t x.path := by
  intro x hx hdesc
  rcases List.mem_append.1 hx with hx | hx
  · exact hfree x hx (.head ht hdesc)
  · rw [List.mem_singleton.1 hx, hr] at hdesc
    obtain ⟨hash, naming, rfl⟩ := ht
    exact absurd (Descends.length_le hdesc) (not_le_of_gt (length_lt_copyPathFor cp hash naming))

/-- A version that is placed at `cp` gets a row for its file, or meets one of the next `depth` names
along its chain that has taken the copy in. -/
def Stored (lookup : Path → Option Version) (rows : List PlannedRow) (depth : ℕ) (cp : Path)
    (c : Version) : Prop :=
  (∃ r ∈ rows, r.tombstone = false ∧ SameFile r.toRow c.toRow) ∨
    ∃ k < depth, TakenIn lookup (c.copyPath^[k] cp)

theorem Stored.mono {rows rows' : List PlannedRow} {depth depth' : ℕ} {cp : Path} {c : Version}
    (h : Stored lookup rows depth cp c) (hsub : rows ⊆ rows') (hle : depth ≤ depth') :
    Stored lookup rows' depth' cp c := by
  rcases h with ⟨r, hr, hfile⟩ | ⟨k, hk, htaken⟩
  · exact .inl ⟨r, hsub hr, hfile⟩
  · exact .inr ⟨k, by omega, htaken⟩

/-- What placing a copy adds: the rows are those for the names along the chain, every name along the
chain has its row or has taken the copy in, and every version along the chain is stored. -/
structure Placement (lookup : Path → Option Version) (start : Path × Version)
    (added : List PlannedRow) (depth : ℕ) : Prop where
  rows : ∀ r ∈ added, ∃ q v, CopyChain lookup start (q, v) ∧ RowFor lookup q v r
  names : ∀ q v, CopyChain lookup start (q, v) →
    TakenIn lookup q ∨ ∃ r ∈ added, RowFor lookup q v r
  contents : ∀ q v, CopyChain lookup start (q, v) → Stored lookup added depth q v

/-- Equal keys stand for one file along the chain. -/
def KeysApart (lookup : Path → Option Version) (start : Path × Version) : Prop :=
  ∀ q v e, CopyChain lookup start (q, v) → lookup q = some e → e.key = (asCopy q v).key →
    SameFile e.toRow v.toRow

theorem chain_cases {s t u : Path × Version} (hlink : CopyLink lookup s t)
    (h : CopyChain lookup s u) : u = s ∨ CopyChain lookup t u := by
  rcases Relation.ReflTransGen.cases_head h with rfl | ⟨x, hx, hrest⟩
  · exact .inl rfl
  · rw [hlink.unique hx]
    exact .inr hrest

theorem chain_end {s u : Path × Version} (hend : ∀ t, ¬ CopyLink lookup s t)
    (h : CopyChain lookup s u) : u = s := by
  rcases Relation.ReflTransGen.cases_head h with rfl | ⟨x, hx, -⟩
  · rfl
  · exact absurd hx (hend x)

/-- The row at a name carries the copy, unless an occupant of larger key keeps the name. -/
theorem RowFor.sameFile {cp : Path} {c : Version} {r : PlannedRow} (h : RowFor lookup cp c r)
    (hkeys : KeysApart lookup (cp, c)) :
    SameFile r.toRow c.toRow ∨ ∃ e, lookup cp = some e ∧ Concurrent e (asCopy cp c) ∧
      (asCopy cp c).key < e.key := by
  rcases h.source with ⟨hcontent, hmeta, -⟩ | ⟨e, he, hconc, hkey, hcontent, hmeta⟩
  · exact .inl (sameFile_of_eq hcontent hmeta)
  · rcases hkey.lt_or_eq with hlt | heq
    · exact .inr ⟨e, he, hconc, hlt⟩
    · exact .inl ((sameFile_of_eq hcontent hmeta).trans (hkeys cp c e .refl he heq.symm))

theorem placement_of_placeCopy {depth : ℕ} {rows rows' : List PlannedRow} {cp : Path} {c : Version}
    (h : placeCopy lookup depth rows cp c = some rows') (hc : c.contentHash.isSome)
    (hfree : ∀ r ∈ rows, ¬ Descends cp r.path) (hkeys : KeysApart lookup (cp, c)) :
    ∃ added, rows' = rows ++ added ∧ Placement lookup (cp, c) added depth := by
  induction depth generalizing rows cp c with
  | zero => cases h
  | succ depth ih =>
    obtain ⟨d, hd, hstep⟩ := placeCopy_step h hc fun r hr heq => hfree r hr (heq ▸ .refl)
    obtain rfl := Nat.succ.inj hd
    rcases hstep with ⟨htaken, hend, rfl⟩ | ⟨r, hrow, hlast⟩
    · refine ⟨[], by simp, by simp, fun q v hchain => ?_, fun q v hchain => ?_⟩
      · cases chain_end hend hchain
        exact .inl htaken
      · cases chain_end hend hchain
        exact .inr ⟨0, Nat.succ_pos _, htaken⟩
    have hcontent := hrow.sameFile hkeys
    rcases hlast with ⟨hend, rfl⟩ | ⟨⟨cp', c'⟩, hlink, hnext⟩
    · refine ⟨[r], rfl, ?_, fun q v hchain => ?_, fun q v hchain => ?_⟩
      · intro x hx
        rw [List.mem_singleton.1 hx]
        exact ⟨cp, c, .refl, hrow⟩
      · cases chain_end hend hchain
        exact .inr ⟨r, by simp, hrow⟩
      · cases chain_end hend hchain
        rcases hcontent with hfile | ⟨e, he, hconc, hlt⟩
        · exact .inl ⟨r, by simp, hrow.live, hfile⟩
        · exact absurd (.pushed he hconc hlt) (hend _)
    · have hfree' := free_child hfree hrow.path_eq hlink.copyOf
      have hkeys' : KeysApart lookup (cp', c') := fun q v e hchain =>
        hkeys q v e (.head hlink hchain)
      obtain ⟨added, hrows', hplace⟩ := ih hnext (hlink.isSome hc) hfree' hkeys'
      refine ⟨r :: added, by simp [hrows'], ?_, fun q v hchain => ?_, fun q v hchain => ?_⟩
      · intro x hx
        rcases List.mem_cons.1 hx with rfl | hx
        · exact ⟨cp, c, .refl, hrow⟩
        · obtain ⟨q, v, hchain, hx⟩ := hplace.rows x hx
          exact ⟨q, v, .head hlink hchain, hx⟩
      · rcases chain_cases hlink hchain with heq | hchain
        · cases heq
          exact .inr ⟨r, by simp, hrow⟩
        · exact (hplace.names q v hchain).imp_right fun ⟨x, hx, hrowx⟩ =>
            ⟨x, List.mem_cons_of_mem _ hx, hrowx⟩
      · rcases chain_cases hlink hchain with heq | hchain
        · cases heq
          rcases hcontent with hfile | ⟨e, he, hconc, hlt⟩
          · exact .inl ⟨r, by simp, hrow.live, hfile⟩
          · -- the copy itself is pushed on
            cases hlink.unique (.pushed he hconc hlt)
            rcases hplace.contents _ _ .refl with ⟨x, hx, hfile⟩ | ⟨k, hk, htaken⟩
            · exact .inl ⟨x, List.mem_cons_of_mem _ hx, hfile⟩
            · exact .inr ⟨k + 1, by omega, htaken⟩
        · exact (hplace.contents q v hchain).mono (List.subset_cons_self _ _) (Nat.le_succ _)

/-! ### The copies of all losers -/

theorem FirstNamed.mem {path : Path} {losers : List Version} {v : Version}
    (h : FirstNamed path losers v) : v ∈ losers := by
  obtain ⟨before, after, rfl, -⟩ := h
  simp

theorem FirstNamed.append {path : Path} {losers : List Version} {v : Version}
    (h : FirstNamed path losers v) (more : List Version) : FirstNamed path (losers ++ more) v := by
  obtain ⟨before, after, rfl, hbefore⟩ := h
  exact ⟨before, after ++ more, by simp, hbefore⟩

theorem firstNamed_concat {path : Path} {losers : List Version} {v x : Version} :
    FirstNamed path (losers ++ [v]) x ↔ FirstNamed path losers x ∨
      x = v ∧ ∀ y ∈ losers, y.copyPath path ≠ v.copyPath path := by
  constructor
  · rintro ⟨before, after, heq, hbefore⟩
    rcases List.eq_nil_or_concat after with rfl | ⟨after, y, rfl⟩
    · obtain ⟨rfl, hv⟩ := List.append_inj' heq rfl
      cases hv
      exact .inr ⟨rfl, hbefore⟩
    · rw [List.concat_eq_append, ← List.cons_append, ← List.append_assoc] at heq
      exact .inl ⟨before, after, (List.append_inj' heq rfl).1, hbefore⟩
  · rintro (h | ⟨rfl, hbefore⟩)
    · exact h.append [v]
    · exact ⟨losers, [], rfl, hbefore⟩

theorem exists_firstNamed (path : Path) {losers : List Version} {v : Version} (h : v ∈ losers) :
    ∃ x, FirstNamed path losers x ∧ x.copyPath path = v.copyPath path := by
  induction losers with
  | nil => cases h
  | cons a losers ih =>
    by_cases ha : a.copyPath path = v.copyPath path
    · exact ⟨a, ⟨[], losers, rfl, by simp⟩, ha⟩
    · have hv : v ∈ losers := by
        rcases List.mem_cons.1 h with rfl | hv
        · exact absurd rfl ha
        · exact hv
      obtain ⟨x, ⟨before, after, rfl, hbefore⟩, hx⟩ := ih hv
      refine ⟨x, ⟨a :: before, after, rfl, fun y hy => ?_⟩, hx⟩
      rcases List.mem_cons.1 hy with rfl | hy
      · rwa [hx]
      · exact hbefore y hy

theorem FirstNamed.unique {path : Path} {losers : List Version} {x y : Version}
    (hx : FirstNamed path losers x) (hy : FirstNamed path losers y)
    (hname : x.copyPath path = y.copyPath path) : x = y := by
  induction losers using List.reverseRecOn with
  | nil => exact absurd hx.mem List.not_mem_nil
  | append_singleton losers z ih =>
    rcases firstNamed_concat.1 hx with hx' | ⟨rfl, hx'⟩
    · rcases firstNamed_concat.1 hy with hy' | ⟨rfl, hy'⟩
      · exact ih hx' hy'
      · exact absurd hname (hy' x hx'.mem)
    · rcases firstNamed_concat.1 hy with hy' | ⟨rfl, hy'⟩
      · exact absurd hname.symm (hx' y hy'.mem)
      · rfl

/-- The rows that the copies of a list of losers leave: rows for the names along the chains of those
that are first with their name, and at the first names unless they have taken the copy in. -/
structure Walked (lookup : Path → Option Version) (path : Path) (losers : List Version)
    (added : List PlannedRow) : Prop where
  rows : ∀ r ∈ added, ∃ v q c, FirstNamed path losers v ∧
    CopyChain lookup (v.copyPath path, v) (q, c) ∧ RowFor lookup q c r
  starts : ∀ v, FirstNamed path losers v → TakenIn lookup (v.copyPath path) ∨
    ∃ r ∈ added, RowFor lookup (v.copyPath path) v r

theorem Walked.settled {path : Path} {losers : List Version} {row : PlannedRow}
    {added : List PlannedRow} (h : Walked lookup path losers added) {v : Version}
    (hv : v ∈ losers) : NameSettled lookup (row :: added) (v.copyPath path) := by
  obtain ⟨x, hx, hname⟩ := exists_firstNamed path hv
  rw [← hname]
  rcases h.starts x hx with htaken | ⟨r, hr, hrow⟩
  · exact .inr htaken
  · exact .inl ⟨r, List.mem_cons_of_mem _ hr, hrow.path_eq⟩

/-- The chains of losers with other names are elsewhere. -/
theorem Walked.free {path : Path} {losers : List Version} {row : PlannedRow}
    {added : List PlannedRow} (h : Walked lookup path losers added) (hrow : row.path = path)
    {v : Version} (hv : ∀ y ∈ losers, y.copyPath path ≠ v.copyPath path) :
    ∀ r ∈ row :: added, ¬ Descends (v.copyPath path) r.path := by
  intro r hr hdesc
  rcases List.mem_cons.1 hr with rfl | hr
  · rw [hrow] at hdesc
    exact absurd (Descends.length_le hdesc) (not_le_of_gt (length_lt_copyPathFor path _ _))
  · obtain ⟨x, q, c, hx, hchain, hrowx⟩ := h.rows r hr
    rw [hrowx.path_eq] at hdesc
    exact hv x hx.mem
      (eq_of_descends (copyOf_copyPath x path) (copyOf_copyPath v path) (CopyChain.descends hchain)
        hdesc)

/-- What the copies of a list of losers add: a placement for each that is the first with its
name. -/
structure Placements (lookup : Path → Option Version) (path : Path) (losers : List Version)
    (added : List PlannedRow) : Prop where
  rows : ∀ r ∈ added, ∃ v q c, FirstNamed path losers v ∧
    CopyChain lookup (v.copyPath path, v) (q, c) ∧ RowFor lookup q c r
  names : ∀ v q c, FirstNamed path losers v → CopyChain lookup (v.copyPath path, v) (q, c) →
    TakenIn lookup q ∨ ∃ r ∈ added, RowFor lookup q c r
  contents : ∀ v q c, FirstNamed path losers v → CopyChain lookup (v.copyPath path, v) (q, c) →
    Stored lookup added maxCopyDepth q c

theorem Placements.walked {path : Path} {losers : List Version} {added : List PlannedRow}
    (h : Placements lookup path losers added) : Walked lookup path losers added :=
  ⟨h.rows, fun v hv => h.names v _ v hv .refl⟩

theorem Placements.concat {path : Path} {losers : List Version} {added more : List PlannedRow}
    (h : Placements lookup path losers added) {v : Version}
    (hv : ∀ y ∈ losers, y.copyPath path ≠ v.copyPath path)
    (hmore : Placement lookup (v.copyPath path, v) more maxCopyDepth) :
    Placements lookup path (losers ++ [v]) (added ++ more) := by
  refine ⟨fun r hr => ?_, fun x q c hx hchain => ?_, fun x q c hx hchain => ?_⟩
  · rcases List.mem_append.1 hr with hr | hr
    · obtain ⟨x, q, c, hx, hchain, hrow⟩ := h.rows r hr
      exact ⟨x, q, c, hx.append [v], hchain, hrow⟩
    · obtain ⟨q, c, hchain, hrow⟩ := hmore.rows r hr
      exact ⟨v, q, c, firstNamed_concat.2 (.inr ⟨rfl, hv⟩), hchain, hrow⟩
  · rcases firstNamed_concat.1 hx with hx | ⟨rfl, -⟩
    · exact (h.names x q c hx hchain).imp_right fun ⟨r, hr, hrow⟩ =>
        ⟨r, List.mem_append_left _ hr, hrow⟩
    · exact (hmore.names q c hchain).imp_right fun ⟨r, hr, hrow⟩ =>
        ⟨r, List.mem_append_right _ hr, hrow⟩
  · rcases firstNamed_concat.1 hx with hx | ⟨rfl, -⟩
    · exact (h.contents x q c hx hchain).mono (List.subset_append_left _ _) le_rfl
    · exact (hmore.contents q c hchain).mono (List.subset_append_right _ _) le_rfl

theorem Placements.skip {path : Path} {losers : List Version} {added : List PlannedRow}
    (h : Placements lookup path losers added) {v : Version}
    (hv : ¬ ∀ y ∈ losers, y.copyPath path ≠ v.copyPath path) :
    Placements lookup path (losers ++ [v]) added := by
  have hfirst : ∀ x, FirstNamed path (losers ++ [v]) x → FirstNamed path losers x := by
    intro x hx
    rcases firstNamed_concat.1 hx with hx | ⟨-, hx⟩
    · exact hx
    · exact absurd hx hv
  refine ⟨fun r hr => ?_, fun x q c hx => h.names x q c (hfirst x hx),
    fun x q c hx => h.contents x q c (hfirst x hx)⟩
  obtain ⟨x, q, c, hx, hchain, hrow⟩ := h.rows r hr
  exact ⟨x, q, c, hx.append [v], hchain, hrow⟩

theorem planCopies_chains {path : Path} {w : Version} {row : PlannedRow} (hrow : row.path = path)
    {done losers : List Version} {added rows' : List PlannedRow}
    (hlosers : ∀ v ∈ losers, v.contentHash.isSome ∧ v.key ≠ w.key)
    (hkeys : ∀ v ∈ losers, KeysApart lookup (v.copyPath path, v))
    (hdone : Placements lookup path done added)
    (h : planCopies lookup path w (row :: added) losers = some rows') :
    ∃ copies, rows' = row :: copies ∧ Placements lookup path (done ++ losers) copies := by
  induction losers generalizing done added with
  | nil =>
    cases h
    exact ⟨added, rfl, by simpa using hdone⟩
  | cons v losers ih =>
    obtain ⟨hsome, hkey⟩ := hlosers v List.mem_cons_self
    obtain ⟨hash, hhash⟩ := Option.isSome_iff_exists.1 hsome
    -- one round, whatever placing the copy has added
    have hround : ∀ copies, Placements lookup path (done ++ [v]) copies →
        placeCopy lookup maxCopyDepth (row :: added) (v.copyPath path) v = some (row :: copies) →
        ∃ copies, rows' = row :: copies ∧ Placements lookup path (done ++ v :: losers) copies := by
      intro copies hcopies hplace
      rw [copyPath_of_some hhash, ← copyNameOf] at hplace
      rw [planCopies_cons hhash hkey hplace] at h
      have := ih (fun x hx => hlosers x (List.mem_cons_of_mem _ hx))
        (fun x hx => hkeys x (List.mem_cons_of_mem _ hx)) hcopies h
      simpa using this
    by_cases hv : ∀ y ∈ done, y.copyPath path ≠ v.copyPath path
    · cases hplace : placeCopy lookup maxCopyDepth (row :: added) (v.copyPath path) v with
      | none =>
        rw [copyPath_of_some hhash] at hplace
        simp only [planCopies, hhash, hkey, if_false, hplace] at h
        cases h
      | some rows₁ =>
        obtain ⟨more, rfl, hmore⟩ := placement_of_placeCopy hplace hsome (hdone.walked.free hrow hv)
          (hkeys v List.mem_cons_self)
        exact hround (added ++ more) (hdone.concat hv hmore) (by simpa using hplace)
    · obtain ⟨y, hy, hname⟩ : ∃ y ∈ done, y.copyPath path = v.copyPath path := by
        simpa using hv
      have hset : NameSettled lookup (row :: added) (v.copyPath path) := hname ▸ hdone.walked.settled hy
      exact hround added (hdone.skip hv) (placeCopy_of_settled hset 3 v)

/-! ### What is lost -/

section

variable {path : Path} {cs : List Version}

theorem Reached.inPlay {cp : Path} {c : Version} (h : Reached lookup path cs cp c) :
    IsCopyName cp ∧ InPlay lookup cs c := by
  obtain ⟨w, losers, v, hac, hv, hchain⟩ := h
  have hmem := List.mem_filter.1 hv.mem
  have hsome : v.contentHash.isSome := (of_decide_eq_true hmem.2).1
  obtain ⟨hcp, -, hsrc⟩ := CopyChain.content ⟨_, _, _, rfl⟩ hsome hchain
  refine ⟨hcp, ?_⟩
  rcases hsrc with rfl | hsrc
  · exact .inl (hac ▸ List.mem_cons_of_mem _ hmem.1)
  · exact .inr hsrc

/-- A chain goes on through the occupant that loses its name. -/
theorem Reached.occupant {cp : Path} {c e : Version} (h : Reached lookup path cs cp c)
    (he : lookup cp = some e) (hconc : Concurrent e (asCopy cp c))
    (hkey : e.key < (asCopy cp c).key) (hsome : e.contentHash.isSome) :
    Reached lookup path cs (e.copyPath cp) e := by
  obtain ⟨w, losers, v, hac, hv, hchain⟩ := h
  exact ⟨w, losers, v, hac, hv, hchain.tail (.occupant he hconc hkey hsome)⟩

/-- An occupant with the key of the copy stands for the same file. -/
theorem PlanHashesApart.sameFile (h : PlanHashesApart lookup cs) {cp : Path} {c e : Version}
    (hcp : IsCopyName cp) (hc : InPlay lookup cs c) (he : lookup cp = some e)
    (hkey : e.key = (asCopy cp c).key) : SameFile e.toRow c.toRow := by
  have hcontent : e.contentHash.getD 0 = (asCopy cp c).contentHash.getD 0 :=
    contentHash_getD_eq_of_key hkey
  have hmeta : e.metaHash = (asCopy cp c).metaHash := metaHash_eq_of_key hkey
  exact h.keys e c (.inr ⟨cp, hcp, he⟩) hc hcontent hmeta

/-- A plan is the winner's row and the placements of the losers with content. -/
theorem plan_placements {rows : List PlannedRow} (h : planCandidates path cs lookup = some rows)
    (hhash : PlanHashesApart lookup cs) :
    ∃ w losers copies, antichain cs = w :: losers ∧
      rows = winnerRow path cs (w :: losers) w :: copies ∧
      Placements lookup path (copiers w losers) copies := by
  unfold planCandidates at h
  split at h
  · cases h
  rename_i w losers hac
  rw [planCopies_copiers] at h
  have hlosers : ∀ v ∈ copiers w losers, v.contentHash.isSome ∧ v.key ≠ w.key := fun v hv =>
    of_decide_eq_true (List.mem_filter.1 hv).2
  have hkeys : ∀ v ∈ copiers w losers, KeysApart lookup (v.copyPath path, v) := by
    intro v hv q c e hchain he hkey
    obtain ⟨hq, -, hsrc⟩ := CopyChain.content ⟨_, _, _, rfl⟩ (hlosers v hv).1 hchain
    have hc : InPlay lookup cs c := by
      rcases hsrc with rfl | hsrc
      · exact .inl (hac ▸ List.mem_cons_of_mem _ (List.mem_filter.1 hv).1)
      · exact .inr hsrc
    exact hhash.sameFile hq hc he hkey
  have hnone : Placements lookup path [] [] := by
    refine ⟨by simp, fun v q c hv => ?_, fun v q c hv => ?_⟩
    · cases hv.mem
    · cases hv.mem
  have hrow : (winnerRow path cs (w :: losers) w).path = path := rfl
  obtain ⟨copies, rfl, hcopies⟩ := planCopies_chains hrow hlosers hkeys hnone h
  exact ⟨w, losers, copies, hac, rfl, by simpa using hcopies⟩

variable {w : Version} {losers : List Version} {copies : List PlannedRow}

theorem Placements.reached (h : Placements lookup path (copiers w losers) copies)
    (hac : antichain cs = w :: losers) {cp : Path} {c : Version}
    (hreach : Reached lookup path cs cp c) :
    (TakenIn lookup cp ∨ ∃ r ∈ copies, RowFor lookup cp c r) ∧
      Stored lookup copies maxCopyDepth cp c := by
  obtain ⟨w', losers', v, hac', hv, hchain⟩ := hreach
  cases hac.symm.trans hac'
  exact ⟨h.names v cp c hv hchain, h.contents v cp c hv hchain⟩

theorem Placements.exists_reached (h : Placements lookup path (copiers w losers) copies)
    (hac : antichain cs = w :: losers) {r : PlannedRow} (hr : r ∈ copies) :
    ∃ c, Reached lookup path cs r.path c ∧ RowFor lookup r.path c r := by
  obtain ⟨v, q, c, hv, hchain, hrow⟩ := h.rows r hr
  rw [hrow.path_eq]
  exact ⟨c, ⟨w, losers, v, hac, hv, hchain⟩, hrow⟩

/-- Every planned live row stands for a version that is kept. -/
theorem kept_of_row (hac : antichain cs = w :: losers)
    (h : Placements lookup path (copiers w losers) copies) {r : PlannedRow}
    (hr : r ∈ winnerRow path cs (w :: losers) w :: copies) (hlive : r.tombstone = false) :
    ∃ k, Kept lookup path cs k ∧ SameFile r.toRow k.toRow := by
  rcases List.mem_cons.1 hr with rfl | hr
  · have hw : w.tombstone = false := hlive
    refine ⟨w, .winner hac hw, sameFile_of_eq rfl ?_⟩
    simp [winnerRow, hw]
  · obtain ⟨c, hreach, hrow⟩ := h.exists_reached hac hr
    rcases hrow.source with ⟨hcontent, hmeta, hwins⟩ | ⟨e, he, hconc, hkey, hcontent, hmeta⟩
    · refine ⟨c, .copy hreach fun e he => ?_, sameFile_of_eq hcontent hmeta⟩
      exact (hwins e he).imp_right fun hbeats => ⟨hbeats.1, hbeats.2.le⟩
    · exact ⟨e, .occupant hreach he hconc hkey, sameFile_of_eq hcontent hmeta⟩

/-- Every version that is kept has a row. -/
theorem row_of_kept (hhash : PlanHashesApart lookup cs) (hac : antichain cs = w :: losers)
    (h : Placements lookup path (copiers w losers) copies) {k : Version}
    (hk : Kept lookup path cs k) :
    ∃ r ∈ winnerRow path cs (w :: losers) w :: copies,
      r.tombstone = false ∧ SameFile r.toRow k.toRow := by
  cases hk with
  | winner hac' hlive =>
    cases hac.symm.trans hac'
    exact ⟨_, List.mem_cons_self, hlive, sameFile_of_eq rfl (by simp [winnerRow, hlive])⟩
  | @copy cp c hreach hwins =>
    rcases (h.reached hac hreach).1 with ⟨e, he, hle⟩ | ⟨r, hr, hrow⟩
    · rcases hwins e he with hlt | ⟨hconc, -⟩
      · exact absurd hle (not_le_of_gt hlt)
      · exact absurd hle hconc.2
    · refine ⟨r, List.mem_cons_of_mem _ hr, hrow.live, ?_⟩
      rcases hrow.source with ⟨hcontent, hmeta, -⟩ | ⟨e, he, hconc, hkey, hcontent, hmeta⟩
      · exact sameFile_of_eq hcontent hmeta
      · have heq : e.key = (asCopy cp k).key := by
          rcases hwins e he with hlt | ⟨-, hle⟩
          · exact absurd hlt.le hconc.1
          · exact le_antisymm hle hkey
        exact (sameFile_of_eq hcontent hmeta).trans (hhash.sameFile hreach.inPlay.1 hreach.inPlay.2 he heq)
  | @occupant cp c e hreach he hconc hkey =>
    rcases (h.reached hac hreach).1 with ⟨e', he', hle⟩ | ⟨r, hr, hrow⟩
    · obtain rfl := Option.some.inj (he.symm.trans he')
      exact absurd hle hconc.2
    · refine ⟨r, List.mem_cons_of_mem _ hr, hrow.live, ?_⟩
      rcases hrow.source with ⟨-, -, hwins⟩ | ⟨e', he', -, -, hcontent, hmeta⟩
      · rcases hwins k he with hlt | ⟨-, hlt⟩
        · exact absurd hlt.le hconc.1
        · exact absurd hlt (not_lt_of_ge hkey)
      · obtain rfl := Option.some.inj (he.symm.trans he')
        exact sameFile_of_eq hcontent hmeta

/-- Every planned row comes from an undominated candidate or from a row at a copy name. -/
theorem source_of_row (hac : antichain cs = w :: losers)
    (h : Placements lookup path (copiers w losers) copies) {r : PlannedRow}
    (hr : r ∈ winnerRow path cs (w :: losers) w :: copies) :
    ∃ v, (Undominated cs v ∨ ∃ q, IsCopyName q ∧ lookup q = some v) ∧
      r.contentHash = v.contentHash ∧ (r.tombstone = false → r.metadata = v.metadata) := by
  rcases List.mem_cons.1 hr with rfl | hr
  · refine ⟨w, .inl (undominated_of_mem_antichain (hac ▸ List.mem_cons_self)), rfl, fun hlive => ?_⟩
    have hw : w.tombstone = false := hlive
    simp [winnerRow, hw]
  · obtain ⟨c, hreach, hrow⟩ := h.exists_reached hac hr
    obtain ⟨hcp, hc⟩ := hreach.inPlay
    rcases hrow.source with ⟨hcontent, hmeta, -⟩ | ⟨e, he, -, -, hcontent, hmeta⟩
    · exact ⟨c, hc.imp_left undominated_of_mem_antichain, hcontent, fun _ => hmeta⟩
    · exact ⟨e, .inr ⟨_, hcp, he⟩, hcontent, fun _ => hmeta⟩

/-- The key of a planned row is that of the live version it comes from. -/
theorem key_fromRow {r : PlannedRow} {v : Version} (hr : r.tombstone = false)
    (hv : v.tombstone = false) (hcontent : r.contentHash = v.contentHash)
    (hmeta : r.metadata = v.metadata) (hhash : v.metaHash = Meta.hashOf v.metadata) :
    (Version.fromRow r.toRow).key = v.key := by
  simp only [Version.key, Version.fromRow, hr, hv, hcontent, hmeta, hhash]

/-- What the planner places further down its chain is preserved. -/
theorem preserved_of_stored {row : PlannedRow} {p : Path} {c : Version}
    (hc : c.contentHash.isSome) (h : Stored lookup copies maxCopyDepth (c.copyPath p) c) :
    Preserved lookup (row :: copies) p c := by
  rcases h with ⟨r, hr, hfile⟩ | ⟨k, hk, htaken⟩
  · exact .inl ⟨r, List.mem_cons_of_mem _ hr, hfile⟩
  · exact .inr ⟨hc, k, hk, htaken⟩

/-- A loser with content is preserved, by the first loser with its copy name. -/
theorem preserved_of_copier (hhash : PlanHashesApart lookup cs) (hac : antichain cs = w :: losers)
    (h : Placements lookup path (copiers w losers) copies) {v : Version}
    (hv : v ∈ copiers w losers) (row : PlannedRow) : Preserved lookup (row :: copies) path v := by
  have hcopier : ∀ x ∈ copiers w losers, x ∈ antichain cs ∧ x.contentHash.isSome := by
    intro x hx
    obtain ⟨hmem, hd⟩ := List.mem_filter.1 hx
    exact ⟨hac ▸ List.mem_cons_of_mem _ hmem, (of_decide_eq_true hd).1⟩
  obtain ⟨x, hx, hname⟩ := exists_firstNamed path hv
  obtain ⟨hvmem, hvsome⟩ := hcopier v hv
  obtain ⟨hxmem, hxsome⟩ := hcopier x hx.mem
  obtain ⟨a, ha⟩ := Option.isSome_iff_exists.1 hxsome
  obtain ⟨b, hb⟩ := Option.isSome_iff_exists.1 hvsome
  -- a name tells the digits, and these tell the file
  have hfile : SameFile x.toRow v.toRow := by
    rw [copyPath_of_some ha, copyPath_of_some hb] at hname
    refine hhash.names x hxmem v hvmem (copyHex a (Meta.namingHash x.metadata)) ?_ ?_
    · rw [Version.copyDigits, ha, Option.map_some]
    · rw [Version.copyDigits, hb, Option.map_some, (copyPathFor_inj hname).2]
  rcases h.contents x _ x hx .refl with ⟨r, hr, hlive, hsame⟩ | ⟨k, hk, htaken⟩
  · exact .inl ⟨r, List.mem_cons_of_mem _ hr, hlive, hsame.trans hfile⟩
  · rw [hfile.copyPath_eq] at htaken
    exact .inr ⟨hvsome, k, hk, htaken⟩

theorem nothingLost_of_spared (hhash : PlanHashesApart lookup cs)
    (hac : antichain cs = w :: losers) (h : Placements lookup path (copiers w losers) copies)
    (hspared : Spared lookup path cs) :
    NothingLost lookup path cs (winnerRow path cs (w :: losers) w :: copies) := by
  have hdropped : ∀ p v, Dropped lookup path cs p v →
      Preserved lookup (winnerRow path cs (w :: losers) w :: copies) p v := by
    intro p v hv
    refine (hspared p v hv).imp_left ?_
    rintro ⟨k, hk, hfile⟩
    obtain ⟨r, hr, hlive, hsame⟩ := row_of_kept hhash hac h hk
    exact ⟨r, hr, hlive, hsame.trans hfile.symm⟩
  refine ⟨fun v hv hlive => ?_, fun r hr hpath e he hlive => ?_, fun r hr => source_of_row hac h hr⟩
  · by_cases hkey : v.key = w.key
    · exact .inl ⟨w, losers, hac, hkey⟩
    have hloser : v ∈ losers := by
      rw [hac] at hv
      rcases List.mem_cons.1 hv with rfl | hv
      · exact absurd rfl hkey
      · exact hv
    right
    cases hcontent : v.contentHash with
    | none => exact hdropped path v (.loser hac hloser hlive hcontent hkey)
    | some hash =>
      have hmem : v ∈ copiers w losers :=
        List.mem_filter.2 ⟨hloser, by simp [hcontent, hkey]⟩
      exact preserved_of_copier hhash hac h hmem _
  · rcases List.mem_cons.1 hr with rfl | hr
    · exact absurd rfl hpath
    obtain ⟨c, hreach, hrow⟩ := h.exists_reached hac hr
    obtain ⟨hcp, hc⟩ := hreach.inPlay
    rcases hrow.source with ⟨hcontent, hmeta, hwins⟩ | ⟨e', he', -, -, hcontent, hmeta⟩
    · have hrowkey : (Version.fromRow r.toRow).key = (asCopy r.path c).key :=
        key_fromRow hrow.live rfl hcontent hmeta (hhash.canonical c hc)
      rw [hrowkey]
      by_cases hkey : e.key = (asCopy r.path c).key
      · exact .inl hkey
      right
      rcases hwins e he with hlt | ⟨hconc, hlt⟩
      · exact hdropped _ e (.unwritten hreach he hlive hlt hkey)
      · cases hnone : e.contentHash with
        | none => exact hdropped _ e (.unnamed hreach he hlive hconc hnone hlt)
        | some hash =>
          have hsome : e.contentHash.isSome := by rw [hnone]; rfl
          have hnext := hreach.occupant he hconc hlt hsome
          exact preserved_of_stored hsome (h.reached hac hnext).2
    · obtain rfl := Option.some.inj (he.symm.trans he')
      exact .inl (key_fromRow hrow.live hlive hcontent hmeta
        (hhash.canonical e (.inr ⟨_, hcp, he⟩))).symm

theorem spared_of_nothingLost (hhash : PlanHashesApart lookup cs)
    (hac : antichain cs = w :: losers) (h : Placements lookup path (copiers w losers) copies)
    (hlost : NothingLost lookup path cs (winnerRow path cs (w :: losers) w :: copies)) :
    Spared lookup path cs := by
  have hpreserved : ∀ p v, Preserved lookup (winnerRow path cs (w :: losers) w :: copies) p v →
      (∃ k, Kept lookup path cs k ∧ SameFile v.toRow k.toRow) ∨ CopyMade lookup p v := by
    intro p v hv
    refine hv.imp_left ?_
    rintro ⟨r, hr, hlive, hsame⟩
    obtain ⟨k, hk, hfile⟩ := kept_of_row hac h hr hlive
    exact ⟨k, hk, hsame.symm.trans hfile⟩
  -- an occupant that loses its name, and not by the key of the row that takes it
  have hoccupant : ∀ {cp c e}, Reached lookup path cs cp c → lookup cp = some e →
      e.tombstone = false → ¬ copyVv cp ≤ e.vv → ¬ (asCopy cp c).key ≤ e.key ∨ e.vv < copyVv cp →
      e.key ≠ (asCopy cp c).key →
      Preserved lookup (winnerRow path cs (w :: losers) w :: copies) cp e := by
    intro cp c e hreach he hlive hnot hloses hkey
    rcases (h.reached hac hreach).1 with ⟨e', he', hle⟩ | ⟨r, hr, hrow⟩
    · obtain rfl := Option.some.inj (he.symm.trans he')
      exact absurd hle hnot
    have hpath := hrow.path_eq
    have hne : r.path ≠ path := by
      obtain ⟨w', losers', v, -, -, hchain⟩ := hreach
      have hlen := (CopyChain.descends hchain).length_le
      intro heq
      rw [← hpath, heq] at hlen
      exact absurd hlen (not_le_of_gt (length_lt_copyPathFor path _ _))
    have hdisplaced := hlost.displaced r (List.mem_cons_of_mem _ hr) hne e (hpath ▸ he) hlive
    rw [hpath] at hdisplaced
    refine hdisplaced.resolve_left fun heq => hkey (heq.trans ?_)
    rcases hrow.source with ⟨hcontent, hmeta, -⟩ | ⟨e', he', hconc, hge, -, -⟩
    · exact key_fromRow hrow.live rfl hcontent hmeta (hhash.canonical c hreach.inPlay.2)
    · obtain rfl := Option.some.inj (he.symm.trans he')
      rcases hloses with hlt | hlt
      · exact absurd hge hlt
      · exact absurd hlt.le hconc.1
  intro p v hv
  refine hpreserved p v ?_
  cases hv with
  | loser hac' hmem hlive hnone hkey =>
    cases hac.symm.trans hac'
    refine (hlost.members v (hac ▸ List.mem_cons_of_mem _ hmem) hlive).resolve_left ?_
    rintro ⟨w', losers', hac'', heq⟩
    cases hac.symm.trans hac''
    exact hkey heq
  | unnamed hreach he hlive hconc hnone hlt =>
    exact hoccupant hreach he hlive hconc.2 (.inl (not_le_of_gt hlt)) hlt.ne
  | unwritten hreach he hlive hlt hkey =>
    exact hoccupant hreach he hlive (not_le_of_gt hlt) (.inr hlt) hkey

/-- **What a plan loses.**  For every list of candidates and every lookup whose hashes do not
collide, a plan loses no conflicting version if and only if every version that the planner drops is
kept elsewhere or was copied earlier. -/
theorem planCandidates_nothingLost_iff {rows : List PlannedRow}
    (h : planCandidates path cs lookup = some rows) (hhash : PlanHashesApart lookup cs) :
    NothingLost lookup path cs rows ↔ Spared lookup path cs := by
  obtain ⟨w, losers, copies, hac, rfl, hcopies⟩ := plan_placements h hhash
  exact ⟨spared_of_nothingLost hhash hac hcopies, nothingLost_of_spared hhash hac hcopies⟩

end

end

section Example

attribute [local instance] Blake3.polynomial

theorem inPlay_noRows {cs : List Version} {v : Version} (h : InPlay noRows cs v) :
    v ∈ antichain cs := by
  rcases h with h | ⟨q, -, hq⟩
  · exact h
  · cases hq

/-- Where no row stands at a copy name, the versions in play are those of the antichain. -/
theorem planHashesApart_noRows {cs : List Version}
    (h : (∀ v ∈ antichain cs, v.metaHash = Meta.hashOf v.metadata) ∧
      ∀ a ∈ antichain cs, ∀ b ∈ antichain cs,
        (a.contentHash.getD 0 = b.contentHash.getD 0 → a.metaHash = b.metaHash →
          SameFile a.toRow b.toRow) ∧
        (a.copyDigits = b.copyDigits → SameFile a.toRow b.toRow)) :
    PlanHashesApart noRows cs where
  canonical v hv := h.1 v (inPlay_noRows hv)
  keys a b ha hb := (h.2 a (inPlay_noRows ha) b (inPlay_noRows hb)).1
  names a ha b hb _ hda hdb := (h.2 a ha b hb).2 (hda.trans hdb.symm)

/-- Two nodes have written different contents: the smaller one is copied. -/
theorem nothing_lost_of_files : ∃ rows,
    planCandidates "a".toList [writtenBy 1 5 420, writtenBy 2 9 420] noRows = some rows ∧
      NothingLost noRows "a".toList [writtenBy 1 5 420, writtenBy 2 9 420] rows := by
  have hac : antichain [writtenBy 1 5 420, writtenBy 2 9 420] =
      [writtenBy 2 9 420, writtenBy 1 5 420] := by decide +kernel
  have hhash : PlanHashesApart noRows [writtenBy 1 5 420, writtenBy 2 9 420] :=
    planHashesApart_noRows (by decide +kernel)
  obtain ⟨copies, hplan, -⟩ := planCandidates_noRows "a".toList hac
  refine ⟨_, hplan, (planCandidates_nothingLost_iff hplan hhash).2 ?_⟩
  intro p v hv
  cases hv with
  | loser hac' hmem _ hnone =>
    cases hac.symm.trans hac'
    rw [List.mem_singleton.1 hmem] at hnone
    cases hnone
  | unnamed _ he => cases he
  | unwritten _ he => cases he

/-- A FIFO as node `n` has observed it. -/
def fifoBy (n : NodeId) : Version where
  contentHash := none
  mode := 420
  size := 0
  tombstone := false
  vv := VersionVector.fromIter [(n, 1)]
  uuid := some n
  metadata := some ⟨.fifo, 420, 0, 0, 0, 0, none, 0, []⟩
  metaHash := Meta.hashOf (some ⟨.fifo, 420, 0, 0, 0, 0, none, 0, []⟩)

/-- A FIFO that loses against a file leaves no copy. -/
theorem losing_fifo_dropped :
    ¬ ∀ path cs lookup rows, PlanHashesApart lookup cs →
      planCandidates path cs lookup = some rows → NothingLost lookup path cs rows := by
  intro hall
  have hac : antichain [fifoBy 1, writtenBy 2 9 420] = [writtenBy 2 9 420, fifoBy 1] := by
    decide +kernel
  have hhash : PlanHashesApart noRows [fifoBy 1, writtenBy 2 9 420] :=
    planHashesApart_noRows (by decide +kernel)
  have hplan : planCandidates "a".toList [fifoBy 1, writtenBy 2 9 420] noRows =
      some [winnerRow "a".toList [fifoBy 1, writtenBy 2 9 420] [writtenBy 2 9 420, fifoBy 1]
        (writtenBy 2 9 420)] := by
    rw [planCandidates, hac]
    rfl
  have hfifo : fifoBy 1 ∈ antichain [fifoBy 1, writtenBy 2 9 420] := by simp [hac]
  rcases (hall _ _ _ _ hhash hplan).members (fifoBy 1) hfifo rfl with
    ⟨w, losers, hac', hkey⟩ | ⟨r, hr, -, hfile⟩ | ⟨hsome, -⟩
  · cases hac.symm.trans hac'
    exact absurd hkey (by decide +kernel)
  · rw [List.mem_singleton.1 hr] at hfile
    cases hfile.contentHash
  · cases hsome

end Example

end Replicore
