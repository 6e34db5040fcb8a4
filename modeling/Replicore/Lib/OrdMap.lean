import Mathlib.Order.Lattice
import Mathlib.Data.List.Basic
import Mathlib.Data.Prod.Lex
import Mathlib.Tactic.SplitIfs

/-!
# Ordered finite maps

A finite map from a linearly ordered key type, kept as its entries in strictly ascending key
order.  This is what a `BTreeMap` or a table with an ordered primary key is to its reader: the
order is part of the value, so that iteration is deterministic and two maps with the same lookups
are equal (`OrdMap.ext_get?`).

* `OrdMap.get?`, `OrdMap.getD` : lookup;
* `OrdMap.insert` : insert or replace;
* `OrdMap.countVals` : how many values satisfy a test;
* `OrdMap.mapVals` : apply a function to every value;
* `OrdMap.upsertAll` : insert a list of entries, later ones winning;
* `OrdMap.filter_entries_lex` : the rows under the first part of a composite key, in order.
-/

/-- A finite map, as its entries in strictly ascending key order. -/
structure OrdMap (K V : Type*) [LinearOrder K] where
  /-- The entries, in key order. -/
  entries : List (K × V)
  /-- Keys strictly ascend, so no key occurs twice. -/
  sorted : entries.Pairwise fun a b => a.1 < b.1

namespace OrdMap

variable {K V : Type*} [LinearOrder K]

/-- The empty map. -/
def empty : OrdMap K V := ⟨[], List.Pairwise.nil⟩

instance : Inhabited (OrdMap K V) := ⟨empty⟩

theorem entries_inj {a b : OrdMap K V} : a.entries = b.entries ↔ a = b := by
  constructor
  · intro h
    obtain ⟨as, ha⟩ := a
    obtain ⟨bs, hb⟩ := b
    subst h
    rfl
  · rintro rfl; rfl

instance [DecidableEq V] : DecidableEq (OrdMap K V) := fun _ _ =>
  decidable_of_iff _ entries_inj

/-! ### Operations on entry lists -/

/-- The value stored under `k` in a list of entries (the first one). -/
def lookupL (k : K) : List (K × V) → Option V
  | [] => none
  | e :: es => if e.1 = k then some e.2 else lookupL k es

/-- Insert an entry into an ascending list, replacing an entry of the same key. -/
def insertL (k : K) (v : V) : List (K × V) → List (K × V)
  | [] => [(k, v)]
  | e :: es =>
    if k < e.1 then (k, v) :: e :: es
    else if e.1 = k then (k, v) :: es
    else e :: insertL k v es

theorem mem_insertL {k : K} {v : V} {es : List (K × V)} {x : K × V} (h : x ∈ insertL k v es) :
    x = (k, v) ∨ x ∈ es := by
  induction es with
  | nil => simpa [insertL] using h
  | cons e es ih =>
    simp only [insertL] at h
    split_ifs at h with h1 h2
    · simpa using h
    · rcases List.mem_cons.1 h with h | h
      · exact .inl h
      · exact .inr (List.mem_cons_of_mem _ h)
    · rcases List.mem_cons.1 h with h | h
      · exact .inr (h ▸ List.mem_cons_self)
      · exact (ih h).imp id (List.mem_cons_of_mem _)

theorem sorted_insertL (k : K) (v : V) {es : List (K × V)}
    (h : es.Pairwise fun a b => a.1 < b.1) :
    (insertL k v es).Pairwise fun a b => a.1 < b.1 := by
  induction es with
  | nil => simp [insertL]
  | cons e es ih =>
    obtain ⟨he, hes⟩ := List.pairwise_cons.1 h
    simp only [insertL]
    split_ifs with h1 h2
    · refine List.pairwise_cons.2 ⟨fun x hx => ?_, h⟩
      rcases List.mem_cons.1 hx with rfl | hx
      · exact h1
      · exact h1.trans (he x hx)
    · exact List.pairwise_cons.2 ⟨fun x hx => h2 ▸ he x hx, hes⟩
    · refine List.pairwise_cons.2 ⟨fun x hx => ?_, ih hes⟩
      rcases mem_insertL hx with rfl | hx
      · exact lt_of_le_of_ne (not_lt.1 h1) h2
      · exact he x hx

theorem lookupL_insertL (k k' : K) (v : V) (es : List (K × V)) :
    lookupL k' (insertL k v es) = if k = k' then some v else lookupL k' es := by
  induction es with
  | nil => simp [insertL, lookupL]
  | cons e es ih =>
    by_cases h1 : k < e.1
    · simp [insertL, lookupL, h1]
    · by_cases h2 : e.1 = k
      · by_cases h3 : k = k'
        · simp [insertL, lookupL, h2, h3]
        · simp [insertL, lookupL, h2, h3]
      · by_cases h3 : e.1 = k'
        · have : k ≠ k' := fun h => h2 (h3.trans h.symm)
          simp only [insertL, h1, h2, ↓reduceIte]
          simp [lookupL, h3, this]
        · simp [insertL, lookupL, h1, h2, h3, ih]

theorem lookupL_eq_none_of_lt {k : K} {es : List (K × V)} (h : ∀ e ∈ es, k < e.1) :
    lookupL k es = none := by
  induction es with
  | nil => rfl
  | cons e es ih =>
    have he : e.1 ≠ k := (h e List.mem_cons_self).ne'
    simp [lookupL, he, ih fun x hx => h x (List.mem_cons_of_mem _ hx)]

theorem mem_iff_lookupL {es : List (K × V)} (h : es.Pairwise fun a b => a.1 < b.1) {k : K}
    {v : V} : (k, v) ∈ es ↔ lookupL k es = some v := by
  induction es with
  | nil => simp [lookupL]
  | cons e es ih =>
    obtain ⟨he, hes⟩ := List.pairwise_cons.1 h
    simp only [List.mem_cons, lookupL]
    split_ifs with hk
    · constructor
      · rintro (rfl | hm)
        · rfl
        · exact absurd (he _ hm) (by simp [hk])
      · intro hv
        exact .inl (Prod.ext hk.symm (by simpa using hv.symm))
    · rw [ih hes]
      refine ⟨fun h => h.resolve_left ?_, .inr⟩
      rintro rfl; exact hk rfl

theorem ext_lookupL {es fs : List (K × V)} (he : es.Pairwise fun a b => a.1 < b.1)
    (hf : fs.Pairwise fun a b => a.1 < b.1) (h : ∀ k, lookupL k es = lookupL k fs) : es = fs := by
  induction es generalizing fs with
  | nil =>
    cases fs with
    | nil => rfl
    | cons f fs => have := h f.1; simp [lookupL] at this
  | cons e es ih =>
    cases fs with
    | nil => have := h e.1; simp [lookupL] at this
    | cons f fs =>
      obtain ⟨he', hes⟩ := List.pairwise_cons.1 he
      obtain ⟨hf', hfs⟩ := List.pairwise_cons.1 hf
      -- the first keys agree: each is the least key of the common domain
      have hmem : ∀ x, x ∈ e :: es ↔ x ∈ f :: fs := by
        rintro ⟨k, v⟩
        rw [mem_iff_lookupL he, mem_iff_lookupL hf, h]
      have hle : ∀ {a : K × V} {as : List (K × V)} {b : K × V}, (∀ x ∈ as, a.1 < x.1) →
          b ∈ a :: as → a.1 ≤ b.1 := by
        intro a as b ha hb
        rcases List.mem_cons.1 hb with rfl | hb
        · exact le_rfl
        · exact (ha _ hb).le
      have hkey : e.1 = f.1 := le_antisymm
        (hle he' ((hmem f).2 List.mem_cons_self)) (hle hf' ((hmem e).1 List.mem_cons_self))
      have hval : e.2 = f.2 := by
        have := h e.1
        simpa [lookupL, hkey] using this
      have hef : e = f := Prod.ext hkey hval
      subst hef
      refine congrArg (e :: ·) (ih hes hfs fun k => ?_)
      by_cases hk : e.1 = k
      · subst hk
        rw [lookupL_eq_none_of_lt he', lookupL_eq_none_of_lt hf']
      · simpa [lookupL, hk] using h k

/-! ### Maps -/

/-- The value stored under `k`. -/
def get? (m : OrdMap K V) (k : K) : Option V := lookupL k m.entries

/-- The value stored under `k`, or `d`. -/
def getD (m : OrdMap K V) (k : K) (d : V) : V := (m.get? k).getD d

/-- Insert or replace the entry for `k`. -/
def insert (m : OrdMap K V) (k : K) (v : V) : OrdMap K V :=
  ⟨insertL k v m.entries, sorted_insertL k v m.sorted⟩

/-- Drop the entry for `k`. -/
def erase (m : OrdMap K V) (k : K) : OrdMap K V :=
  ⟨m.entries.filter fun e => e.1 ≠ k, m.sorted.sublist List.filter_sublist⟩

/-- The keys, in order. -/
def keys (m : OrdMap K V) : List K := m.entries.map Prod.fst

@[simp] theorem get?_empty (k : K) : (empty : OrdMap K V).get? k = none := rfl

theorem get?_insert (m : OrdMap K V) (k k' : K) (v : V) :
    (m.insert k v).get? k' = if k = k' then some v else m.get? k' :=
  lookupL_insertL k k' v m.entries

@[simp] theorem get?_insert_self (m : OrdMap K V) (k : K) (v : V) :
    (m.insert k v).get? k = some v := by
  simp [get?_insert]

theorem get?_insert_of_ne (m : OrdMap K V) {k k' : K} (v : V) (h : k ≠ k') :
    (m.insert k v).get? k' = m.get? k' := by
  simp [get?_insert, h]

theorem lookupL_filter_ne (k k' : K) (es : List (K × V)) :
    lookupL k' (es.filter fun e => e.1 ≠ k) = if k = k' then none else lookupL k' es := by
  induction es with
  | nil => simp [lookupL]
  | cons e es ih =>
    rw [List.filter_cons]
    by_cases h : e.1 = k
    · simp only [h, ne_eq, not_true_eq_false, decide_false, Bool.false_eq_true, ↓reduceIte, ih]
      split_ifs with hk
      · rfl
      · simp [lookupL, h, hk]
    · simp only [ne_eq, h, not_false_eq_true, decide_true, ↓reduceIte, lookupL, ih]
      split_ifs with h1 h2
      · exact absurd (h1.trans h2.symm) h
      all_goals rfl

theorem get?_erase (m : OrdMap K V) (k k' : K) :
    (m.erase k).get? k' = if k = k' then none else m.get? k' :=
  lookupL_filter_ne k k' m.entries

@[simp] theorem get?_erase_self (m : OrdMap K V) (k : K) : (m.erase k).get? k = none := by
  simp [get?_erase]

theorem get?_erase_of_ne (m : OrdMap K V) {k k' : K} (h : k ≠ k') :
    (m.erase k).get? k' = m.get? k' := by
  simp [get?_erase, h]

theorem mem_entries {m : OrdMap K V} {k : K} {v : V} :
    (k, v) ∈ m.entries ↔ m.get? k = some v :=
  mem_iff_lookupL m.sorted

theorem mem_keys {m : OrdMap K V} {k : K} : k ∈ m.keys ↔ (m.get? k).isSome = true := by
  simp only [keys, List.mem_map, Option.isSome_iff_exists]
  constructor
  · rintro ⟨⟨k', v⟩, hm, rfl⟩
    exact ⟨v, mem_entries.1 hm⟩
  · rintro ⟨v, hv⟩
    exact ⟨(k, v), mem_entries.2 hv, rfl⟩

/-- Two maps with the same lookups are equal. -/
theorem ext_get? {m m' : OrdMap K V} (h : ∀ k, m.get? k = m'.get? k) : m = m' :=
  entries_inj.1 (ext_lookupL m.sorted m'.sorted h)

/-! ### Counting values -/

/-- How many values satisfy `p`. -/
def countVals (p : V → Bool) (m : OrdMap K V) : ℕ := m.entries.countP fun e => p e.2

/-- One if the value satisfies `p`. -/
def countOne (p : V → Bool) (v : Option V) : ℕ := v.elim 0 fun v => (p v).toNat

theorem countP_filter_ne (p : V → Bool) (k : K) {es : List (K × V)}
    (h : es.Pairwise fun a b => a.1 < b.1) : es.countP (fun e => p e.2) =
      (es.filter fun e => e.1 ≠ k).countP (fun e => p e.2) + countOne p (lookupL k es) := by
  induction es with
  | nil => rfl
  | cons e es ih =>
    obtain ⟨he, hes⟩ := List.pairwise_cons.1 h
    rw [List.countP_cons, ih hes, List.filter_cons, lookupL]
    by_cases hk : e.1 = k
    · subst hk
      rw [lookupL_eq_none_of_lt he]
      cases hp : p e.2 <;> simp [countOne, hp]
    · simp only [hk, ne_eq, not_false_eq_true, decide_true, ↓reduceIte, List.countP_cons]
      omega

theorem countVals_erase (p : V → Bool) (m : OrdMap K V) (k : K) :
    m.countVals p = (m.erase k).countVals p + countOne p (m.get? k) :=
  countP_filter_ne p k m.sorted

theorem countVals_insert (p : V → Bool) (m : OrdMap K V) (k : K) (v : V) :
    (m.insert k v).countVals p + countOne p (m.get? k) = m.countVals p + (p v).toNat := by
  have herase : (m.insert k v).erase k = m.erase k := ext_get? fun k' => by
    rw [get?_erase, get?_erase, get?_insert]
    split_ifs <;> rfl
  rw [countVals_erase p (m.insert k v) k, countVals_erase p m k, herase, get?_insert_self]
  simp only [countOne, Option.elim_some]
  omega

/-- Apply a function of key and value to every value. -/
def mapWithKey {W : Type*} (f : K → V → W) (m : OrdMap K V) : OrdMap K W :=
  ⟨m.entries.map fun e => (e.1, f e.1 e.2), List.pairwise_map.2 (m.sorted.imp fun h => h)⟩

theorem get?_mapWithKey {W : Type*} (f : K → V → W) (m : OrdMap K V) (k : K) :
    (m.mapWithKey f).get? k = (m.get? k).map (f k) := by
  have hlookup : ∀ es : List (K × V),
      lookupL k (es.map fun e => (e.1, f e.1 e.2)) = (lookupL k es).map (f k) := by
    intro es
    induction es with
    | nil => rfl
    | cons e es ih =>
      simp only [List.map_cons, lookupL, ih]
      split_ifs with hk
      · rw [hk, Option.map_some]
      · rfl
  exact hlookup m.entries

/-- Apply a function to every value. -/
def mapVals {W : Type*} (f : V → W) (m : OrdMap K V) : OrdMap K W :=
  ⟨m.entries.map fun e => (e.1, f e.2), by
    refine List.pairwise_map.2 (m.sorted.imp ?_)
    intro a b h
    exact h⟩

theorem get?_mapVals {W : Type*} (f : V → W) (m : OrdMap K V) (k : K) :
    (m.mapVals f).get? k = (m.get? k).map f :=
  get?_mapWithKey (fun _ => f) m k

@[simp] theorem mapVals_empty {W : Type*} (f : V → W) :
    (OrdMap.empty : OrdMap K V).mapVals f = OrdMap.empty := rfl

theorem mapVals_id (m : OrdMap K V) : (m.mapVals fun v => v) = m :=
  ext_get? fun k => by rw [get?_mapVals, Option.map_id']

theorem mapVals_mapVals {W X : Type*} (f : V → W) (g : W → X) (m : OrdMap K V) :
    (m.mapVals f).mapVals g = m.mapVals (g ∘ f) :=
  ext_get? fun k => by rw [get?_mapVals, get?_mapVals, get?_mapVals, Option.map_map]

theorem mapVals_insert {W : Type*} (f : V → W) (m : OrdMap K V) (k : K) (v : V) :
    (m.insert k v).mapVals f = (m.mapVals f).insert k (f v) := by
  refine ext_get? fun k' => ?_
  rw [get?_mapVals, get?_insert, get?_insert, get?_mapVals]
  split_ifs
  · rfl
  · rfl

/-! ### Inserting several entries -/

/-- Insert the entries whose keys are not there. -/
def insertMissing (m : OrdMap K V) (es : List (K × V)) : OrdMap K V :=
  es.foldl (fun m e => if (m.get? e.1).isSome then m else m.insert e.1 e.2) m

/-- What is there stays; else the first entry of the key counts. -/
theorem get?_insertMissing (m : OrdMap K V) (es : List (K × V)) (k : K) :
    (m.insertMissing es).get? k = (m.get? k).or ((es.find? fun e => e.1 = k).map Prod.snd) := by
  induction es generalizing m with
  | nil => simp [insertMissing]
  | cons e es ih =>
    rw [insertMissing, List.foldl_cons, ← insertMissing, ih, List.find?_cons]
    by_cases hk : e.1 = k
    · subst hk
      cases hm : m.get? e.1 with
      | none => simp
      | some v => simp [hm]
    · have hsame : (if (m.get? e.1).isSome then m else m.insert e.1 e.2).get? k = m.get? k := by
        split_ifs
        · rfl
        · exact get?_insert_of_ne _ _ hk
      rw [hsame, decide_eq_false hk]

theorem insertMissing_eq_self {m : OrdMap K V} {es : List (K × V)}
    (h : ∀ e ∈ es, (m.get? e.1).isSome = true) : m.insertMissing es = m := by
  refine ext_get? fun k => ?_
  rw [get?_insertMissing]
  cases hm : m.get? k with
  | some v => rfl
  | none =>
    rw [Option.none_or, List.find?_eq_none.2, Option.map_none]
    intro e he hk
    have hsome := h e he
    rw [of_decide_eq_true hk, hm] at hsome
    cases hsome

theorem insertMissing_self (m : OrdMap K V) (es : List (K × V)) :
    (m.insertMissing es).insertMissing es = m.insertMissing es := by
  refine insertMissing_eq_self fun e he => ?_
  rw [get?_insertMissing]
  cases m.get? e.1 with
  | some v => rfl
  | none =>
    rw [Option.none_or, Option.isSome_map, List.find?_isSome]
    exact ⟨e, he, decide_eq_true rfl⟩

/-- Entries with different keys can be inserted in either order. -/
theorem insertMissing_comm (m : OrdMap K V) {es fs : List (K × V)}
    (h : ∀ e ∈ es, ∀ d ∈ fs, e.1 ≠ d.1) :
    (m.insertMissing fs).insertMissing es = (m.insertMissing es).insertMissing fs := by
  refine ext_get? fun k => ?_
  simp only [get?_insertMissing, Option.or_assoc]
  congr 1
  cases he : es.find? fun e => e.1 = k with
  | none => rw [Option.map_none, Option.or_none, Option.none_or]
  | some e =>
    have hkey : e.1 = k := by simpa using List.find?_some he
    have hnone : fs.find? (fun d => d.1 = k) = none := by
      refine List.find?_eq_none.2 fun d hd hk => ?_
      exact h e (List.mem_of_find?_eq_some he) d hd (hkey.trans (of_decide_eq_true hk).symm)
    rw [hnone, Option.map_none, Option.or_none, Option.none_or]

/-- Insert a list of entries from left to right. -/
def upsertAll (m : OrdMap K V) (es : List (K × V)) : OrdMap K V :=
  es.foldl (fun m e => m.insert e.1 e.2) m

@[simp] theorem upsertAll_nil (m : OrdMap K V) : m.upsertAll [] = m := rfl

theorem upsertAll_cons (m : OrdMap K V) (e : K × V) (es : List (K × V)) :
    m.upsertAll (e :: es) = (m.insert e.1 e.2).upsertAll es := rfl

theorem get?_upsertAll_of_notMem {m : OrdMap K V} {es : List (K × V)} {k : K}
    (h : k ∉ es.map Prod.fst) : (m.upsertAll es).get? k = m.get? k := by
  induction es generalizing m with
  | nil => rfl
  | cons e es ih =>
    simp only [List.map_cons, List.mem_cons, not_or] at h
    rw [upsertAll_cons, ih h.2, get?_insert_of_ne _ _ (Ne.symm h.1)]

theorem isSome_get?_upsertAll {m : OrdMap K V} {es : List (K × V)} {k : K} :
    ((m.upsertAll es).get? k).isSome ↔ (m.get? k).isSome ∨ k ∈ es.map Prod.fst := by
  induction es generalizing m with
  | nil => simp
  | cons e es ih =>
    rw [upsertAll_cons, ih, get?_insert, List.map_cons, List.mem_cons]
    by_cases h : e.1 = k
    · simp [h]
    · simp [h, Ne.symm h]

/-- With distinct keys, every inserted entry is found again. -/
theorem get?_upsertAll_of_mem {m : OrdMap K V} {es : List (K × V)}
    (hd : (es.map Prod.fst).Nodup) {k : K} {v : V} (h : (k, v) ∈ es) :
    (m.upsertAll es).get? k = some v := by
  induction es generalizing m with
  | nil => cases h
  | cons e es ih =>
    simp only [List.map_cons, List.nodup_cons] at hd
    rw [upsertAll_cons]
    rcases List.mem_cons.1 h with rfl | h
    · rw [get?_upsertAll_of_notMem hd.1, get?_insert_self]
    · exact ih hd.2 h

/-- The entries of another map take precedence. -/
theorem get?_upsertAll_entries (m m' : OrdMap K V) (k : K) :
    (m.upsertAll m'.entries).get? k = (m'.get? k).or (m.get? k) := by
  cases h : m'.get? k with
  | none =>
    have hmem : k ∉ m'.entries.map Prod.fst := by
      intro hk
      have hsome := mem_keys.1 hk
      rw [h] at hsome
      cases hsome
    rw [get?_upsertAll_of_notMem hmem, Option.none_or]
  | some v =>
    have hnodup : (m'.entries.map Prod.fst).Nodup :=
      (List.pairwise_map.2 m'.sorted).imp fun hlt => hlt.ne
    rw [get?_upsertAll_of_mem hnodup (mem_entries.2 h), Option.some_or]

/-- The entries under one first key, when their second keys count from 0. -/
theorem filter_entries_lex {m : OrdMap (K ×ₗ ℕ) V} {k : K} {cs : List V}
    (h : ∀ i, m.get? (toLex (k, i)) = cs[i]?) :
    (m.entries.filter fun e => (ofLex e.1).1 = k).map Prod.snd = cs := by
  have hlist : (m.entries.filter fun e => (ofLex e.1).1 = k) =
      cs.zipIdx.map fun c => (toLex (k, c.2), c.1) := by
    have hsorted : (m.entries.filter fun e => (ofLex e.1).1 = k).Pairwise fun a b => a.1 < b.1 :=
      m.sorted.sublist List.filter_sublist
    have hsorted' : (cs.zipIdx.map fun c => ((toLex (k, c.2) : K ×ₗ ℕ), c.1)).Pairwise
        fun a b => a.1 < b.1 := by
      rw [List.pairwise_map, List.pairwise_iff_getElem]
      intro i j hi hj hij
      simpa [Prod.Lex.toLex_lt_toLex] using hij
    refine ext_lookupL hsorted hsorted' fun key => Option.ext fun v => ?_
    rw [← mem_iff_lookupL hsorted, ← mem_iff_lookupL hsorted', List.mem_filter, mem_entries,
      decide_eq_true_iff, List.mem_map]
    constructor
    · rintro ⟨hget, rfl⟩
      have hcs : cs[(ofLex key).2]? = some v := by rw [← h]; exact hget
      exact ⟨(v, (ofLex key).2), List.mem_zipIdx_iff_getElem?.2 hcs, rfl⟩
    · rintro ⟨c, hc, heq⟩
      obtain ⟨rfl, rfl⟩ := Prod.mk.inj heq
      exact ⟨(h _).trans (List.mem_zipIdx_iff_getElem?.1 hc), rfl⟩
  rw [hlist, List.map_map]
  exact List.zipIdx_map_fst 0 cs

end OrdMap
