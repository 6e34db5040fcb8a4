import Mathlib.Order.BoundedOrder.Lattice
import Mathlib.Order.WithBot
import Replicore.Lib.OrdMap

/-!
# Last-writer-wins registers

A finite map that keeps one entry for each key, the one of greatest rank so far.  What a register
knows is the function `rankAt`, from keys to `WithBot R`; merging an entry is a join with the
function that has the entry's rank at the entry's key and `⊥` elsewhere (`rankAt_merge`).  So the
ranks after any merges are the least that are at or above those of the register and of every entry
merged (`rankAt_mergeAll_le_iff`), whatever the order.
-/

/-- A map whose entries stand under their own key. -/
structure Lww (K E : Type*) [LinearOrder K] (key : E → K) where
  /-- The entries, in key order. -/
  map : OrdMap K E
  /-- Every entry stands under its own key. -/
  keyed : ∀ k e, map.get? k = some e → key e = k

namespace Lww

variable {K E R : Type*} [LinearOrder K] {key : E → K}

/-- The register without entries. -/
def empty : Lww K E key := ⟨.empty, fun _ _ h => by cases h⟩

instance : Inhabited (Lww K E key) := ⟨empty⟩

/-- The entry under `k`. -/
def get? (r : Lww K E key) (k : K) : Option E := r.map.get? k

/-- Every entry, in key order. -/
def toList (r : Lww K E key) : List E := r.map.entries.map Prod.snd

/-- Put an entry under its key. -/
def put (r : Lww K E key) (e : E) : Lww K E key where
  map := r.map.insert (key e) e
  keyed := by
    intro k e' h
    rw [OrdMap.get?_insert] at h
    split_ifs at h with hk
    · cases h; exact hk
    · exact r.keyed k e' h

@[simp] theorem get?_empty (k : K) : (empty : Lww K E key).get? k = none := rfl

theorem get?_put (r : Lww K E key) (e : E) (k : K) :
    (r.put e).get? k = if key e = k then some e else r.get? k :=
  OrdMap.get?_insert r.map (key e) k e

/-- Registers with the same entries are equal. -/
theorem ext_get? {r r' : Lww K E key} (h : ∀ k, r.get? k = r'.get? k) : r = r' := by
  obtain ⟨map, keyed⟩ := r
  obtain ⟨map', keyed'⟩ := r'
  obtain rfl : map = map' := OrdMap.ext_get? h
  rfl

theorem mem_toList {r : Lww K E key} {e : E} : e ∈ r.toList ↔ r.get? (key e) = some e := by
  simp only [toList, List.mem_map, Prod.exists, exists_eq_right, get?]
  constructor
  · rintro ⟨k, h⟩
    have hk := r.keyed k e (OrdMap.mem_entries.1 h)
    rw [hk]
    exact OrdMap.mem_entries.1 h
  · exact fun h => ⟨key e, OrdMap.mem_entries.2 h⟩

theorem nodup_toList (r : Lww K E key) : (r.toList.map key).Nodup := by
  have hkeys : r.toList.map key = r.map.entries.map Prod.fst := by
    rw [toList, List.map_map]
    refine List.map_congr_left fun e he => ?_
    exact r.keyed e.1 e.2 (OrdMap.mem_entries.1 he)
  rw [hkeys]
  exact (List.pairwise_map.2 r.map.sorted).imp fun h => h.ne

/-- Registers whose entries look alike under every key list alike. -/
theorem toList_map_congr {W : Type*} {r r' : Lww K E key} {f : E → W}
    (h : ∀ k, (r.get? k).map f = (r'.get? k).map f) : r.toList.map f = r'.toList.map f := by
  have hmap : r.map.mapVals f = r'.map.mapVals f := by
    refine OrdMap.ext_get? fun k => ?_
    rw [OrdMap.get?_mapVals, OrdMap.get?_mapVals]
    exact h k
  have hentries := congrArg (fun m : OrdMap K W => m.entries.map Prod.snd) hmap
  simpa [OrdMap.mapVals, toList, Function.comp_def] using hentries

/-- Registers that list alike look alike under every key, if the look tells the key. -/
theorem get?_map_of_toList_map {W : Type*} {r r' : Lww K E key} {f : E → W}
    (hf : ∀ a b, f a = f b → key a = key b) (h : r.toList.map f = r'.toList.map f) (k : K) :
    (r.get? k).map f = (r'.get? k).map f := by
  have hmem : ∀ {r r' : Lww K E key}, r.toList.map f = r'.toList.map f → ∀ {e : E},
      r.get? k = some e → (r'.get? k).map f = some (f e) := by
    intro r r' h e he
    have hk : key e = k := r.keyed k e he
    have hlist : f e ∈ r'.toList.map f := h ▸ List.mem_map_of_mem (mem_toList.2 (hk ▸ he))
    obtain ⟨e', he', hfe⟩ := List.mem_map.1 hlist
    have hget := mem_toList.1 he'
    rw [hf e' e hfe, hk] at hget
    rw [hget, Option.map_some, hfe]
  cases he : r.get? k with
  | some e => exact (hmem h he).symm
  | none =>
    cases he' : r'.get? k with
    | none => rfl
    | some e' =>
      have := hmem h.symm he'
      rw [he] at this
      cases this

section Rank

variable (rank : E → R)

/-- The rank of the entry under `k`, `⊥` if there is none. -/
def rankAt (r : Lww K E key) (k : K) : WithBot R :=
  match r.get? k with
  | some e => ↑(rank e)
  | none => ⊥

/-- The rank of one entry, at its own key only. -/
def point (key : E → K) (e : E) (k : K) : WithBot R := if key e = k then ↑(rank e) else ⊥

variable {rank}

theorem rankAt_of_get? {r : Lww K E key} {k : K} {e : E} (h : r.get? k = some e) :
    r.rankAt rank k = ↑(rank e) := by
  simp only [rankAt, h]

theorem rankAt_eq_bot {r : Lww K E key} {k : K} : r.rankAt rank k = ⊥ ↔ r.get? k = none := by
  cases h : r.get? k with
  | none => simp [rankAt, h]
  | some e => simp [rankAt_of_get? h]

theorem get?_of_rankAt {r : Lww K E key} {k : K} {x : R} (h : r.rankAt rank k = ↑x) :
    ∃ e, r.get? k = some e ∧ rank e = x := by
  cases he : r.get? k with
  | none => rw [rankAt_eq_bot.2 he] at h; cases h
  | some e => exact ⟨e, rfl, WithBot.coe_injective ((rankAt_of_get? he).symm.trans h)⟩

theorem rankAt_put (r : Lww K E key) (e : E) (k : K) :
    (r.put e).rankAt rank k = if key e = k then ↑(rank e) else r.rankAt rank k := by
  by_cases hk : key e = k
  · rw [if_pos hk, rankAt_of_get? (by rw [get?_put, if_pos hk])]
  · rw [if_neg hk]
    simp only [rankAt, get?_put, if_neg hk]

variable [LinearOrder R]

variable (rank) in
/-- Keep the entry with the greater rank; of equals, the one that is there. -/
def merge (r : Lww K E key) (e : E) : Lww K E key :=
  match r.get? (key e) with
  | some cur => if rank e ≤ rank cur then r else r.put e
  | none => r.put e

variable (rank) in
/-- Merge a list of entries. -/
def mergeAll (r : Lww K E key) (es : List E) : Lww K E key := es.foldl (merge rank) r

variable (rank) in
/-- A merge keeps the register or puts the entry, and puts it exactly when it ranks higher. -/
theorem merge_cases (r : Lww K E key) (e : E) :
    (merge rank r e = r ∧ ↑(rank e) ≤ r.rankAt rank (key e)) ∨
      (merge rank r e = r.put e ∧ r.rankAt rank (key e) < ↑(rank e)) := by
  unfold merge
  cases h : r.get? (key e) with
  | none => exact .inr ⟨rfl, by rw [rankAt_eq_bot.2 h]; exact WithBot.bot_lt_coe _⟩
  | some cur =>
    rw [rankAt_of_get? h, WithBot.coe_le_coe, WithBot.coe_lt_coe]
    by_cases hle : rank e ≤ rank cur
    · exact .inl ⟨if_pos hle, hle⟩
    · exact .inr ⟨if_neg hle, not_le.1 hle⟩

/-- **Merging is joining.** -/
theorem rankAt_merge (r : Lww K E key) (e : E) :
    (merge rank r e).rankAt rank = r.rankAt rank ⊔ point rank key e := by
  funext k
  simp only [Pi.sup_apply, point]
  obtain ⟨h, hle⟩ | ⟨h, hlt⟩ := merge_cases rank r e
  · rw [h]
    split_ifs with hk
    · subst hk
      exact (sup_eq_left.2 hle).symm
    · exact (sup_bot_eq _).symm
  · rw [h, rankAt_put]
    split_ifs with hk
    · subst hk
      exact (sup_eq_right.2 hlt.le).symm
    · exact (sup_bot_eq _).symm

@[simp] theorem mergeAll_nil (r : Lww K E key) : mergeAll rank r [] = r := rfl

@[simp] theorem mergeAll_cons (r : Lww K E key) (e : E) (es : List E) :
    mergeAll rank r (e :: es) = mergeAll rank (merge rank r e) es := rfl

theorem mergeAll_append (r : Lww K E key) (es es' : List E) :
    mergeAll rank r (es ++ es') = mergeAll rank (mergeAll rank r es) es' :=
  List.foldl_append

/-- What merges end up at or below: an upper bound of the start and of every entry merged. -/
theorem rankAt_mergeAll_le_iff {r : Lww K E key} {es : List E} {f : K → WithBot R} :
    (mergeAll rank r es).rankAt rank ≤ f ↔
      r.rankAt rank ≤ f ∧ ∀ e ∈ es, point rank key e ≤ f := by
  induction es generalizing r with
  | nil => simp
  | cons e es ih => rw [mergeAll_cons, ih, rankAt_merge, sup_le_iff, List.forall_mem_cons, and_assoc]

theorem rankAt_le_mergeAll (r : Lww K E key) (es : List E) :
    r.rankAt rank ≤ (mergeAll rank r es).rankAt rank :=
  (rankAt_mergeAll_le_iff.1 le_rfl).1

theorem point_le_mergeAll (r : Lww K E key) {es : List E} {e : E} (h : e ∈ es) :
    point rank key e ≤ (mergeAll rank r es).rankAt rank :=
  (rankAt_mergeAll_le_iff.1 le_rfl).2 e h

theorem point_le_iff {e : E} {f : K → WithBot R} :
    point rank key e ≤ f ↔ ↑(rank e) ≤ f (key e) := by
  constructor
  · intro h
    simpa [point] using h (key e)
  · intro h k
    simp only [point]
    split_ifs with hk
    · exact hk ▸ h
    · exact bot_le

/-- Merging everything another register holds is the join of the two. -/
theorem rankAt_mergeAll_toList (r r' : Lww K E key) :
    (mergeAll rank r r'.toList).rankAt rank = r.rankAt rank ⊔ r'.rankAt rank := by
  refine eq_of_forall_ge_iff fun f => ?_
  rw [rankAt_mergeAll_le_iff, sup_le_iff]
  refine and_congr_right fun _ => ⟨fun h k => ?_, fun h e he => ?_⟩
  · cases hk : r'.get? k with
    | none => rw [rankAt_eq_bot.2 hk]; exact bot_le
    | some e =>
      have hkey : key e = k := r'.keyed k e hk
      subst hkey
      rw [rankAt_of_get? hk]
      exact point_le_iff.1 (h e (mem_toList.2 hk))
  · rw [point_le_iff, ← rankAt_of_get? (mem_toList.1 he)]
    exact h (key e)

/-- An entry of the result was there before or was merged. -/
theorem get?_mergeAll {r : Lww K E key} {es : List E} {k : K} {e : E}
    (h : (mergeAll rank r es).get? k = some e) : r.get? k = some e ∨ e ∈ es := by
  induction es generalizing r with
  | nil => exact .inl h
  | cons x es ih =>
    obtain h | h := ih h
    · obtain ⟨hm, -⟩ | ⟨hm, -⟩ := merge_cases rank r x
      · exact .inl (hm ▸ h)
      · rw [hm, get?_put] at h
        split_ifs at h with hk
        · cases h; exact .inr List.mem_cons_self
        · exact .inl h
    · exact .inr (List.mem_cons_of_mem _ h)

end Rank

end Lww
