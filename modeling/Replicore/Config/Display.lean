import Mathlib.Data.Bool.AllAny
import Replicore.Lib.Code
import Replicore.Lib.Printed
import Replicore.Membership.Handle

/-!
# Values as they are printed

`Config::diff` compares the texts of two values: `Display` of numbers and socket addresses, and the
derived `Debug` of the bandwidth limits.  Such a text determines the value, but for the flow label
of a v6 address, which is not printed.

* `displayV4_inj`, `displayV6_inj` : addresses, with `::` for a run of zeros;
* `SocketAddr.display_eq_iff` : addresses with a port;
* `BandwidthCfg.debug_injective` : limits with a schedule of any length.
-/

namespace Replicore

open Printed

/-! ### Addresses -/

/-- An unsigned integer. -/
def displayNat (n : ℕ) : List Char := Nat.toDigits 10 n

/-- The four octets of a v4 address. -/
def displayV4 (ip : ℕ) : List Char :=
  ['.'].intercalate ([3, 2, 1, 0].map fun i => displayNat (ip / 256 ^ i % 256))

/-- The eight segments of a v6 address. -/
def segments (ip : ℕ) : List ℕ := [7, 6, 5, 4, 3, 2, 1, 0].map fun i => ip / 65536 ^ i % 65536

/-- The longest run of zeros in a list of segments: where it starts and how long it is.  The scan
keeps the longest run and the one it is in. -/
def longestZeros : ℕ → List ℕ → ℕ × ℕ → ℕ × ℕ → ℕ × ℕ
  | _, [], _, longest => longest
  | i, seg :: segs, current, longest =>
    if seg = 0 then
      let current := if current.2 = 0 then (i, 1) else (current.1, current.2 + 1)
      longestZeros (i + 1) segs current (if longest.2 < current.2 then current else longest)
    else longestZeros (i + 1) segs (0, 0) longest

/-- `fmt_subslice`. -/
def fmtSubslice (segs : List ℕ) : List Char := [':'].intercalate (segs.map (Nat.toDigits 16))

/-- Segments, with `::` for the longest run of at least two zeros. -/
def displaySegments (segs : List ℕ) : List Char :=
  let zeros := longestZeros 0 segs (0, 0) (0, 0)
  if 1 < zeros.2 then
    fmtSubslice (segs.take zeros.1) ++ "::".toList ++ fmtSubslice (segs.drop (zeros.1 + zeros.2))
  else fmtSubslice segs

/-- A v6 address; a mapped v4 address has its dots. -/
def displayV6 (ip : ℕ) : List Char :=
  if ip / 2 ^ 32 = 0xffff then "::ffff:".toList ++ displayV4 (ip % 2 ^ 32)
  else displaySegments (segments ip)

/-- `Display` of a socket address.  The flow label is not printed. -/
def SocketAddr.display : SocketAddr → List Char
  | .v4 ip port => displayV4 ip.val ++ ':' :: displayNat port.val
  | .v6 ip port _ scopeId =>
    '[' :: displayV6 ip.val ++
      (if scopeId = 0 then [] else '%' :: displayNat scopeId.val) ++
      "]:".toList ++ displayNat port.val

variable {a b : ℕ}

theorem not_mem_toDigits {base n : ℕ} (hb : 1 < base) (hb' : base ≤ 16) {c : Char}
    (hc : c ∉ digitChars) : c ∉ Nat.toDigits base n :=
  fun h => hc (mem_digitChars_of_mem_toDigits hb hb' h)

theorem displayNat_injective : Function.Injective displayNat :=
  toDigits_injective (by decide) (by decide)

theorem displayV4_inj (ha : a < 2 ^ 32) (hb : b < 2 ^ 32) (h : displayV4 a = displayV4 b) :
    a = b := by
  have hdots : ∀ n : ℕ, ∀ l ∈ [3, 2, 1, 0].map fun i => displayNat (n / 256 ^ i % 256),
      '.' ∉ l := by
    intro n l hl
    obtain ⟨i, -, rfl⟩ := List.mem_map.1 hl
    exact not_mem_toDigits (by decide) (by decide) (by decide)
  have hoctets := intercalate_inj (hdots a) (hdots b) (by simp) (by simp) h
  refine eq_of_digits 4 ha hb fun i hi => displayNat_injective (List.map_inj_left.1 hoctets i ?_)
  simp only [List.mem_cons, List.not_mem_nil, or_false]
  omega

/-! ### Runs of zeros -/

/-- All segments of the run, given by its start and its length, are zero. -/
def ZeroRun (segs : List ℕ) (run : ℕ × ℕ) : Prop :=
  ∀ i, run.1 ≤ i → i < run.1 + run.2 → segs[i]? = some 0

/-- The scan keeps a run of zeros: the longest so far, and the one that ends where it is. -/
theorem zeroRun_longestZeros {segs : List ℕ} {i : ℕ} {rest : List ℕ} {current longest : ℕ × ℕ}
    (hrest : segs.drop i = rest) (hcurrent : ZeroRun segs current)
    (hends : current.2 = 0 ∨ current.1 + current.2 = i) (hlongest : ZeroRun segs longest) :
    ZeroRun segs (longestZeros i rest current longest) := by
  induction rest generalizing i current longest with
  | nil => exact hlongest
  | cons seg rest ih =>
    have hseg : segs[i]? = some seg := by
      rw [← List.head?_drop, hrest]
      rfl
    have hnext : segs.drop (i + 1) = rest := by
      rw [← List.tail_drop, hrest]
      rfl
    rw [longestZeros]
    by_cases hzero : seg = 0
    · rw [if_pos hzero]
      subst hzero
      -- the run that the scan is in, with the segment that it has just read
      have hlonger : ∀ run : ℕ × ℕ, ZeroRun segs run → run.1 + run.2 = i →
          ZeroRun segs (run.1, run.2 + 1) := by
        intro run hrun heq j hj hj'
        by_cases hji : j < run.1 + run.2
        · exact hrun j hj hji
        · obtain rfl : j = i := by
            simp only at hj'
            omega
          exact hseg
      have hnow : ZeroRun segs (if current.2 = 0 then (i, 1) else (current.1, current.2 + 1)) ∧
          (if current.2 = 0 then (i, 1) else (current.1, current.2 + 1)).1 +
            (if current.2 = 0 then (i, 1) else (current.1, current.2 + 1)).2 = i + 1 := by
        by_cases hc : current.2 = 0
        · rw [if_pos hc]
          exact ⟨hlonger (i, 0) (fun j hj hj' => by simp only at hj hj'; omega) rfl, rfl⟩
        · rw [if_neg hc]
          exact ⟨hlonger current hcurrent (hends.resolve_left hc),
            by have := hends.resolve_left hc; simp only; omega⟩
      generalize (if current.2 = 0 then (i, 1) else (current.1, current.2 + 1)) = now at hnow ⊢
      refine ih hnext hnow.1 (.inr hnow.2) ?_
      by_cases hlt : longest.2 < now.2
      · rw [if_pos hlt]
        exact hnow.1
      · rw [if_neg hlt]
        exact hlongest
    · rw [if_neg hzero]
      exact ih hnext (fun j hj hj' => by simp only at hj hj'; omega) (.inl rfl) hlongest

/-- What a run of zeros leaves out is known from the rest. -/
theorem eq_of_zeroRun {segs : List ℕ} {run : ℕ × ℕ} (h : ZeroRun segs run) (hpos : 0 < run.2) :
    run.1 + run.2 ≤ segs.length ∧
      segs = segs.take run.1 ++ List.replicate run.2 0 ++ segs.drop (run.1 + run.2) := by
  have hlen : run.1 + run.2 ≤ segs.length := by
    have hlast := h (run.1 + run.2 - 1) (by omega) (by omega)
    obtain ⟨hlt, -⟩ := List.getElem?_eq_some_iff.1 hlast
    omega
  refine ⟨hlen, ?_⟩
  have hzeros : (segs.drop run.1).take run.2 = List.replicate run.2 0 := by
    refine List.eq_replicate_iff.2 ⟨by rw [List.length_take, List.length_drop]; omega, ?_⟩
    intro seg hseg
    obtain ⟨i, hi⟩ := List.mem_iff_getElem?.1 hseg
    have hirun : i < run.2 := by
      obtain ⟨hlt, -⟩ := List.getElem?_eq_some_iff.1 hi
      rw [List.length_take] at hlt
      omega
    rw [List.getElem?_take_of_lt hirun, List.getElem?_drop,
      h (run.1 + i) (by omega) (by omega)] at hi
    exact (Option.some.inj hi).symm
  rw [← hzeros, ← List.drop_drop, List.append_assoc, List.take_append_drop, List.take_append_drop]

/-! ### Segments with a gap -/

/-- What stands between the separators on one side of a gap: there is something even if no segment
is left there. -/
def sideParts (segs : List ℕ) : List (List Char) :=
  if segs = [] then [[]] else segs.map (Nat.toDigits 16)

theorem sideParts_ne_nil (segs : List ℕ) : sideParts segs ≠ [] := by
  unfold sideParts
  split_ifs with h
  · exact List.cons_ne_nil _ _
  · exact fun hnil => h (List.map_eq_nil_iff.1 hnil)

theorem colon_not_mem_map {segs : List ℕ} : ∀ l ∈ segs.map (Nat.toDigits 16), ':' ∉ l := by
  intro l hl
  obtain ⟨seg, -, rfl⟩ := List.mem_map.1 hl
  exact not_mem_toDigits (by decide) (by decide) (by decide)

theorem colon_not_mem_sideParts {segs : List ℕ} : ∀ l ∈ sideParts segs, ':' ∉ l := by
  unfold sideParts
  split_ifs
  · intro l hl
    rw [List.mem_singleton.1 hl]
    exact List.not_mem_nil
  · exact colon_not_mem_map

theorem fmtSubslice_eq (segs : List ℕ) : fmtSubslice segs = [':'].intercalate (sideParts segs) := by
  unfold fmtSubslice sideParts
  split_ifs with h
  · rw [h]
    rfl
  · rfl

/-- The text with a gap, as a list with separators that has one empty item more. -/
theorem fmtSubslice_gap (left right : List ℕ) :
    fmtSubslice left ++ "::".toList ++ fmtSubslice right =
      [':'].intercalate (sideParts left ++ [] :: sideParts right) := by
  rw [intercalate_append (sideParts_ne_nil left) (List.cons_ne_nil _ _),
    List.intercalate_cons_of_ne_nil (sideParts_ne_nil right), fmtSubslice_eq, fmtSubslice_eq]
  simp

theorem colon_not_mem_gap (left right : List ℕ) :
    ∀ l ∈ sideParts left ++ [] :: sideParts right, ':' ∉ l := by
  intro l hl
  obtain hl | hl := List.mem_append.1 hl
  · exact colon_not_mem_sideParts l hl
  · obtain rfl | hl := List.mem_cons.1 hl
    · exact List.not_mem_nil
    · exact colon_not_mem_sideParts l hl

theorem map_toDigits_injective {segs segs' : List ℕ}
    (h : segs.map (Nat.toDigits 16) = segs'.map (Nat.toDigits 16)) : segs = segs' :=
  List.map_injective_iff.2 (toDigits_injective (by decide) (by decide)) h

theorem ne_nil_of_mem_map (segs : List ℕ) : ∀ l ∈ segs.map (Nat.toDigits 16), l ≠ [] := by
  intro l hl
  obtain ⟨seg, -, rfl⟩ := List.mem_map.1 hl
  exact Nat.toDigits_ne_nil

theorem sideParts_injective {segs segs' : List ℕ} (h : sideParts segs = sideParts segs') :
    segs = segs' := by
  have hne : ∀ segs : List ℕ, segs.map (Nat.toDigits 16) ≠ [[]] := fun segs heq =>
    ne_nil_of_mem_map segs [] (heq ▸ List.mem_singleton_self _) rfl
  unfold sideParts at h
  split_ifs at h with hnil hnil' hnil'
  · rw [hnil, hnil']
  · exact absurd h.symm (hne _)
  · exact absurd h (hne _)
  · exact map_toDigits_injective h

/-- The segments on both sides of a gap are known from the text. -/
theorem gap_inj {left right left' right' : List ℕ}
    (h : fmtSubslice left ++ "::".toList ++ fmtSubslice right =
      fmtSubslice left' ++ "::".toList ++ fmtSubslice right') : left = left' ∧ right = right' := by
  rw [fmtSubslice_gap, fmtSubslice_gap] at h
  have hparts := intercalate_inj (colon_not_mem_gap left right) (colon_not_mem_gap left' right')
    (List.append_ne_nil_of_left_ne_nil (sideParts_ne_nil left) _)
    (List.append_ne_nil_of_left_ne_nil (sideParts_ne_nil left') _) h
  -- before the first empty item stand the segments on the left
  have hsplit : ∀ left right : List ℕ, ∃ gap, sideParts left ++ [] :: sideParts right =
      left.map (Nat.toDigits 16) ++ [] :: gap := by
    intro left right
    by_cases hnil : left = []
    · subst hnil
      exact ⟨[] :: sideParts right, rfl⟩
    · exact ⟨sideParts right, by rw [sideParts, if_neg hnil]⟩
  obtain ⟨gap, hgap⟩ := hsplit left right
  obtain ⟨gap', hgap'⟩ := hsplit left' right'
  have hrun := append_inj_of_run (p := fun l => l ≠ []) (ne_nil_of_mem_map left)
    (ne_nil_of_mem_map left') (not_not_intro rfl) (not_not_intro rfl)
    ((hgap.symm.trans hparts).trans hgap')
  obtain rfl : left = left' := map_toDigits_injective hrun.1
  have hright := List.append_cancel_left hparts
  exact ⟨rfl, sideParts_injective (List.cons.inj hright).2⟩

/-- A text with a gap is that of no list of segments. -/
theorem gap_ne {left right segs : List ℕ} (hne : segs ≠ []) :
    fmtSubslice left ++ "::".toList ++ fmtSubslice right ≠ fmtSubslice segs := by
  intro h
  rw [fmtSubslice_gap, fmtSubslice] at h
  have hparts := intercalate_inj (colon_not_mem_gap left right) colon_not_mem_map
    (List.append_ne_nil_of_left_ne_nil (sideParts_ne_nil left) _)
    (fun hnil => hne (List.map_eq_nil_iff.1 hnil)) h
  refine ne_nil_of_mem_map segs [] (hparts ▸ ?_) rfl
  exact List.mem_append_right _ List.mem_cons_self

theorem displaySegments_inj {segs segs' : List ℕ} (hlen : segs.length = 8)
    (hlen' : segs'.length = 8) (h : displaySegments segs = displaySegments segs') :
    segs = segs' := by
  have hne : segs ≠ [] := List.ne_nil_of_length_pos (by omega)
  have hne' : segs' ≠ [] := List.ne_nil_of_length_pos (by omega)
  have hnone : ∀ segs : List ℕ, ZeroRun segs (0, 0) := fun segs i hi hi' => by
    simp only at hi hi'
    omega
  have hscan : ∀ segs, ZeroRun segs (longestZeros 0 segs (0, 0) (0, 0)) := fun segs =>
    zeroRun_longestZeros List.drop_zero (hnone segs) (.inl rfl) (hnone segs)
  have hrun := hscan segs
  have hrun' := hscan segs'
  unfold displaySegments at h
  simp only at h
  generalize longestZeros 0 segs (0, 0) (0, 0) = zeros at h hrun
  generalize longestZeros 0 segs' (0, 0) (0, 0) = zeros' at h hrun'
  split_ifs at h with hgap hgap' hgap'
  · obtain ⟨hle, heq⟩ := eq_of_zeroRun hrun (by omega)
    obtain ⟨hle', heq'⟩ := eq_of_zeroRun hrun' (by omega)
    obtain ⟨hleft, hright⟩ := gap_inj h
    -- eight segments less those on both sides are in the gap
    have hstart : zeros.1 = zeros'.1 := by
      have := congrArg List.length hleft
      simp only [List.length_take] at this
      omega
    have hcount : zeros.2 = zeros'.2 := by
      have := congrArg List.length hright
      simp only [List.length_drop] at this
      omega
    rw [heq, heq', hleft, hright, hcount]
  · exact absurd h (gap_ne hne')
  · exact absurd h.symm (gap_ne hne)
  · exact map_toDigits_injective (intercalate_inj colon_not_mem_map colon_not_mem_map
      (fun hnil => hne (List.map_eq_nil_iff.1 hnil))
      (fun hnil => hne' (List.map_eq_nil_iff.1 hnil)) h)

/-! ### Socket addresses -/

/-- What an address is printed with. -/
def addrChars : List Char := ':' :: '.' :: digitChars

theorem mem_addrChars_of_mem_toDigits {base n : ℕ} (hb : 1 < base) (hb' : base ≤ 16) {c : Char}
    (h : c ∈ Nat.toDigits base n) : c ∈ addrChars :=
  List.mem_cons_of_mem _ (List.mem_cons_of_mem _ (mem_digitChars_of_mem_toDigits hb hb' h))

theorem mem_displayV4 {ip : ℕ} : ∀ c ∈ displayV4 ip, c = '.' ∨ c ∈ digitChars := by
  intro c hc
  obtain hdot | ⟨l, hl, hc⟩ := mem_of_mem_intercalate hc
  · exact .inl (List.mem_singleton.1 hdot)
  · obtain ⟨i, -, rfl⟩ := List.mem_map.1 hl
    exact .inr (mem_digitChars_of_mem_toDigits (by decide) (by decide) hc)

theorem mem_fmtSubslice {segs : List ℕ} : ∀ c ∈ fmtSubslice segs, c = ':' ∨ c ∈ digitChars := by
  intro c hc
  obtain hcolon | ⟨l, hl, hc⟩ := mem_of_mem_intercalate hc
  · exact .inl (List.mem_singleton.1 hcolon)
  · obtain ⟨i, -, rfl⟩ := List.mem_map.1 hl
    exact .inr (mem_digitChars_of_mem_toDigits (by decide) (by decide) hc)

theorem mem_displaySegments {segs : List ℕ} :
    ∀ c ∈ displaySegments segs, c = ':' ∨ c ∈ digitChars := by
  intro c hc
  unfold displaySegments at hc
  simp only at hc
  split_ifs at hc with hgap
  · obtain hc | hc := List.mem_append.1 hc
    · obtain hc | hc := List.mem_append.1 hc
      · exact mem_fmtSubslice c hc
      · have hcolon : c = ':' := by simpa using hc
        exact .inl hcolon
    · exact mem_fmtSubslice c hc
  · exact mem_fmtSubslice c hc

theorem mem_displayV6 {ip : ℕ} : ∀ c ∈ displayV6 ip, c ∈ addrChars := by
  intro c hc
  unfold displayV6 at hc
  split_ifs at hc
  · obtain hc | hc := List.mem_append.1 hc
    · have hmapped : ∀ c ∈ "::ffff:".toList, c ∈ addrChars :=
        List.all_iff_forall_prop.1 (by decide)
      exact hmapped c hc
    · obtain rfl | hc := mem_displayV4 c hc
      · decide
      · exact List.mem_cons_of_mem _ (List.mem_cons_of_mem _ hc)
  · obtain rfl | hc := mem_displaySegments c hc
    · decide
    · exact List.mem_cons_of_mem _ (List.mem_cons_of_mem _ hc)

theorem dot_mem_displayV4 (ip : ℕ) : '.' ∈ displayV4 ip := by
  simp [displayV4]

theorem segments_inj (ha : a < 2 ^ 128) (hb : b < 2 ^ 128) (h : segments a = segments b) :
    a = b := by
  refine eq_of_digits (b := 65536) 8 ha hb fun i hi => List.map_inj_left.1 h i ?_
  simp only [List.mem_cons, List.not_mem_nil, or_false]
  omega

theorem displayV6_inj (ha : a < 2 ^ 128) (hb : b < 2 ^ 128) (h : displayV6 a = displayV6 b) :
    a = b := by
  -- only a mapped address has a dot in it
  have hdot : ∀ ip segs, "::ffff:".toList ++ displayV4 ip ≠ displaySegments segs := by
    intro ip segs heq
    have hmem := heq ▸ List.mem_append_right "::ffff:".toList (dot_mem_displayV4 ip)
    obtain hcolon | hdigit := mem_displaySegments _ hmem
    · exact absurd hcolon (by decide)
    · exact absurd hdigit (by decide)
  unfold displayV6 at h
  split_ifs at h with hmapped hmapped' hmapped'
  · have hlow := displayV4_inj (Nat.mod_lt a (by decide)) (Nat.mod_lt b (by decide))
      (List.append_cancel_left h)
    omega
  · exact absurd h (hdot _ _)
  · exact absurd h.symm (hdot _ _)
  · exact segments_inj ha hb (displaySegments_inj rfl rfl h)

/-- The address without the flow label, which no text of an address has in it. -/
def SocketAddr.flowless : SocketAddr → SocketAddr
  | .v4 ip port => .v4 ip port
  | .v6 ip port _ scopeId => .v6 ip port 0 scopeId

/-- What follows a v6 address does not begin like one. -/
theorem scope_port_head (s : U32) (p : Fin (2 ^ 16)) : ∃ c rest, c ∉ addrChars ∧
    (if s = 0 then [] else '%' :: displayNat s.val) ++ ("]:".toList ++ displayNat p.val) =
      c :: rest := by
  split_ifs
  · exact ⟨']', _, by decide, rfl⟩
  · exact ⟨'%', _, by decide, rfl⟩

/-- It tells the scope and the port. -/
theorem scope_port_inj {s s' : U32} {p p' : Fin (2 ^ 16)}
    (h : (if s = 0 then [] else '%' :: displayNat s.val) ++ ("]:".toList ++ displayNat p.val) =
      (if s' = 0 then [] else '%' :: displayNat s'.val) ++ ("]:".toList ++ displayNat p'.val)) :
    s = s' ∧ p = p' := by
  have hport : ∀ {q q' : Fin (2 ^ 16)},
      "]:".toList ++ displayNat q.val = "]:".toList ++ displayNat q'.val → q = q' :=
    fun h => Fin.ext (displayNat_injective (List.append_cancel_left h))
  split_ifs at h with hs hs' hs'
  · exact ⟨hs.trans hs'.symm, hport h⟩
  · cases h
  · cases h
  · obtain ⟨hscope, hrest⟩ := toDigits_append_inj (b := 10) (by decide) (by decide)
      (c := ']') (d := ']') (by decide) (by decide) (List.cons.inj h).2
    exact ⟨Fin.ext hscope, hport hrest⟩

/-- The text of a socket address determines it but for the flow label. -/
theorem SocketAddr.display_eq_iff {a b : SocketAddr} :
    a.display = b.display ↔ a.flowless = b.flowless := by
  constructor
  · intro h
    -- the text of a v4 address does not begin with a bracket
    have hbracket : ∀ (ip : ℕ) (s t : List Char), displayV4 ip ++ ':' :: s ≠ '[' :: t := by
      intro ip s t heq
      have hmem : '[' ∈ displayV4 ip := by
        cases hv4 : displayV4 ip with
        | nil => exact absurd (dot_mem_displayV4 ip) (by simp [hv4])
        | cons c rest =>
          rw [hv4] at heq
          exact (List.cons.inj heq).1 ▸ List.mem_cons_self
      obtain hdot | hdigit := mem_displayV4 _ hmem
      · exact absurd hdot (by decide)
      · exact absurd hdigit (by decide)
    cases a with
    | v4 ip port =>
      cases b with
      | v4 ip' port' =>
        obtain ⟨hip, hport⟩ := append_inj_of_run (p := fun c => c = '.' ∨ c ∈ digitChars)
          mem_displayV4 mem_displayV4 (by decide) (by decide) h
        rw [Fin.ext (displayV4_inj ip.isLt ip'.isLt hip),
          Fin.ext (displayNat_injective (List.cons.inj hport).2)]
      | v6 ip' port' flow scope => exact absurd h (hbracket _ _ _)
    | v6 ip port flow scope =>
      cases b with
      | v4 ip' port' => exact absurd h.symm (hbracket _ _ _)
      | v6 ip' port' flow' scope' =>
        simp only [SocketAddr.display, List.cons_append, List.append_assoc, List.cons.injEq,
          true_and] at h
        obtain ⟨c, rest, hc, hrest⟩ := scope_port_head scope port
        obtain ⟨c', rest', hc', hrest'⟩ := scope_port_head scope' port'
        rw [hrest, hrest'] at h
        obtain ⟨hip, htail⟩ := append_inj_of_run mem_displayV6 mem_displayV6 hc hc' h
        obtain ⟨hscope, hport⟩ := scope_port_inj ((hrest.trans htail).trans hrest'.symm)
        rw [Fin.ext (displayV6_inj ip.isLt ip'.isLt hip), hscope, hport]
        rfl
  · intro h
    have hflow : ∀ a : SocketAddr, a.flowless.display = a.display := fun a => by cases a <;> rfl
    rw [← hflow a, h, hflow b]

/-- What a socket address is printed with. -/
theorem mem_display {a : SocketAddr} :
    ∀ c ∈ a.display, c ∈ '[' :: ']' :: '%' :: addrChars := by
  have hdigits : ∀ {n : ℕ}, ∀ c ∈ displayNat n, c ∈ '[' :: ']' :: '%' :: addrChars := fun c hc =>
    List.mem_cons_of_mem _ (List.mem_cons_of_mem _ (List.mem_cons_of_mem _
      (mem_addrChars_of_mem_toDigits (by decide) (by decide) hc)))
  intro c hc
  cases a with
  | v4 ip port =>
    obtain hc | hc := List.mem_append.1 hc
    · obtain rfl | hc := mem_displayV4 c hc
      · decide
      · simp [addrChars, hc]
    · obtain rfl | hc := List.mem_cons.1 hc
      · decide
      · exact hdigits c hc
  | v6 ip port flow scope =>
    simp only [SocketAddr.display, List.append_assoc, List.cons_append, List.mem_cons,
      List.mem_append] at hc
    obtain rfl | hc | hc | hc | hc := hc
    · decide
    · exact List.mem_cons_of_mem _ (List.mem_cons_of_mem _ (List.mem_cons_of_mem _
        (mem_displayV6 c hc)))
    · split_ifs at hc
      · cases hc
      · obtain rfl | hc := List.mem_cons.1 hc
        · decide
        · exact hdigits c hc
    · have hbracket : ∀ c ∈ "]:".toList, c ∈ '[' :: ']' :: '%' :: addrChars :=
        List.all_iff_forall_prop.1 (by decide)
      exact hbracket c hc
    · exact hdigits c hc

/-! ### Bandwidth limits -/

/-- The derived `Debug` of a structure. -/
def debugStruct (name : String) (fields : List (String × List Char)) : List Char :=
  name.toList ++ " \x7b ".toList ++
    (", ".toList).intercalate (fields.map fun f => f.1.toList ++ ": ".toList ++ f.2) ++
    " \x7d".toList

/-- The derived `Debug` of a vector. -/
def debugList (items : List (List Char)) : List Char :=
  '[' :: (", ".toList).intercalate items ++ [']']

/-- The days a schedule rule can name. -/
inductive DayName
  | all | weekday | weekend | sun | mon | tue | wed | thu | fri | sat
  deriving DecidableEq

/-- The name in the configuration. -/
def DayName.text : DayName → String
  | all => "all"
  | weekday => "weekday"
  | weekend => "weekend"
  | sun => "sun"
  | mon => "mon"
  | tue => "tue"
  | wed => "wed"
  | thu => "thu"
  | fri => "fri"
  | sat => "sat"

/-- A name in quotes. -/
def DayName.debug (d : DayName) : List Char := '"' :: d.text.toList ++ ['"']

/-- One time-of-day rule, its bounds in minutes since midnight. -/
structure ScheduleRule where
  days : List DayName
  startMin : Fin (2 ^ 16)
  endMin : Fin (2 ^ 16)
  globalBps : U64
  perPeerBps : U64
  deriving DecidableEq

/-- Bandwidth limits and schedule. -/
structure BandwidthCfg where
  globalBps : U64
  perPeerBps : U64
  smallAssetBytes : U64
  schedule : List ScheduleRule
  deriving DecidableEq

def ScheduleRule.debug (r : ScheduleRule) : List Char :=
  debugStruct "ScheduleRule"
    [("days", debugList (r.days.map DayName.debug)),
      ("start_min", displayNat r.startMin.val), ("end_min", displayNat r.endMin.val),
      ("global_bps", displayNat r.globalBps.val), ("per_peer_bps", displayNat r.perPeerBps.val)]

def BandwidthCfg.debug (b : BandwidthCfg) : List Char :=
  debugStruct "BandwidthCfg"
    [("global_bps", displayNat b.globalBps.val), ("per_peer_bps", displayNat b.perPeerBps.val),
      ("small_asset_bytes", displayNat b.smallAssetBytes.val),
      ("schedule", debugList (b.schedule.map (·.debug)))]

/-- A number before a text that does not begin with a digit. -/
theorem displayNat_append_inj {sep s t : List Char} (hsep : sep.head?.any (· ∉ digitChars) = true)
    (h : displayNat a ++ (sep ++ s) = displayNat b ++ (sep ++ t)) : a = b ∧ s = t := by
  cases sep with
  | nil => cases hsep
  | cons c sep =>
    have hc : c ∉ digitChars := of_decide_eq_true hsep
    obtain ⟨hnum, hrest⟩ := toDigits_append_inj (by decide) (by decide) hc hc h
    exact ⟨hnum, List.append_cancel_left (List.cons.inj hrest).2⟩

/-- A list whose items do not begin with a bracket. -/
theorem debugList_append_inj {α : Type} {c : α → List Char} (hcode : SelfDelimiting c)
    (hhead : ∀ a, ∃ d rest, c a = d :: rest ∧ d ≠ ']') {xs ys : List α} {s t : List Char}
    (h : debugList (xs.map c) ++ s = debugList (ys.map c) ++ t) :
    xs.map c = ys.map c ∧ s = t := by
  have hword : ∀ (u : List Char) (a : α) (v : List Char), [']'] ++ u ≠ c a ++ v := by
    intro u a v heq
    obtain ⟨d, rest, hd, hne⟩ := hhead a
    rw [hd] at heq
    exact hne (List.cons.inj heq).1.symm
  have hsep : ∀ u v : List Char, [']'] ++ u ≠ ", ".toList ++ v := fun u v heq =>
    absurd (List.cons.inj heq).1 (by decide)
  simp only [debugList, List.cons_append, List.append_assoc, List.cons.injEq, true_and] at h
  obtain ⟨hmap, hrest⟩ := hcode.map_eq_of_intercalate_append (hword s) (hsep s) (hword t) (hsep t) h
  exact ⟨hmap, List.append_cancel_left hrest⟩

theorem DayName.text_injective : Function.Injective fun d : DayName => d.text.toList := by
  have hfind : ∀ d : DayName, [all, weekday, weekend, sun, mon, tue, wed, thu, fri, sat].find?
      (fun e => e.text.toList = d.text.toList) = some d := by
    intro d
    cases d <;> decide
  intro d d' h
  have hd := hfind d
  rw [show d.text.toList = d'.text.toList from h, hfind d'] at hd
  exact (Option.some.inj hd).symm

theorem selfDelimiting_dayName : SelfDelimiting DayName.debug := by
  have hquote : ∀ d : DayName, ∀ c ∈ d.text.toList, c ≠ '"' := by
    intro d
    cases d <;> exact List.all_iff_forall_prop.1 (by decide)
  intro d d' s t h
  simp only [DayName.debug, List.cons_append, List.append_assoc, List.cons.injEq, true_and] at h
  obtain ⟨htext, -⟩ := append_inj_of_run (hquote d) (hquote d') (not_not_intro rfl)
    (not_not_intro rfl) h
  rw [DayName.debug, DayName.debug, htext]

theorem dayName_debug_injective : Function.Injective DayName.debug := fun _ _ h =>
  DayName.text_injective (List.append_cancel_right (List.cons.inj h).2)

/-- A rule is known from a text that it begins. -/
theorem scheduleRule_append_inj {r r' : ScheduleRule} {s t : List Char}
    (h : r.debug ++ s = r'.debug ++ t) : r = r' ∧ s = t := by
  simp only [ScheduleRule.debug, debugStruct, List.map_cons, List.map_nil,
    List.intercalate_cons_cons, List.intercalate_singleton, List.append_assoc,
    List.append_cancel_left_eq] at h
  obtain ⟨hdays, h⟩ := debugList_append_inj selfDelimiting_dayName
    (fun d => ⟨'"', _, rfl, by decide⟩) h
  simp only [List.append_cancel_left_eq] at h
  obtain ⟨hstart, h⟩ := displayNat_append_inj (by decide) h
  simp only [List.append_cancel_left_eq] at h
  obtain ⟨hend, h⟩ := displayNat_append_inj (by decide) h
  simp only [List.append_cancel_left_eq] at h
  obtain ⟨hglobal, h⟩ := displayNat_append_inj (by decide) h
  simp only [List.append_cancel_left_eq] at h
  obtain ⟨hpeer, h⟩ := displayNat_append_inj (by decide) h
  refine ⟨?_, h⟩
  cases r
  cases r'
  rw [ScheduleRule.mk.injEq]
  exact ⟨List.map_injective_iff.2 dayName_debug_injective hdays, Fin.ext hstart, Fin.ext hend,
    Fin.ext hglobal, Fin.ext hpeer⟩

/-- The printed limits determine them. -/
theorem BandwidthCfg.debug_injective : Function.Injective BandwidthCfg.debug := by
  intro b b' h
  simp only [BandwidthCfg.debug, debugStruct, List.map_cons, List.map_nil,
    List.intercalate_cons_cons, List.intercalate_singleton, List.append_assoc,
    List.append_cancel_left_eq] at h
  obtain ⟨hglobal, h⟩ := displayNat_append_inj (by decide) h
  simp only [List.append_cancel_left_eq] at h
  obtain ⟨hpeer, h⟩ := displayNat_append_inj (by decide) h
  simp only [List.append_cancel_left_eq] at h
  obtain ⟨hsmall, h⟩ := displayNat_append_inj (by decide) h
  simp only [List.append_cancel_left_eq] at h
  obtain ⟨hrules, -⟩ := debugList_append_inj
    (fun r r' s t hrs => congrArg ScheduleRule.debug (scheduleRule_append_inj hrs).1)
    (fun r => ⟨'S', _, rfl, by decide⟩) h
  have hinj : Function.Injective ScheduleRule.debug := fun r r' hr =>
    (scheduleRule_append_inj (congrArg (· ++ []) hr)).1
  cases b
  cases b'
  rw [BandwidthCfg.mk.injEq]
  exact ⟨Fin.ext hglobal, Fin.ext hpeer, Fin.ext hsmall, List.map_injective_iff.2 hinj hrules⟩

end Replicore
