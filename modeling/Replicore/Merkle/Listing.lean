import Mathlib.Algebra.Order.BigOperators.Group.List
import Mathlib.Data.Bool.AllAny
import Replicore.Merkle.Agree
import Replicore.Merkle.Session
import Replicore.Proto.Wire

/-!
# Directory listings over the wire

The listing of a remote directory goes page by page, each after the last name of the one before:
`MerkleTree::children_page` answers (`merkle.rs`), `QuicReconcile::children` asks (`net.rs`).  The
responder is a program with a state of its own, which answers a request as it likes.

What comes back is bounded by the byte budget of a directory, and so is the number of requests.
Over a responder that answers from its tree the loop collects every child once and in order,
exactly if each request that it makes fits into a frame (`childrenFrom_serve`).  A descent over any
responder ends (`isSome_pullFrom_overWire`): a directory below another one has a longer path, and
one whose path is longer than a frame can not be asked for.
-/

namespace Replicore

open Bytes Hoare MerkleTree

/-- Entries on one page. -/
def treePage : ℕ := 512

/-- The bytes of names and hashes that one listing may come to. -/
def listingBudget : ℕ := 32 * 1024 * 1024

/-! ### The responder's page -/

namespace MerkleTree

/-- A child as it is sent. -/
def wireChild (e : Path × Hash × Bool) : WireChild := ⟨e.1, e.2.1, e.2.2⟩

/-- The loop of `children_page` on what is left of the range. -/
def takePage : ℕ → List (Path × Hash × Bool) → List WireChild × Bool
  | 0, rest => ([], !rest.isEmpty)
  | _ + 1, [] => ([], false)
  | n + 1, e :: rest => (wireChild e :: (takePage n rest).1, (takePage n rest).2)

/-- One page of a directory's children, sorted, strictly after `afterName`; and whether there are
more. -/
def childrenPage (tree : MerkleTree) (dir afterName : Path) (limit : ℕ) : List WireChild × Bool :=
  match tree.dirs.get? dir with
  | none => ([], false)
  | some children => takePage limit (children.entries.filter fun e => afterName < e.1)

end MerkleTree

/-! ### The client's loop -/

/-- The names of a page checked, and charged to the budget. -/
def chargeChildren : ℕ → List WireChild → Except ReconcileError ℕ
  | budget, [] => .ok budget
  | budget, c :: cs =>
    if c.name = [] ∨ 255 < (utf8 c.name).length then
      .error (.violation "child name out of bounds")
    else if budget < (utf8 c.name).length + 33 then
      .error (.violation "directory listing exceeds budget")
    else chargeChildren (budget - ((utf8 c.name).length + 33)) cs

/-- A page checked: the budget it leaves. -/
def acceptPage (budget : ℕ) (children : List WireChild) (more : Bool) : Except ReconcileError ℕ :=
  if treePage < children.length % 2 ^ 32 then .error (.violation "oversized tree page")
  else if more = true ∧ children = [] then .error (.violation "empty page with more=true")
  else chargeChildren budget children

/-- What a child takes from the budget. -/
def WireChild.cost (c : WireChild) : ℕ := (utf8 c.name).length + 33

/-- The name is one that a file system could have. -/
def WireChild.Named (c : WireChild) : Prop := 1 ≤ (utf8 c.name).length ∧ (utf8 c.name).length ≤ 255

theorem length_utf8_pos {s : List Char} (h : s ≠ []) : 1 ≤ (utf8 s).length := by
  obtain ⟨c, s, rfl⟩ := List.exists_cons_of_ne_nil h
  rw [utf8_cons, List.length_append, charBytes, List.length_map]
  have := String.length_utf8EncodeChar c
  have := c.utf8Size_pos
  omega

/-- A page passes exactly if its names are in bounds and the budget suffices for it. -/
theorem chargeChildren_ok_iff {budget budget' : ℕ} {cs : List WireChild} :
    chargeChildren budget cs = .ok budget' ↔
      (∀ c ∈ cs, c.Named) ∧ budget' + (cs.map WireChild.cost).sum = budget := by
  induction cs generalizing budget with
  | nil => simp [chargeChildren, eq_comm]
  | cons c cs ih =>
    have hnil : c.name = [] ↔ (utf8 c.name).length = 0 := by
      constructor
      · intro h
        rw [h]
        rfl
      · intro h
        by_contra hne
        have := length_utf8_pos hne
        omega
    simp only [chargeChildren, hnil, List.forall_mem_cons, List.map_cons, List.sum_cons]
    split_ifs with hname hbudget
    · refine ⟨fun h => (by cases h), fun h => ?_⟩
      have := h.1.1.1
      have := h.1.1.2
      omega
    · refine ⟨fun h => (by cases h), fun h => ?_⟩
      have := h.2
      simp only [WireChild.cost] at this
      omega
    · rw [ih]
      have hnamed : c.Named := ⟨by omega, by omega⟩
      have hcost : c.cost ≤ budget := Nat.not_lt.1 hbudget
      refine ⟨fun h => ⟨⟨hnamed, h.1⟩, ?_⟩, fun h => ⟨h.1.2, ?_⟩⟩
      · have := h.2
        simp only [WireChild.cost] at this hcost ⊢
        omega
      · have := h.2
        simp only [WireChild.cost] at this hcost ⊢
        omega

/-- A page that announces another one is charged. -/
theorem acceptPage_lt {budget budget' : ℕ} {cs : List WireChild}
    (h : acceptPage budget cs true = .ok budget') : budget' + 34 ≤ budget := by
  unfold acceptPage at h
  split_ifs at h with hlong hempty
  obtain ⟨hnamed, hsum⟩ := chargeChildren_ok_iff.1 h
  cases cs with
  | nil => exact absurd ⟨rfl, rfl⟩ hempty
  | cons c cs =>
    have := (hnamed c List.mem_cons_self).1
    simp only [List.map_cons, List.sum_cons, WireChild.cost] at hsum
    omega

section

variable {σ : Type} (answer : ReconcileFrame → EStateM ReconcileError σ ReconcileFrame)

/-- One request: it is written as a frame, and the next frame is the answer. -/
def rpc (req : ReconcileFrame) : EStateM ReconcileError σ ReconcileFrame := fun t =>
  match writeMsg reconcileCodec req with
  | .error e => .error (.proto e) t
  | .ok _ => answer req t

/-- The loop of `children`: what has been collected, the last name of it, and what is left of the
budget. -/
def childrenFrom (limit : U32) (dir : Path) (budget : ℕ) (afterName : Path) (out : List WireChild)
    (t : σ) : EStateM.Result ReconcileError σ (List WireChild) :=
  match rpc answer (.treeReq dir afterName limit) t with
  | .error e t' => .error e t'
  | .ok (.treeResp children more) t' =>
    match _haccept : acceptPage budget children more with
    | .error e => .error e t'
    | .ok budget' =>
      if _hmore : more = true then
        childrenFrom limit dir budget' ((children.getLast?.map WireChild.name).getD afterName)
          (out ++ children) t'
      else .ok (out ++ children) t'
  | .ok _ t' => .error (.violation "expected TreeResp") t'
termination_by budget
decreasing_by
  subst _hmore
  have := acceptPage_lt _haccept
  omega

/-- The full child list of a remote directory. -/
def children (limit : U32) (dir : Path) : EStateM ReconcileError σ (List WireChild) :=
  childrenFrom answer limit dir listingBudget [] []

end

/-! ### Any responder -/

section

variable {σ : Type} {answer : ReconcileFrame → EStateM ReconcileError σ ReconcileFrame}

/-- A request that fits is answered, one that does not ends the session. -/
theorem rpc_cases (answer : ReconcileFrame → EStateM ReconcileError σ ReconcileFrame)
    (req : ReconcileFrame) (t : σ) :
    (reconcileCodec.Fits req ∧ rpc answer req t = answer req t) ∨
      (¬ reconcileCodec.Fits req ∧ rpc answer req t = .error (.proto .encode) t) := by
  unfold rpc
  rcases writeMsg_frameLimited (f := Wire.reconcileFrame) req with ⟨hfits, frame, hok⟩ | ⟨hbig, hfail⟩
  · exact .inl ⟨hfits, by rw [reconcileCodec, hok]⟩
  · exact .inr ⟨hbig, by rw [reconcileCodec, hfail]⟩

/-- A request that is answered was written as a frame. -/
theorem rpc_ok {req resp : ReconcileFrame} {t t' : σ} (h : rpc answer req t = .ok resp t') :
    reconcileCodec.Fits req ∧ answer req t = .ok resp t' := by
  rcases rpc_cases answer req t with ⟨hfits, heq⟩ | ⟨-, heq⟩
  · exact ⟨hfits, heq ▸ h⟩
  · rw [heq] at h
    cases h

/-- A page that passes has names that a file system could have, and is paid for. -/
theorem acceptPage_ok {budget budget' : ℕ} {cs : List WireChild} {more : Bool}
    (h : acceptPage budget cs more = .ok budget') :
    (∀ c ∈ cs, c.Named) ∧ budget' + (cs.map WireChild.cost).sum = budget := by
  unfold acceptPage at h
  split_ifs at h
  exact chargeChildren_ok_iff.1 h

/-- A page that passes: the loop goes on after its last name, or is done. -/
theorem childrenFrom_page {limit : U32} {dir afterName : Path} {budget budget' : ℕ}
    (out : List WireChild) {cs : List WireChild} {more : Bool} {t t' : σ}
    (hrpc : rpc answer (.treeReq dir afterName limit) t = .ok (.treeResp cs more) t')
    (haccept : acceptPage budget cs more = .ok budget') :
    childrenFrom answer limit dir budget afterName out t =
      if more then
        childrenFrom answer limit dir budget' ((cs.getLast?.map WireChild.name).getD afterName)
          (out ++ cs) t'
      else .ok (out ++ cs) t' := by
  rw [childrenFrom]
  simp only [hrpc]
  split
  · rename_i h
    rw [haccept] at h
    cases h
  · rename_i h
    rw [haccept] at h
    cases h
    split_ifs <;> rfl

/-- What the loop collects, over any responder. -/
theorem childrenFrom_ok {limit : U32} {dir afterName : Path} {budget : ℕ}
    {out res : List WireChild} {t t' : σ}
    (h : childrenFrom answer limit dir budget afterName out t = .ok res t') :
    reconcileCodec.Fits (.treeReq dir afterName limit) ∧
      ∃ cs, res = out ++ cs ∧ (∀ c ∈ cs, c.Named) ∧ (cs.map WireChild.cost).sum ≤ budget := by
  -- the budget goes down from page to page
  induction budget using Nat.strong_induction_on generalizing afterName out t with
  | _ budget ih =>
    rw [childrenFrom] at h
    split at h
    · cases h
    · rename_i children more t₁ hresp
      refine ⟨(rpc_ok hresp).1, ?_⟩
      split at h
      · cases h
      · rename_i budget' haccept
        obtain ⟨hnamed, hsum⟩ := acceptPage_ok haccept
        split_ifs at h with hmore
        · subst hmore
          have hlt := acceptPage_lt haccept
          obtain ⟨-, cs, rfl, hnamed', hsum'⟩ := ih budget' (by omega) h
          refine ⟨children ++ cs, List.append_assoc .., fun c hc => ?_, ?_⟩
          · exact (List.mem_append.1 hc).elim (hnamed c) (hnamed' c)
          · rw [List.map_append, List.sum_append]
            omega
        · cases h
          exact ⟨children, rfl, hnamed, by omega⟩
    · cases h

/-- The responder with a count of the requests. -/
def counted (answer : ReconcileFrame → EStateM ReconcileError σ ReconcileFrame)
    (req : ReconcileFrame) : EStateM ReconcileError (σ × ℕ) ReconcileFrame := fun t =>
  match answer req t.1 with
  | .ok resp t' => .ok resp (t', t.2 + 1)
  | .error e t' => .error e (t', t.2 + 1)

theorem final_rpc_counted (answer : ReconcileFrame → EStateM ReconcileError σ ReconcileFrame)
    (req : ReconcileFrame) (t : σ × ℕ) :
    (final (rpc (counted answer) req t)).2 ≤ t.2 + 1 := by
  unfold rpc
  split
  · exact Nat.le_succ _
  · unfold counted
    split <;> exact le_rfl

/-- Each page that is not the last one costs the budget at least 34 bytes. -/
theorem requests_childrenFrom (limit : U32) (dir afterName : Path) (budget : ℕ)
    (out : List WireChild) (t : σ × ℕ) :
    (final (childrenFrom (counted answer) limit dir budget afterName out t)).2 ≤
      t.2 + budget / 34 + 1 := by
  induction budget using Nat.strong_induction_on generalizing afterName out t with
  | _ budget ih =>
    have hrpc := final_rpc_counted answer (.treeReq dir afterName limit) t
    rw [childrenFrom]
    split
    · rename_i hresp
      rw [hresp] at hrpc
      exact hrpc.trans (by omega)
    · rename_i children more t₁ hresp
      rw [hresp] at hrpc
      change t₁.2 ≤ t.2 + 1 at hrpc
      split
      · exact hrpc.trans (by omega)
      · rename_i budget' haccept
        split_ifs with hmore
        · subst hmore
          have hlt := acceptPage_lt haccept
          have hrest := ih budget' (by omega)
            ((children.getLast?.map WireChild.name).getD afterName) (out ++ children) t₁
          omega
        · exact hrpc.trans (by omega)
    · rename_i hresp
      rw [hresp] at hrpc
      exact hrpc.trans (by omega)

end

/-! ### A responder that answers from its tree -/

/-- The answer for a path without a leaf. -/
def absentRow : Row where
  contentHash := none
  mode := 0
  size := 0
  tombstone := false
  vv := VersionVector.new
  uuid := none
  metadata := none

/-- What `serve_reconcile` answers to a request; it ends the session at any other frame. -/
def reply (tree : MerkleTree) (frontier : List (NodeId × ℤ)) : ReconcileFrame → Option ReconcileFrame
  | .begin => some (.rootIs tree.root frontier)
  | .treeReq dir afterName limit =>
    let page := tree.childrenPage dir afterName (min limit.val treePage)
    some (.treeResp page.1 page.2)
  | .leafReq path =>
    match tree.leaves.get? path with
    | some row => some (.leafResp true row.toRow)
    | none => some (.leafResp false absentRow)
  | _ => none

/-- The responder: an answer that can not be written ends the session. -/
def serve {σ : Type} (tree : MerkleTree) (frontier : List (NodeId × ℤ)) (req : ReconcileFrame) :
    EStateM ReconcileError σ ReconcileFrame := fun t =>
  match reply tree frontier req with
  | none => .error (.proto .closed) t
  | some resp =>
    match writeMsg reconcileCodec resp with
    | .ok _ => .ok resp t
    | .error _ => .error (.proto .closed) t

theorem takePage_eq (n : ℕ) (rest : List (Path × Hash × Bool)) :
    takePage n rest = ((rest.take n).map wireChild, decide (n < rest.length)) := by
  induction n generalizing rest with
  | zero => cases rest <;> rfl
  | succ n ih =>
    cases rest with
    | nil => rfl
    | cons e rest => simp [takePage, ih]

section

variable {σ : Type} {tree : MerkleTree} {frontier : List (NodeId × ℤ)} {limit : U32}

/-- What is listed of a directory after a name. -/
def entriesAfter (tree : MerkleTree) (dir afterName : Path) : List (Path × Hash × Bool) :=
  (childrenOf tree.dirs dir).entries.filter fun e => afterName < e.1

theorem childrenPage_eq (tree : MerkleTree) (dir afterName : Path) (n : ℕ) :
    tree.childrenPage dir afterName n =
      (((entriesAfter tree dir afterName).take n).map wireChild,
        decide (n < (entriesAfter tree dir afterName).length)) := by
  unfold childrenPage entriesAfter childrenOf
  cases tree.dirs.get? dir with
  | none =>
    have hempty : (OrdMap.empty : Children).entries = [] := rfl
    simp [hempty]
  | some children => exact takePage_eq n _

/-- In a sorted list, what is after the name of an entry is what follows it. -/
theorem filter_after_getElem {rest : List (Path × Hash × Bool)}
    (hsorted : rest.Pairwise fun a b => a.1 < b.1) {i : ℕ} (h : i < rest.length) :
    (rest.filter fun e => rest[i].1 < e.1) = rest.drop (i + 1) := by
  have htake : rest.take (i + 1) = rest.take i ++ [rest[i]] := List.take_succ_eq_append_getElem h
  generalize rest[i] = last at htake
  have hsplit : rest = (rest.take i ++ [last]) ++ rest.drop (i + 1) := by
    rw [← htake, List.take_append_drop]
  have hbefore : ∀ e ∈ rest.take i ++ [last], ¬ last.1 < e.1 := by
    intro e he
    rw [hsplit] at hsorted
    rcases List.mem_append.1 he with he | he
    · have hpair := (List.pairwise_append.1 hsorted).1
      exact ((List.pairwise_append.1 hpair).2.2 e he last (by simp)).not_gt
    · rw [List.mem_singleton.1 he]
      exact lt_irrefl _
  have hafter : ∀ e ∈ rest.drop (i + 1), last.1 < e.1 := by
    rw [hsplit] at hsorted
    exact (List.pairwise_append.1 hsorted).2.2 last (by simp)
  calc (rest.filter fun e => last.1 < e.1)
      = ((rest.take i ++ [last]) ++ rest.drop (i + 1)).filter fun e => last.1 < e.1 := by
        rw [← hsplit]
    _ = rest.drop (i + 1) := by
        rw [List.filter_append, List.filter_eq_nil_iff.2, List.filter_eq_self.2, List.nil_append]
        · exact fun e he => decide_eq_true (hafter e he)
        · exact fun e he hlt => hbefore e he (of_decide_eq_true hlt)

/-- After the last name of a page comes what the page left out. -/
theorem entriesAfter_drop {dir afterName : Path} {i : ℕ}
    (h : i < (entriesAfter tree dir afterName).length) :
    entriesAfter tree dir (entriesAfter tree dir afterName)[i].1 =
      (entriesAfter tree dir afterName).drop (i + 1) := by
  have hsorted : (entriesAfter tree dir afterName).Pairwise fun a b => a.1 < b.1 :=
    (childrenOf tree.dirs dir).sorted.filter _
  have hafter : afterName < (entriesAfter tree dir afterName)[i].1 :=
    of_decide_eq_true (List.mem_filter.1 (List.getElem_mem h)).2
  rw [← filter_after_getElem hsorted h]
  generalize (entriesAfter tree dir afterName)[i].1 = name at hafter
  rw [entriesAfter, entriesAfter, List.filter_filter]
  refine List.filter_congr fun e _ => ?_
  rw [← Bool.decide_and]
  exact decide_eq_decide.2 ⟨fun hlt => ⟨hlt, hafter.trans hlt⟩, fun hlt => hlt.1⟩

/-- A page of an honest responder can be sent. -/
theorem fits_page {cs : List WireChild} (more : Bool) (hlen : cs.length ≤ treePage)
    (hnamed : ∀ c ∈ cs, c.Named) : reconcileCodec.Fits (.treeResp cs more) := by
  rw [fits_treeResp]
  have hcount : varintLen cs.length ≤ 3 := by
    unfold treePage at hlen
    unfold varintLen
    split_ifs <;> omega
  have hnames : (cs.map fun c => textLen c.name + 33).sum ≤ 291 * cs.length := by
    clear hlen hcount
    induction cs with
    | nil => exact Nat.zero_le _
    | cons c cs ih =>
      have hname := (hnamed c List.mem_cons_self).2
      have htext : textLen c.name ≤ 258 := by
        unfold textLen blobLen varintLen
        split_ifs <;> omega
      have := ih fun c' hc' => hnamed c' (List.mem_cons_of_mem c hc')
      simp only [List.map_cons, List.sum_cons, List.length_cons]
      omega
  unfold treePage at hlen
  unfold maxFrame
  omega

/-- An honest answer to a request for a page. -/
theorem serve_treeReq {dir afterName : Path} {t : σ}
    (hnamed : ∀ e ∈ entriesAfter tree dir afterName, (wireChild e).Named) :
    serve tree frontier (.treeReq dir afterName limit) t =
      .ok (.treeResp
        (((entriesAfter tree dir afterName).take (min limit.val treePage)).map wireChild)
        (decide (min limit.val treePage < (entriesAfter tree dir afterName).length))) t := by
  have hfits : reconcileCodec.Fits (.treeResp
      (((entriesAfter tree dir afterName).take (min limit.val treePage)).map wireChild)
      (decide (min limit.val treePage < (entriesAfter tree dir afterName).length))) := by
    refine fits_page _ ?_ fun c hc => ?_
    · rw [List.length_map, List.length_take]
      omega
    · obtain ⟨e, he, rfl⟩ := List.mem_map.1 hc
      exact hnamed e (List.mem_of_mem_take he)
  obtain ⟨frame, hframe⟩ := writeMsg_ok_iff.2 hfits
  simp only [serve, reply, childrenPage_eq, reconcileCodec, hframe]

/-- The requests of a listing from a name on: after the name, and after the last name of each page
that is followed by another one. -/
def RequestsFit (limit : U32) (dir afterName : Path) (rest : List (Path × Hash × Bool)) : Prop :=
  reconcileCodec.Fits (.treeReq dir afterName limit) ∧
    ∀ i (h : i + 1 < rest.length), min limit.val treePage ∣ i + 1 →
      reconcileCodec.Fits (.treeReq dir rest[i].1 limit)

/-- The requests are the first one and, if there is another page, those after it. -/
theorem requestsFit_iff {dir afterName : Path} {rest : List (Path × Hash × Bool)} {n : ℕ}
    (hn : min limit.val treePage = n + 1) :
    RequestsFit limit dir afterName rest ↔
      reconcileCodec.Fits (.treeReq dir afterName limit) ∧
        ∀ h : n + 1 < rest.length, RequestsFit limit dir rest[n].1 (rest.drop (n + 1)) := by
  unfold RequestsFit
  rw [hn]
  refine and_congr_right fun _ => ⟨fun h hlt => ⟨h n hlt dvd_rfl, fun i hi hdvd => ?_⟩,
    fun h i hi hdvd => ?_⟩
  · rw [List.length_drop] at hi
    rw [List.getElem_drop]
    exact h (n + 1 + i) (by omega) (by
      rw [Nat.add_assoc]
      exact (Nat.dvd_add_right dvd_rfl).2 hdvd)
  · obtain ⟨k, hk⟩ := hdvd
    have hle : n + 1 ≤ i + 1 := Nat.le_of_dvd (Nat.succ_pos i) ⟨k, hk⟩
    obtain ⟨hfirst, hlater⟩ := h (by omega)
    rcases Nat.eq_or_lt_of_le (Nat.le_of_succ_le_succ hle) with rfl | hlt
    · exact hfirst
    · have hget := hlater (i - (n + 1)) (by rw [List.length_drop]; omega) (by
        have hsub : i - (n + 1) + 1 = i + 1 - (n + 1) := by omega
        rw [hsub]
        exact Nat.dvd_sub ⟨k, hk⟩ dvd_rfl)
      rw [List.getElem_drop] at hget
      simpa only [show n + 1 + (i - (n + 1)) = i from by omega] using hget

/-- An honest page is accepted and charged. -/
theorem acceptPage_eq {budget : ℕ} {cs : List WireChild} {more : Bool} (hlen : cs.length ≤ treePage)
    (hnamed : ∀ c ∈ cs, c.Named) (hbudget : (cs.map WireChild.cost).sum ≤ budget)
    (hmore : more = true → cs ≠ []) :
    acceptPage budget cs more = .ok (budget - (cs.map WireChild.cost).sum) := by
  have hsmall : ¬ treePage < cs.length % 2 ^ 32 := by
    have := Nat.mod_le cs.length (2 ^ 32)
    omega
  rw [acceptPage, if_neg hsmall, if_neg fun h => hmore h.1 h.2]
  exact chargeChildren_ok_iff.2 ⟨hnamed, Nat.sub_add_cancel hbudget⟩

/-- The loop over a responder that answers from its tree collects what comes after the name,
exactly if its requests fit. -/
theorem childrenFrom_serve (frontier : List (NodeId × ℤ)) (hlimit : 1 ≤ limit.val) {dir afterName : Path} {budget : ℕ}
    (out : List WireChild) (t : σ) {rest : List (Path × Hash × Bool)}
    (hrest : entriesAfter tree dir afterName = rest) (hnamed : ∀ e ∈ rest, (wireChild e).Named)
    (hbudget : (rest.map fun e => (wireChild e).cost).sum ≤ budget) :
    (RequestsFit limit dir afterName rest ∧
      childrenFrom (serve tree frontier) limit dir budget afterName out t =
        .ok (out ++ rest.map wireChild) t) ∨
    (¬ RequestsFit limit dir afterName rest ∧
      childrenFrom (serve tree frontier) limit dir budget afterName out t =
        .error (.proto .encode) t) := by
  obtain ⟨n, hn⟩ : ∃ n, min limit.val treePage = n + 1 :=
    ⟨min limit.val treePage - 1, by unfold treePage; omega⟩
  -- induction on what is left
  generalize hlen : rest.length = len
  induction len using Nat.strong_induction_on generalizing afterName budget out rest with
  | _ len ih =>
    rw [requestsFit_iff hn]
    rcases rpc_cases (serve tree frontier) (.treeReq dir afterName limit) t with
      ⟨hfits, hrpc⟩ | ⟨hbig, hrpc⟩
    · rw [serve_treeReq (hrest ▸ hnamed), hn, hrest] at hrpc
      have hsplit : (((rest.take (n + 1)).map wireChild).map WireChild.cost).sum +
          ((rest.drop (n + 1)).map fun e => (wireChild e).cost).sum =
            (rest.map fun e => (wireChild e).cost).sum := by
        rw [List.map_map, ← List.sum_append]
        show (((rest.take (n + 1)).map fun e => (wireChild e).cost) ++ _).sum = _
        rw [← List.map_append, List.take_append_drop]
      have haccept : acceptPage budget ((rest.take (n + 1)).map wireChild)
          (decide (n + 1 < rest.length)) = .ok (budget -
            (((rest.take (n + 1)).map wireChild).map WireChild.cost).sum) := by
        refine acceptPage_eq ?_ (fun c hc => ?_) (by omega) fun hmore hnil => ?_
        · rw [List.length_map, List.length_take]
          omega
        · obtain ⟨e, he, rfl⟩ := List.mem_map.1 hc
          exact hnamed e (List.mem_of_mem_take he)
        · have := congrArg List.length hnil
          rw [List.length_map, List.length_take, List.length_nil] at this
          have := of_decide_eq_true hmore
          omega
      rw [childrenFrom_page out hrpc haccept]
      by_cases hmore : n + 1 < rest.length
      · have hlast : (((rest.take (n + 1)).map wireChild).getLast?.map WireChild.name).getD afterName =
            rest[n].1 := by
          rw [List.take_succ_eq_append_getElem (by omega), List.map_append, List.map_singleton,
            List.getLast?_concat]
          rfl
        have hnext : entriesAfter tree dir rest[n].1 = rest.drop (n + 1) := by
          subst hrest
          exact entriesAfter_drop (by omega)
        have hpaid : ((rest.drop (n + 1)).map fun e => (wireChild e).cost).sum ≤
            budget - (((rest.take (n + 1)).map wireChild).map WireChild.cost).sum := by
          omega
        rw [if_pos (decide_eq_true hmore), hlast]
        rcases ih _ (by rw [← hlen, List.length_drop]; omega)
            (out ++ (rest.take (n + 1)).map wireChild) hnext
            (fun e he => hnamed e (List.mem_of_mem_drop he)) hpaid rfl with
          ⟨hlater, hrun⟩ | ⟨hlater, hrun⟩
        · refine .inl ⟨⟨hfits, fun _ => hlater⟩, hrun.trans ?_⟩
          rw [List.append_assoc, ← List.map_append, List.take_append_drop]
        · exact .inr ⟨fun h => hlater (h.2 hmore), hrun⟩
      · rw [if_neg fun h => hmore (of_decide_eq_true h), List.take_of_length_le (Nat.not_lt.1 hmore)]
        exact .inl ⟨⟨hfits, fun h => absurd h hmore⟩, rfl⟩
    · refine .inr ⟨fun h => hbig h.1, ?_⟩
      rw [childrenFrom]
      simp only [hrpc]

/-- No name is empty, so that a listing from the start leaves none out. -/
theorem entriesAfter_nil {dir : Path}
    (hnamed : ∀ e ∈ (childrenOf tree.dirs dir).entries, (wireChild e).Named) :
    entriesAfter tree dir [] = (childrenOf tree.dirs dir).entries := by
  refine List.filter_eq_self.2 fun e he => decide_eq_true ?_
  have hname := (hnamed e he).1
  cases h : e.1 with
  | nil =>
    rw [wireChild, h] at hname
    cases hname
  | cons c name => exact List.nil_lt_cons c name

end

/-! ### The descent -/

section

variable {σ : Type}

/-- A step of the responder, beside the frontier that the client keeps. -/
def onPeer {α : Type} (m : EStateM ReconcileError σ α) :
    EStateM ReconcileError (σ × List (NodeId × ℤ)) α := fun t =>
  match m t.1 with
  | .ok a peer => .ok a (peer, t.2)
  | .error e peer => .error e (peer, t.2)

/-- The session over the wire; the frontier of the snapshot comes with the root. -/
def overWire (answer : ReconcileFrame → EStateM ReconcileError σ ReconcileFrame) (limit : U32)
    (handle : Path → Puller → EStateM ReconcileError (σ × List (NodeId × ℤ)) Puller) :
    ReconcileTransport (σ × List (NodeId × ℤ)) where
  root := do
    match ← onPeer (rpc answer .begin) with
    | .rootIs hash frontier =>
      modify fun t => (t.1, frontier)
      pure hash
    | _ => throw (.violation "expected RootIs")
  children dir := do
    let cs ← onPeer (children answer limit dir)
    pure (cs.map fun c => (c.name, c.hash, c.isDir))
  handleLeaf := handle

variable {remote : ReconcileTransport σ} {loc : MerkleTree}

/-- What a round has queued after some of the children. -/
def Queued (dir : Path) (queue : List Path) (seen : List (Path × Hash × Bool))
    (acc : List Path × Puller) : Prop :=
  ∃ pushed, acc.1 = pushed ++ queue ∧ pushed.length ≤ seen.length ∧
    ∀ p ∈ pushed, ∃ c ∈ seen, p = joinPrefix dir c.1

/-- A child is queued, or leaves the queue as it is. -/
theorem visitChildFrom_queued {dir : Path} {queue : List Path} {seen : List (Path × Hash × Bool)}
    {acc : List Path × Puller} (child : Path × Hash × Bool) (h : Queued dir queue seen acc) :
    Triple (fun _ => True) (visitChildFrom remote loc dir acc child)
      (fun acc' _ => Queued dir queue (seen ++ [child]) acc') fun _ _ => True := by
  obtain ⟨pushed, hqueue, hlen, hpushed⟩ := h
  have hkept : ∀ s, Queued dir queue (seen ++ [child]) (acc.1, s) := fun s =>
    ⟨pushed, hqueue, by rw [List.length_append]; omega, fun p hp =>
      (hpushed p hp).imp fun c hc => ⟨List.mem_append_left _ hc.1, hc.2⟩⟩
  unfold visitChildFrom
  split_ifs
  · exact Triple.pure.pre fun _ _ => hkept acc.2
  · refine Triple.pure.pre fun _ _ => ⟨joinPrefix dir child.1 :: pushed, ?_, ?_, fun p hp => ?_⟩
    · rw [hqueue]
      rfl
    · rw [List.length_append, List.length_cons, List.length_singleton]
      omega
    · rcases List.mem_cons.1 hp with rfl | hp
      · exact ⟨child, by simp, rfl⟩
      · exact (hpushed p hp).imp fun c hc => ⟨List.mem_append_left _ hc.1, hc.2⟩
  · refine Triple.bind (Q := fun _ _ => True) (fun t _ => ?_) fun s =>
      Triple.pure.pre fun _ _ => hkept s
    split <;> trivial

/-- A round queues directories below the one it lists. -/
theorem visitDir_queue {dir : Path} {queue queue' : List Path} {s s' : Puller} {t t' : σ}
    (h : visitDir remote loc dir queue s t = .ok (queue', s') t') :
    ∃ cs t₁, remote.children dir t = .ok cs t₁ ∧ Queued dir queue cs (queue', s') := by
  have hround : Triple (fun t₀ => t₀ = t) (visitDir remote loc dir queue s)
      (fun acc _ => ∃ cs t₁, remote.children dir t = .ok cs t₁ ∧ Queued dir queue cs acc)
      fun _ _ => True := by
    refine Triple.bind (Q := fun cs t₁ => remote.children dir t = .ok cs t₁) ?_ fun cs => ?_
    · rintro _ rfl
      cases hcs : remote.children dir _ with
      | ok cs t₁ => rfl
      | error e t₁ => trivial
    · intro t₁ hcs
      have hloop : Triple (fun _ => Queued dir queue [] (queue, { s with
            report.treeReqs := s.report.treeReqs + 1 }))
          (cs.foldlM (visitChildFrom remote loc dir)
            (queue, { s with report.treeReqs := s.report.treeReqs + 1 }))
          (fun acc _ => Queued dir queue cs acc) fun _ _ => True :=
        Triple.foldlM (I := fun seen acc _ => Queued dir queue seen acc)
          fun seen child rest acc _ t h => visitChildFrom_queued child h t trivial
      exact (hloop.post fun acc _ hqueued => ⟨cs, t₁, hcs, hqueued⟩) t₁
        ⟨[], rfl, le_rfl, fun p hp => (by cases hp)⟩
  have hend := hround t rfl
  rw [h] at hend
  exact hend

/-- A directory below another one has a longer path. -/
theorem length_lt_joinPrefix {dir name : Path} (h : name ≠ []) :
    dir.length < (joinPrefix dir name).length := by
  unfold joinPrefix Hier.join
  split_ifs with hdir
  · rw [hdir]
    exact List.length_pos_of_ne_nil h
  · rw [List.length_append, List.length_cons]
    omega

/-- Rounds of a descent of bounded branching into directories of bounded depth. -/
def rounds (branching : ℕ) : ℕ → ℕ
  | 0 => 1
  | depth + 1 => 1 + branching * rounds branching depth

theorem one_le_rounds (B d : ℕ) : 1 ≤ rounds B d := by
  cases d with
  | zero => exact le_rfl
  | succ d => exact Nat.le_add_right ..

theorem rounds_mono (B : ℕ) : Monotone (rounds B) := by
  refine monotone_nat_of_le_succ fun d => ?_
  induction d with
  | zero => exact one_le_rounds B 1
  | succ d ih => exact Nat.add_le_add_left (Nat.mul_le_mul_left B ih) 1

/-- The rounds that the directories of a queue can come to. -/
def queueRounds (B D : ℕ) (queue : List Path) : ℕ :=
  (queue.map fun p => rounds B (D + 1 - p.length)).sum

/-- A descent ends if no directory is listed beyond a depth, none has more children than a bound,
and no child is without a name. -/
theorem descend_isSome_of_bounded {B D : ℕ}
    (hbound : ∀ dir t cs t', remote.children dir t = .ok cs t' →
      dir.length ≤ D ∧ cs.length ≤ B ∧ ∀ c ∈ cs, c.1 ≠ [])
    {k : ℕ} {queue : List Path} (hk : queueRounds B D queue ≤ k) (s : Puller) (t : σ) :
    (descend remote loc k queue s t).isSome := by
  induction k generalizing queue s t with
  | zero =>
    cases queue with
    | nil => rfl
    | cons dir queue =>
      have := one_le_rounds B (D + 1 - dir.length)
      simp only [queueRounds, List.map_cons, List.sum_cons] at hk
      omega
  | succ k ih =>
    cases queue with
    | nil => rfl
    | cons dir queue =>
      unfold descend
      cases hrun : visitDir remote loc dir queue s t with
      | error e t' => rfl
      | ok acc t' =>
        obtain ⟨cs, t₁, hcs, pushed, hqueue, hlen, hpushed⟩ := visitDir_queue hrun
        obtain ⟨hdir, hcount, hnames⟩ := hbound dir t cs t₁ hcs
        refine ih ?_ acc.2 t'
        -- the directories that are queued come to less than the one that is taken off
        have hchild : ∀ p ∈ pushed, rounds B (D + 1 - p.length) ≤ rounds B (D - dir.length) := by
          intro p hp
          obtain ⟨c, hc, rfl⟩ := hpushed p hp
          refine rounds_mono B ?_
          have : dir.length < (joinPrefix dir c.1).length := length_lt_joinPrefix (hnames c hc)
          omega
        have hsum : queueRounds B D pushed ≤ B * rounds B (D - dir.length) := by
          calc queueRounds B D pushed
              ≤ (pushed.map fun _ => rounds B (D - dir.length)).sum := List.sum_le_sum hchild
            _ = pushed.length * rounds B (D - dir.length) := by simp
            _ ≤ B * rounds B (D - dir.length) :=
              Nat.mul_le_mul_right _ (hlen.trans hcount)
        have htaken : rounds B (D + 1 - dir.length) = 1 + B * rounds B (D - dir.length) := by
          rw [Nat.succ_sub hdir]
          rfl
        rw [hqueue]
        simp only [queueRounds, List.map_append, List.sum_append, List.map_cons, List.sum_cons]
          at hk hsum ⊢
        omega

end

/-- A path has as many characters as bytes, or fewer. -/
theorem length_le_utf8 (p : Path) : p.length ≤ (utf8 p).length := by
  induction p with
  | nil => exact Nat.zero_le _
  | cons c p ih =>
    have hc := length_utf8_pos (List.cons_ne_nil c [])
    rw [utf8_cons, List.length_append, List.length_cons]
    rw [utf8_cons, List.length_append] at hc
    change 1 ≤ (charBytes c).length + 0 at hc
    omega

theorem WireChild.Named.ne_nil {c : WireChild} (h : c.Named) : c.name ≠ [] := by
  intro hnil
  have hlen := h.1
  rw [hnil] at hlen
  cases hlen

/-- What a listing from any responder is: names that a file system could have, within the budget,
of a directory whose path fits into a frame, with paths that are longer. -/
theorem children_ok {σ : Type} {answer : ReconcileFrame → EStateM ReconcileError σ ReconcileFrame}
    {limit : U32} {dir : Path} {cs : List WireChild} {t t' : σ}
    (h : children answer limit dir t = .ok cs t') :
    (∀ c ∈ cs, c.Named) ∧ (cs.map WireChild.cost).sum ≤ listingBudget ∧
      (utf8 dir).length ≤ maxFrame ∧ ∀ c ∈ cs, dir.length < (joinPrefix dir c.name).length := by
  obtain ⟨hfits, cs', rfl, hnamed, hsum⟩ := childrenFrom_ok h
  refine ⟨hnamed, hsum, ?_, fun c hc => length_lt_joinPrefix (hnamed c hc).ne_nil⟩
  have hlen := fits_treeReq.1 hfits
  unfold textLen blobLen at hlen
  omega

/-- A directory has no more children than the budget has bytes. -/
theorem length_le_cost (cs : List WireChild) : cs.length ≤ (cs.map WireChild.cost).sum := by
  induction cs with
  | nil => exact le_rfl
  | cons c cs ih =>
    simp only [List.length_cons, List.map_cons, List.sum_cons, WireChild.cost]
    omega

/-- **A descent over the wire ends**, whatever the responder answers. -/
theorem isSome_pullFrom_overWire : ∃ fuel, ∀ (σ : Type)
    (answer : ReconcileFrame → EStateM ReconcileError σ ReconcileFrame) limit handle loc st t,
    (pullFrom (overWire answer limit handle) loc fuel st t).isSome := by
  obtain ⟨fuel, hfuel⟩ : ∃ fuel, queueRounds listingBudget maxFrame [[]] ≤ fuel := ⟨_, le_rfl⟩
  refine ⟨fuel, fun σ answer limit handle loc st t => ?_⟩
  have hbound : ∀ dir t cs t', (overWire answer limit handle).children dir t = .ok cs t' →
      dir.length ≤ maxFrame ∧ cs.length ≤ listingBudget ∧ ∀ c ∈ cs, c.1 ≠ [] := by
    intro dir t cs t' h
    change EStateM.bind (onPeer (children answer limit dir)) _ t = _ at h
    unfold EStateM.bind onPeer at h
    cases hrun : children answer limit dir t.1 with
    | error e peer =>
      simp only [hrun] at h
      cases h
    | ok cs' peer =>
      simp only [hrun] at h
      cases h
      obtain ⟨hnamed, hsum, hdir, -⟩ := children_ok hrun
      refine ⟨(length_le_utf8 dir).trans hdir, ?_, fun c hc => ?_⟩
      · rw [List.length_map]
        exact (length_le_cost cs').trans hsum
      · obtain ⟨c', hc', rfl⟩ := List.mem_map.1 hc
        exact (hnamed c' hc').ne_nil
  unfold pullFrom
  split
  · rfl
  · split_ifs
    · rfl
    · exact descend_isSome_of_bounded hbound hfuel _ _

/-- **Listings are complete over an honest responder and bounded over any.**  Over a responder that
answers from its tree, the children of a directory are collected once each and in order, for every
page limit, if and only if the requests fit into a frame; if one does not, the listing ends with
that error.  Over any responder a listing has names of 1 to 255 bytes within the budget and makes
no more requests than the budget allows; only a directory whose path fits into a frame is listed,
each below it has a longer path, and the whole descent ends. -/
theorem listing_pages :
    (∀ (σ : Type) (tree : MerkleTree) frontier (dir : Path) (limit : U32), 1 ≤ limit.val →
      (∀ e ∈ (childrenOf tree.dirs dir).entries, (wireChild e).Named) →
      ((childrenOf tree.dirs dir).entries.map fun e => (wireChild e).cost).sum ≤ listingBudget →
      ∀ t : σ,
        (children (serve tree frontier) limit dir t =
            .ok ((childrenOf tree.dirs dir).entries.map wireChild) t ↔
          RequestsFit limit dir [] (childrenOf tree.dirs dir).entries) ∧
        (¬ RequestsFit limit dir [] (childrenOf tree.dirs dir).entries →
          children (serve tree frontier) limit dir t = .error (.proto .encode) t)) ∧
    (∀ (σ : Type) (answer : ReconcileFrame → EStateM ReconcileError σ ReconcileFrame) (limit : U32)
        (dir : Path) (t : σ),
      (∀ cs t', children answer limit dir t = .ok cs t' →
        (∀ c ∈ cs, c.Named) ∧ (cs.map WireChild.cost).sum ≤ listingBudget ∧
          (utf8 dir).length ≤ maxFrame ∧ ∀ c ∈ cs, dir.length < (joinPrefix dir c.name).length) ∧
      ∀ n, (final (children (counted answer) limit dir (t, n))).2 ≤ n + listingBudget / 34 + 1) ∧
    ∃ fuel, ∀ (σ : Type) (answer : ReconcileFrame → EStateM ReconcileError σ ReconcileFrame) limit
      handle loc st t, (pullFrom (overWire answer limit handle) loc fuel st t).isSome := by
  refine ⟨fun σ tree frontier dir limit hlimit hnamed hbudget t => ?_,
    fun σ answer limit dir t => ⟨fun cs t' h => children_ok h, fun n => ?_⟩, isSome_pullFrom_overWire⟩
  · have hcases := childrenFrom_serve frontier hlimit [] t (entriesAfter_nil hnamed) hnamed
      hbudget
    rcases hcases with ⟨hfit, hrun⟩ | ⟨hbig, hrun⟩
    · exact ⟨⟨fun _ => hfit, fun _ => hrun⟩, fun hbig => absurd hfit hbig⟩
    · refine ⟨⟨fun h => ?_, fun hfit => absurd hfit hbig⟩, fun _ => hrun⟩
      cases hrun.symm.trans h
  · exact requests_childrenFrom limit dir [] listingBudget [] (t, n)

/-! ### A directory with a long path -/

section

open Hier (IsName ProperDir)

variable [Blake3] {dir : Path} {names : List Path} {file : Path → FileRow}

/-- The tree of some files in one directory lists them there, and nothing else. -/
theorem childrenOf_files (hdir : dir ≠ []) (hproper : ProperDir '/' dir)
    (hnames : ∀ n ∈ names, IsName '/' n) (hsorted : names.Pairwise (· < ·))
    (hfile : ∀ n, (file n).path = joinPrefix dir n) :
    (childrenOf (build (names.map file)).dirs dir).entries =
      names.map fun n => (n, leafHash (file n), false) := by
  have hjoin : ∀ n, joinPrefix dir n = dir ++ '/' :: n := fun n => if_neg hdir
  have hinj : Function.Injective (joinPrefix dir) := fun n m h => by
    rw [hjoin, hjoin] at h
    exact List.tail_eq_of_cons_eq (List.append_cancel_left h)
  have hbuilt : IsBuilt (names.map file) (build (names.map file)) := isBuilt_build fun r hr => by
    obtain ⟨n, hn, rfl⟩ := List.mem_map.1 hr
    rw [hfile]
    exact hproper.join (hnames n hn)
  have hdistinct : ((names.map file).map FileRow.path).Nodup := by
    have hpaths : (names.map file).map FileRow.path = names.map (joinPrefix dir) := by
      rw [List.map_map]
      exact List.map_congr_left fun n _ => hfile n
    rw [hpaths]
    exact List.Nodup.map hinj (hsorted.imp fun h => h.ne)
  -- no file is below another one
  have hbelow : ∀ n, ¬ HasBelow (names.map file) (joinPrefix dir n) := by
    rintro n ⟨r, hr, hu⟩
    obtain ⟨m, hm, rfl⟩ := List.mem_map.1 hr
    have hlt : dir.length < (joinPrefix dir n).length := by
      rw [hjoin, List.length_append, List.length_cons]
      omega
    rw [hfile, hjoin m] at hu
    rcases (Hier.under_sub (hnames m hm) (List.ne_nil_of_length_pos (by omega))).1 hu with heq | hu
    · rw [heq] at hlt
      exact lt_irrefl _ hlt
    · exact (hu.length_lt hdir).not_gt hlt
  have hlisted : (childrenOf (build (names.map file)).dirs dir) =
      ⟨names.map fun n => (n, leafHash (file n), false), List.pairwise_map.2 hsorted⟩ := by
    refine OrdMap.ext_get? fun n => ?_
    rw [← look_eq_childrenOf]
    by_cases hn : n ∈ names
    · rw [hbuilt.look_of_row hdistinct (hnames n hn) (List.mem_map_of_mem hn) (hfile n) (hbelow n)]
      exact (OrdMap.mem_entries.1 (List.mem_map_of_mem hn)).symm
    · rw [hbuilt.look_eq_none (hbelow n) fun r hr heq => hn ?_]
      · refine (Option.eq_none_iff_forall_not_mem.2 fun x hx => hn ?_).symm
        obtain ⟨m, hm, heq⟩ := List.mem_map.1 (OrdMap.mem_entries.2 hx)
        cases heq
        exact hm
      · obtain ⟨m, hm, rfl⟩ := List.mem_map.1 hr
        rwa [← hinj ((hfile m).symm.trans heq)]
  rw [hlisted]

end

section Example

attribute [local instance] Blake3.polynomial

/-- A directory in a directory, and so on, each with a name of 255 letters. -/
def deepDir : ℕ → Path
  | 0 => []
  | depth + 1 => joinPrefix (deepDir depth) (List.replicate 255 'd')

/-- Names of 255 letters, in order: two letters that tell them apart, and the rest. -/
def fileNames : List Path :=
  let letters := "abcdefghijklmnopqrstuvwxyz".toList
  letters.flatMap fun a => letters.map fun b => a :: b :: List.replicate 253 'f'

/-- A deleted file in a directory. -/
def deletedIn (dir name : Path) : FileRow where
  path := joinPrefix dir name
  contentHash := none
  mode := 0
  size := 0
  tombstone := true
  vv := VersionVector.fromIter [(1, 1)]
  uuid := some 1
  metadata := none

theorem deepDir_spec (depth : ℕ) : Hier.Proper '/' (deepDir (depth + 1)) ∧
    (deepDir (depth + 1)).length = 256 * depth + 255 ∧
    ∀ c ∈ deepDir (depth + 1), c.toNat < 128 := by
  have hname : Hier.IsName '/' (List.replicate 255 'd') := by
    refine ⟨List.cons_ne_nil _ _, fun hmem => ?_⟩
    exact absurd (List.eq_of_mem_replicate hmem) (by decide)
  have hascii : ∀ c ∈ List.replicate 255 'd', c.toNat < 128 := fun c hc => by
    rw [List.eq_of_mem_replicate hc]
    decide
  induction depth with
  | zero => exact ⟨.name hname, List.length_replicate, hascii⟩
  | succ depth ih =>
    obtain ⟨hproper, hlen, hdir⟩ := ih
    have hjoin : deepDir (depth + 2) = deepDir (depth + 1) ++ '/' :: List.replicate 255 'd' :=
      if_neg hproper.ne_nil
    rw [hjoin]
    refine ⟨.sub hproper hname, ?_, fun c hc => ?_⟩
    · rw [List.length_append, List.length_cons, List.length_replicate, hlen]
      omega
    · rcases List.mem_append.1 hc with hc | hc
      · exact hdir c hc
      · rcases List.mem_cons.1 hc with rfl | hc
        · decide
        · exact hascii c hc

theorem mem_fileNames {n : Path} (h : n ∈ fileNames) :
    Hier.IsName '/' n ∧ n.length = 255 ∧ ∀ c ∈ n, c.toNat < 128 := by
  have hletters : ∀ c ∈ "abcdefghijklmnopqrstuvwxyz".toList, c ≠ '/' ∧ c.toNat < 128 :=
    List.all_iff_forall_prop.1 (by decide)
  obtain ⟨a, ha, h⟩ := List.mem_flatMap.1 h
  obtain ⟨b, hb, rfl⟩ := List.mem_map.1 h
  have hall : ∀ c ∈ a :: b :: List.replicate 253 'f', c ≠ '/' ∧ c.toNat < 128 := by
    intro c hc
    rcases List.mem_cons.1 hc with rfl | hc
    · exact hletters c ha
    · rcases List.mem_cons.1 hc with rfl | hc
      · exact hletters c hb
      · rw [List.eq_of_mem_replicate hc]
        decide
  refine ⟨⟨List.cons_ne_nil _ _, fun hmem => (hall _ hmem).1 rfl⟩, ?_, fun c hc => (hall c hc).2⟩
  rw [List.length_cons, List.length_cons, List.length_replicate]

theorem sorted_fileNames : fileNames.Pairwise (· < ·) := by
  have hletters : "abcdefghijklmnopqrstuvwxyz".toList.Pairwise (· < ·) := by decide
  refine List.pairwise_flatMap.2 ⟨fun a _ => ?_, hletters.imp fun hlt x hx y hy => ?_⟩
  · refine List.pairwise_map.2 (hletters.imp fun hlt => ?_)
    exact List.Lex.cons (List.Lex.rel hlt)
  · obtain ⟨b, -, rfl⟩ := List.mem_map.1 hx
    obtain ⟨b', -, rfl⟩ := List.mem_map.1 hy
    exact List.Lex.rel hlt

/-- The deleted files of these names in a directory 4095 levels down. -/
def deepFiles : List FileRow := fileNames.map (deletedIn (deepDir 4095))

/-- **A directory with a long path is listed to the end of its first page only.**  Every name on the
way to it and every one of its 676 files has 255 letters; the first page is answered, and the
request for the second, with the last name of the first, does not fit into a frame. -/
theorem long_directory_unlisted :
    (childrenOf (build deepFiles).dirs (deepDir 4095)).entries =
        fileNames.map (fun n => (n, leafHash (deletedIn (deepDir 4095) n), false)) ∧
      fileNames.length = 676 ∧ (∀ n ∈ fileNames, (utf8 n).length = 255) ∧
      (fileNames.map fun n => (utf8 n).length + 33).sum ≤ listingBudget ∧
      (∃ page, rpc (serve (build deepFiles) []) (.treeReq (deepDir 4095) [] 512) () =
        .ok (.treeResp page true) ()) ∧
      children (serve (build deepFiles) []) 512 (deepDir 4095) () = .error (.proto .encode) () := by
  have hcount : fileNames.length = 676 := by decide +kernel
  have hnames : ∀ n ∈ fileNames, (utf8 n).length = 255 := fun n hn =>
    (length_utf8_of_ascii (mem_fileNames hn).2.2).trans (mem_fileNames hn).2.1
  have hbudget : (fileNames.map fun n => (utf8 n).length + 33).sum ≤ listingBudget := by
    rw [List.map_congr_left fun n hn => congrArg (· + 33) (hnames n hn), List.map_const',
      List.sum_replicate, hcount]
    decide
  have hproper : Hier.Proper '/' (deepDir 4095) := (deepDir_spec 4094).1
  have hdir : (utf8 (deepDir 4095)).length = 1048319 :=
    (length_utf8_of_ascii (deepDir_spec 4094).2.2).trans (deepDir_spec 4094).2.1
  unfold deepFiles
  -- only the length of the path matters from here on
  generalize deepDir 4095 = dir at hdir hproper ⊢
  have hentries : (childrenOf (build (fileNames.map (deletedIn dir))).dirs dir).entries =
      fileNames.map fun n => (n, leafHash (deletedIn dir n), false) :=
    childrenOf_files hproper.ne_nil (.inr hproper) (fun n hn => (mem_fileNames hn).1)
      sorted_fileNames fun _ => rfl
  refine ⟨hentries, hcount, hnames, hbudget, ?_⟩
  obtain ⟨rest, hrest⟩ : ∃ rest, (fileNames.map fun n =>
    (n, leafHash (deletedIn dir n), false)) = rest := ⟨_, rfl⟩
  have hlen : ∀ e ∈ rest, (utf8 e.1).length = 255 := by
    rw [← hrest]
    exact List.forall_mem_map.2 hnames
  have hsecond : 511 + 1 < rest.length := by
    rw [← hrest, List.length_map, hcount]
    norm_num
  have hcost : (rest.map fun e => (wireChild e).cost).sum ≤ listingBudget := by
    rw [← hrest, List.map_map]
    exact hbudget
  have hnamed : ∀ e ∈ rest, (wireChild e).Named := fun e he =>
    ⟨(hlen e he).symm ▸ by decide, (hlen e he).le⟩
  rw [hrest] at hentries
  have hafter : entriesAfter (build (fileNames.map (deletedIn dir))) dir [] = rest :=
    (entriesAfter_nil (hentries ▸ hnamed)).trans hentries
  have hfits : reconcileCodec.Fits (.treeReq dir [] 512) := by
    rw [fits_treeReq, textLen, hdir]
    decide
  have hbig : ∀ e ∈ rest, ¬ reconcileCodec.Fits (.treeReq dir e.1 512) := fun e he => by
    rw [fits_treeReq, textLen, textLen, hdir, hlen e he]
    decide
  constructor
  · rcases rpc_cases (serve (build (fileNames.map (deletedIn dir))) []) (.treeReq dir [] 512) () with
      ⟨-, hrpc⟩ | ⟨hunfit, -⟩
    · rw [serve_treeReq (hafter.symm ▸ hnamed), hafter] at hrpc
      rw [hrpc, decide_eq_true (show min (512 : U32).val treePage < rest.length from hsecond)]
      exact ⟨_, rfl⟩
    · exact absurd hfits hunfit
  · rcases childrenFrom_serve [] (show 1 ≤ (512 : U32).val by decide) [] () hafter hnamed hcost with
      ⟨⟨-, hlater⟩, -⟩ | ⟨-, hrun⟩
    · exact absurd (hlater 511 hsecond (by decide)) (hbig _ (List.getElem_mem _))
    · exact hrun

end Example

end Replicore
