import Replicore.Mesh.Causal

/-!
# Vector order and happened-before

Where vectors tell what was taken in (`CausalInv`), they order the ops of a path as their authors
saw them: an op is at or below another exactly when the other's author had taken it in there.  So
an `apply` overwrites nothing its author had not seen, and an `ignore` drops nothing the row lacks.

A rename breaks this.  Counters are per node and per path, and the vector of a rename carries the
counters of its source to its target, where they count the other nodes' writes at another path.
-/

namespace Replicore

namespace History

/-- At `p`, the vectors of the ops say what their authors had taken in, and every decision rests on
what the row has taken in. -/
structure OrdersAsSeen (h : History) (p : Path) : Prop where
  /-- At or below is: the op itself, or taken in by the author when it emitted the other. -/
  seen : ∀ o₁ ∈ h.opsAt p, ∀ o₂ ∈ h.opsAt p,
    o₁.vv ≤ o₂.vv → o₁ = o₂ ∨ o₁ ∈ h.past o₂ p
  /-- An op decided `apply` has seen everything in the row. -/
  apply : ∀ n, ∀ op ∈ h.opsAt p, Decision.decide ((h.mesh.stores n).loadFile p) op.vv = .apply →
    ∀ o ∈ h.inc n p, o ∈ h.past op p
  /-- An op decided `ignore` is in the row. -/
  ignore : ∀ n, ∀ op ∈ h.opsAt p, Decision.decide ((h.mesh.stores n).loadFile p) op.vv = .ignore →
    op ∈ h.inc n p

variable {nodes : Set NodeId} {h : History} {p : Path}

/-- An op whose vector a row or an op has reached was taken in there. -/
theorem StandsFor.mem_of_le {vv : VersionVector} {I : Set OpRecord} (hI : h.StandsFor nodes p vv I)
    {o : OpRecord} (ho : o ∈ h.opsAt p) (hle : o.vv ≤ vv) : o ∈ I :=
  hI.closed o ho (hle o.origin)

end History

namespace CausalInv

variable {nodes : Set NodeId} {h : History}

theorem ordersAsSeen (hinv : CausalInv nodes h) (p : Path) : h.OrdersAsSeen p := by
  have hseen : ∀ o₁ ∈ h.opsAt p, ∀ o₂ ∈ h.opsAt p,
      o₁.vv ≤ o₂.vv → o₁ = o₂ ∨ o₁ ∈ h.past o₂ p := by
    intro o₁ h₁ o₂ h₂ hle
    exact List.mem_cons.1 ((hinv.ops o₂ h₂.1 p h₂.2).mem_of_le h₁ hle)
  refine ⟨hseen, fun n op hop hd o ho => ?_, fun n op hop hd => ?_⟩
  · have hlt := Store.decide_eq_apply.1 hd
    have hrow := hinv.rows n p
    have hle : o.vv ≤ (h.mesh.stores n).vvAt p := hrow.le o ho
    rcases hseen o (hrow.mem ho) op hop (hle.trans (Store.vvAt_le_of_lt hlt)) with rfl | hpast
    · -- the row is strictly below the op, so the op is not in it
      cases hr : (h.mesh.stores n).files.get? p with
      | none =>
        rw [Store.vvAt_eq_new hr] at hle
        have hpos := hinv.dot_pos o hop.1
        exact absurd (hle o.origin) (Nat.not_le.2 hpos)
      | some r =>
        rw [Store.vvAt_eq hr] at hle
        exact absurd hle (not_le_of_gt (hlt r hr))
    · exact hpast
  · obtain ⟨r, hr, hle⟩ := Store.decide_eq_ignore.1 hd
    rw [← Store.vvAt_eq hr] at hle
    exact (hinv.rows n p).mem_of_le hop hle

end CausalInv

namespace History

section

variable [Blake3]

/-- **Vector order is happened-before, per path, while renames carry no foreign counters.**  In
every state of every run in which each rename's counters, read at either of its paths, count only
what its author had taken in there: at every path, an op at or below another was taken in by the
other's author before it emitted it; no op is decided `apply` over a version its author had not
seen; and none is decided `ignore` that the row does not include. -/
theorem vector_order_is_happened_before (nodes : Set NodeId) {h : History}
    (hr : ((runs nodes).restrict (RenameOk nodes)).Reach {} h) (hsyn : h.SyntheticApart nodes)
    (p : Path) : h.OrdersAsSeen p :=
  (causalInv_reach hr hsyn).ordersAsSeen p

end

section Example

attribute [local instance] Blake3.polynomial

/-- A write at `p`. -/
def writeAt (p : Path) : LocalChange := { Store.writeF with path := p }

/-- Node 1's first op, the write of `x`. -/
def writeX : OpRecord := Store.localOp 1 {} (writeAt ['x'])

/-- Node 1 writes `x`, and renames it to `p` after node 2 has recorded the write. -/
def renameOwn : List Act :=
  [.append 1 (writeAt ['x']), .record 2 writeX .apply, .rename 1 ['x'] ['p']]

theorem renameOwn_reach : ((runs {n | n ∈ [1, 2]}).restrict (RenameOk {n | n ∈ [1, 2]})).Reach {}
    (renameOwn.foldl step {}) := by
  rw [runs, Lts.restrict_ofFun]
  refine Lts.Reach.init.of_foldl ⟨⟨trivial, by decide +kernel⟩, ⟨trivial, by decide +kernel⟩,
    ⟨fun _ _ p hp a ha hne => ?_, by decide +kernel⟩, trivial⟩
  -- node 2 has no counter at either path, and no op
  obtain rfl : a = 2 := (List.mem_pair.1 ha).resolve_left hne
  rcases hp with rfl | rfl
  · exact ⟨by decide +kernel, fun x hx => by obtain ⟨hx, -⟩ := hx; revert x; decide +kernel⟩
  · exact ⟨by decide +kernel, fun x hx => by obtain ⟨hx, -⟩ := hx; revert x; decide +kernel⟩

/-- The rename dominates node 2's row at `x`: what it is about to overwrite there, node 1 had
seen. -/
theorem vector_order_own_rename :
    let h := renameOwn.foldl step {}
    ∃ op ∈ h.opsAt ['x'], Decision.decide ((h.mesh.stores 2).loadFile ['x']) op.vv = .apply ∧
      h.inc 2 ['x'] = [writeX] ∧ writeX ∈ h.past op ['x'] := by
  intro h
  have hsyn : h.SyntheticApart {n | n ∈ [1, 2]} := syntheticApart_foldl (by decide +kernel)
  have hord := vector_order_is_happened_before _ renameOwn_reach hsyn ['x']
  obtain ⟨op, hop, haff, hd⟩ : ∃ op ∈ h.mesh.ops, op.Affects ['x'] ∧
      Decision.decide ((h.mesh.stores 2).loadFile ['x']) op.vv = .apply := by decide +kernel
  have hinc : h.inc 2 ['x'] = [writeX] := by decide +kernel
  refine ⟨op, ⟨hop, haff⟩, hd, hinc, hord.apply 2 op ⟨hop, haff⟩ hd writeX ?_⟩
  rw [hinc]
  exact List.mem_singleton_self _

/-- Node 2 renames the file it got from node 1 to `p`, where node 1 has written in the meantime. -/
def renameForeign : List Act :=
  [.append 1 (writeAt ['x']), .record 2 writeX .apply, .append 1 (writeAt ['p']),
    .rename 2 ['x'] ['p']]

/-- Node 2 has never heard of the write at `p`, but its rename carries node 1's counter for `x`: it
dominates the write.  Node 1 would overwrite the write, and node 2 would ignore it. -/
theorem rename_overtakes_unseen_write :
    ∃ h, (runs {n | n ∈ [1, 2]}).Reach {} h ∧ h.SyntheticApart {n | n ∈ [1, 2]} ∧
      (∃ o₁ ∈ h.opsAt ['p'], ∃ o₂ ∈ h.opsAt ['p'],
        o₁.vv ≤ o₂.vv ∧ ¬ (o₁ = o₂ ∨ o₁ ∈ h.past o₂ ['p']) ∧
        Decision.decide ((h.mesh.stores 1).loadFile ['p']) o₂.vv = .apply ∧ o₁ ∈ h.inc 1 ['p'] ∧
        Decision.decide ((h.mesh.stores 2).loadFile ['p']) o₁.vv = .ignore ∧ o₁ ∉ h.inc 2 ['p']) ∧
      ¬ h.OrdersAsSeen ['p'] := by
  obtain ⟨o₁, ho₁, o₂, ho₂, haff₁, haff₂, hle, hne, hrest⟩ :
      ∃ o₁ ∈ (renameForeign.foldl step {}).mesh.ops, ∃ o₂ ∈ (renameForeign.foldl step {}).mesh.ops,
        o₁.Affects ['p'] ∧ o₂.Affects ['p'] ∧ o₁.vv ≤ o₂.vv ∧
        ¬ (o₁ = o₂ ∨ o₁ ∈ (renameForeign.foldl step {}).past o₂ ['p']) ∧
        Decision.decide (((renameForeign.foldl step {}).mesh.stores 1).loadFile ['p']) o₂.vv =
          .apply ∧ o₁ ∈ (renameForeign.foldl step {}).inc 1 ['p'] ∧
        Decision.decide (((renameForeign.foldl step {}).mesh.stores 2).loadFile ['p']) o₁.vv =
          .ignore ∧ o₁ ∉ (renameForeign.foldl step {}).inc 2 ['p'] := by
    decide +kernel
  refine ⟨renameForeign.foldl step {}, Lts.Reach.init.of_foldl (by decide +kernel),
    syntheticApart_foldl (by decide +kernel),
    ⟨o₁, ⟨ho₁, haff₁⟩, o₂, ⟨ho₂, haff₂⟩, hle, hne, hrest⟩, fun hord => ?_⟩
  exact hne (hord.seen o₁ ⟨ho₁, haff₁⟩ o₂ ⟨ho₂, haff₂⟩ hle)

end Example

end History

end Replicore
