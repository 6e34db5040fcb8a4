import Replicore.Store.OpLog

/-!
# A mesh of stores

Any number of nodes, each with its store; a step is one command at one node, and the ops that local
commands return are what the others may be handed.  `Mesh.ops` lists every op emitted so far.

Whatever commands run, in whatever order: a node's own entries are exactly the ops it emitted,
numbered without gaps, so an op id names one op of the mesh (`Mesh.Numbered`).
-/

namespace Replicore

open Consecutive

/-- The stores of all nodes, and every op emitted so far. -/
structure Mesh where
  stores : NodeId → Store := fun _ => {}
  ops : List OpRecord := []

/-- What is taken for granted about the ops of a run: a sequence number fits the `i64` it is stored
in, and no two op ids collide. -/
structure OpsOk [Blake3] (ops : List OpRecord) : Prop where
  seq_lt : ∀ o ∈ ops, o.originSeq < 2 ^ 63
  ids : ∀ a ∈ ops, ∀ b ∈ ops, opIdOf a.origin a.originSeq = opIdOf b.origin b.originSeq →
    a.origin = b.origin ∧ a.originSeq = b.originSeq

theorem OpsOk.mono [Blake3] {as bs : List OpRecord} (h : OpsOk bs) (hs : as ⊆ bs) : OpsOk as where
  seq_lt o ho := h.seq_lt o (hs ho)
  ids a ha b hb := h.ids a (hs ha) b (hs hb)

namespace Mesh

/-- The ops of `n`, in the order they were emitted. -/
def opsOf (g : Mesh) (n : NodeId) : List OpRecord := g.ops.filter (·.origin = n)

theorem mem_opsOf {g : Mesh} {n : NodeId} {o : OpRecord} :
    o ∈ g.opsOf n ↔ o ∈ g.ops ∧ o.origin = n := by
  simp [opsOf]

variable [Blake3]

/-- Node `n` runs a command. -/
def exec (g : Mesh) (n : NodeId) (cmd : Command) : Mesh where
  stores := Function.update g.stores n ((g.stores n).exec n cmd)
  ops := g.ops ++ (cmd.emitted n (g.stores n)).toList

/-- A node is handed ops of the mesh only. -/
def Honest (g : Mesh) (cmd : Command) : Prop := ∀ op, cmd.received = some op → op ∈ g.ops

@[simp] theorem exec_store_self (g : Mesh) (n : NodeId) (cmd : Command) :
    (g.exec n cmd).stores n = (g.stores n).exec n cmd := by
  simp [exec]

theorem exec_store_of_ne (g : Mesh) {n m : NodeId} (cmd : Command) (h : m ≠ n) :
    (g.exec n cmd).stores m = g.stores m := by
  simp [exec, h]

theorem ops_subset_exec (g : Mesh) (n : NodeId) (cmd : Command) : g.ops ⊆ (g.exec n cmd).ops :=
  List.subset_append_left _ _

theorem exec_ops_of_none {g : Mesh} {n : NodeId} {cmd : Command}
    (h : cmd.emitted n (g.stores n) = none) : (g.exec n cmd).ops = g.ops := by
  simp [exec, h]

theorem exec_ops_of_some {g : Mesh} {n : NodeId} {cmd : Command} {op : OpRecord}
    (h : cmd.emitted n (g.stores n) = some op) : (g.exec n cmd).ops = g.ops ++ [op] := by
  simp [exec, h]

/-- Commands that emit nothing, one after the other. -/
theorem foldl_exec {n : NodeId} (cmds : List Command) (g : Mesh)
    (hquiet : ∀ cmd ∈ cmds, ∀ st, cmd.emitted n st = none) :
    cmds.foldl (fun g cmd => g.exec n cmd) g =
      ⟨Function.update g.stores n (cmds.foldl (Store.exec n) (g.stores n)), g.ops⟩ := by
  induction cmds generalizing g with
  | nil => simp
  | cons cmd cmds ih =>
    rw [List.foldl_cons, ih _ fun c hc => hquiet c (List.mem_cons_of_mem _ hc), List.foldl_cons,
      exec_store_self, exec_ops_of_none (hquiet cmd List.mem_cons_self _)]
    simp [exec]

/-- The logs of a mesh. -/
structure Numbered (g : Mesh) : Prop where
  own : ∀ n, (g.stores n).ownOps n = g.opsOf n
  numbered : ∀ n, (g.opsOf n).map (·.originSeq) = after 0 (g.opsOf n).length
  ids : ∀ o ∈ g.ops, o.opId = opIdOf o.origin o.originSeq
  oplog : ∀ n, ∀ o ∈ (g.stores n).oplog, o ∈ g.ops

theorem numbered_init : Numbered {} where
  own _ := rfl
  numbered _ := rfl
  ids := by simp
  oplog := by simp

namespace Numbered

variable {g : Mesh} {n : NodeId} {cmd : Command} {op : OpRecord}

/-- An op id names one op. -/
theorem eq_of_opId (h : Numbered g) (hops : OpsOk g.ops) {a b : OpRecord} (ha : a ∈ g.ops)
    (hb : b ∈ g.ops) (hid : a.opId = b.opId) : a = b := by
  rw [h.ids a ha, h.ids b hb] at hid
  obtain ⟨horigin, hseq⟩ := hops.ids a ha b hb hid
  exact eq_of_originSeq_eq (h.numbered b.origin) (mem_opsOf.2 ⟨ha, horigin⟩)
    (mem_opsOf.2 ⟨hb, rfl⟩) hseq

theorem numbered_own (h : Numbered g) (n : NodeId) :
    ((g.stores n).ownOps n).map (·.originSeq) = after 0 (g.opsOf n).length := by
  rw [h.own]
  exact h.numbered n

/-- The number of a new op is the count of the ops it follows, plus one. -/
theorem latestOriginSeq_eq (h : Numbered g) (n : NodeId) :
    (g.stores n).latestOriginSeq n = (g.opsOf n).length :=
  Store.latestOriginSeq_eq (h.numbered_own n)

theorem originSeq_le (h : Numbered g) {o : OpRecord} (ho : o ∈ g.ops) :
    0 < o.originSeq ∧ o.originSeq ≤ (g.opsOf o.origin).length := by
  have hmem : o.originSeq ∈ (g.opsOf o.origin).map (·.originSeq) :=
    List.mem_map_of_mem (mem_opsOf.2 ⟨ho, rfl⟩)
  rw [h.numbered] at hmem
  have := mem_after.1 hmem
  omega

/-- The op of a local command has an id that no entry of the log has. -/
theorem fresh (h : Numbered g) (horigin : op.origin = n)
    (hseq : op.originSeq = (g.stores n).latestOriginSeq n + 1) (hops : OpsOk (g.ops ++ [op]))
    (hid : op.opId = opIdOf n op.originSeq) : ∀ o ∈ (g.stores n).oplog, o.opId ≠ op.opId := by
  intro o ho heq
  have hmem := h.oplog n o ho
  rw [h.ids o hmem, hid, ← horigin] at heq
  obtain ⟨horig, hsame⟩ := hops.ids o (by simp [hmem]) op (by simp) heq
  have hle := (h.originSeq_le hmem).2
  rw [hsame, hseq, h.latestOriginSeq_eq, horig, horigin] at hle
  omega

/-- A command that emits nothing and logs at most an op of the mesh. -/
theorem of_no_emit (h : Numbered g) (hem : cmd.emitted n (g.stores n) = none)
    (hown : ((g.stores n).exec n cmd).ownOps n = (g.stores n).ownOps n)
    (hlog : ∀ o ∈ ((g.stores n).exec n cmd).oplog, o ∈ g.ops) : Numbered (g.exec n cmd) := by
  have hops : (g.exec n cmd).ops = g.ops := exec_ops_of_none hem
  have hopsOf : ∀ m, (g.exec n cmd).opsOf m = g.opsOf m := fun m => by rw [opsOf, hops]; rfl
  refine ⟨fun m => ?_, fun m => ?_, ?_, fun m o ho => ?_⟩
  · rw [hopsOf]
    by_cases hm : m = n
    · subst hm
      rw [exec_store_self, hown, h.own]
    · rw [exec_store_of_ne g cmd hm, h.own]
  · rw [hopsOf]
    exact h.numbered m
  · rw [hops]
    exact h.ids
  · rw [hops]
    by_cases hm : m = n
    · subst hm
      rw [exec_store_self] at ho
      exact hlog o ho
    · rw [exec_store_of_ne g cmd hm] at ho
      exact h.oplog m o ho

/-- A local command that emits an op logs it at its node. -/
theorem of_emit (h : Numbered g) (hem : cmd.emitted n (g.stores n) = some op)
    (horigin : op.origin = n) (hseq : op.originSeq = (g.stores n).latestOriginSeq n + 1)
    (hid : op.opId = opIdOf n op.originSeq)
    (hlog : ((g.stores n).exec n cmd).oplog = (g.stores n).oplog ++ [op]) :
    Numbered (g.exec n cmd) := by
  have hops : (g.exec n cmd).ops = g.ops ++ [op] := exec_ops_of_some hem
  have hself : (g.exec n cmd).opsOf n = g.opsOf n ++ [op] := by
    simp [opsOf, hops, List.filter_append, horigin]
  have hother : ∀ m, m ≠ n → (g.exec n cmd).opsOf m = g.opsOf m := by
    intro m hm
    have hne : ¬ op.origin = m := fun heq => hm (heq.symm.trans horigin)
    simp [opsOf, hops, List.filter_append, hne]
  refine ⟨fun m => ?_, fun m => ?_, fun o ho => ?_, fun m o ho => ?_⟩
  · by_cases hm : m = n
    · subst hm
      rw [hself, exec_store_self, Store.ownOps, hlog, List.filter_append, ← Store.ownOps, h.own]
      simp [horigin]
    · rw [hother m hm, exec_store_of_ne g cmd hm, h.own]
  · by_cases hm : m = n
    · subst hm
      rw [hself, List.map_append, h.numbered, List.length_append, List.length_singleton,
        ← after_append_one, List.map_singleton, hseq, h.latestOriginSeq_eq, zero_add]
    · rw [hother m hm]
      exact h.numbered m
  · rw [hops, List.mem_append, List.mem_singleton] at ho
    rcases ho with ho | rfl
    · exact h.ids o ho
    · rw [hid, horigin]
  · rw [hops, List.mem_append, List.mem_singleton]
    by_cases hm : m = n
    · subst hm
      rw [exec_store_self, hlog, List.mem_append, List.mem_singleton] at ho
      exact ho.imp_left (h.oplog m o)
    · rw [exec_store_of_ne g cmd hm] at ho
      exact .inl (h.oplog m o ho)

theorem exec (h : Numbered g) (hcmd : g.Honest cmd) (hops : OpsOk (g.exec n cmd).ops) :
    Numbered (g.exec n cmd) := by
  rcases Store.exec_log n (g.stores n) cmd with ⟨hlog, -, hem⟩ |
    ⟨op, hem, horigin, hseq, hid, hlog, -⟩ | ⟨op, hrec, hem, hlog, -⟩
  · refine h.of_no_emit hem (by rw [Store.ownOps, hlog]; rfl) fun o ho => ?_
    exact h.oplog n o (hlog ▸ ho)
  · rw [exec_ops_of_some hem] at hops
    have hfresh := h.fresh horigin hseq hops hid
    refine h.of_emit hem horigin hseq hid ?_
    rw [hlog, Store.insertOp, if_neg (by simpa using hfresh)]
  · have hmem := hcmd op hrec
    refine h.of_no_emit hem ?_ fun o ho => ?_
    · by_cases horigin : op.origin = n
      · -- an own op that comes back is in the log already
        have hin : op ∈ (g.stores n).ownOps n := by
          rw [h.own]
          exact mem_opsOf.2 ⟨hmem, horigin⟩
        rw [Store.ownOps, hlog, Store.insertOp, if_pos, ← Store.ownOps]
        simp only [List.any_eq_true, decide_eq_true_eq]
        exact ⟨op, List.mem_of_mem_filter hin, rfl⟩
      · rw [Store.ownOps, hlog, Store.insertOp]
        split_ifs
        · rfl
        · simp [Store.ownOps, List.filter_append, horigin]
    · rw [hlog, Store.mem_insertOp] at ho
      rcases ho with ho | ⟨rfl, -⟩
      · exact h.oplog n o ho
      · exact hmem

theorem foldl_exec (h : Numbered g) (hops : OpsOk g.ops) {cmds : List Command}
    (hquiet : ∀ cmd ∈ cmds, ∀ st, cmd.emitted n st = none) (hcmds : ∀ cmd ∈ cmds, g.Honest cmd) :
    Numbered (cmds.foldl (fun g cmd => g.exec n cmd) g) := by
  induction cmds generalizing g with
  | nil => exact h
  | cons cmd cmds ih =>
    have hsame : (g.exec n cmd).ops = g.ops := exec_ops_of_none (hquiet cmd List.mem_cons_self _)
    refine ih (h.exec (hcmds cmd List.mem_cons_self) (hsame ▸ hops)) (hsame ▸ hops)
      (fun c hc => hquiet c (List.mem_cons_of_mem _ hc)) fun c hc op hrec => ?_
    rw [hsame]
    exact hcmds c (List.mem_cons_of_mem _ hc) op hrec

end Numbered

end Mesh

end Replicore
