import Replicore.Mesh.Basic
import Replicore.Store.Effects

/-!
# Partitioned namespaces converge

Every origin mutates paths of its own namespace only.  Its vectors then have one component, the ops
that affect a path are totally ordered, and a node's row at a path is the effect of the last of them
that the node has seen (`Mesh.Reflects`).  So the order and the multiplicity of deliveries do not
matter: no decision is concurrent, and nodes that have seen everything have the same table.
-/

namespace Replicore

namespace Mesh

/-- The row is the effect, at `p`, of the last of the ops in `S` that affect `p`. -/
def Reflects (S : OpRecord → Prop) (p : Path) : Option Row → Prop
  | none => ∀ o, S o → ¬ o.Affects p
  | some r => ∃ o, S o ∧ o.Affects p ∧ r = effectRow o p o.vv ∧
      ∀ o', S o' → o'.Affects p → o'.vv ≤ o.vv

/-- The op was emitted by `n`, or recorded there. -/
def Seen (g : Mesh) (n : NodeId) (o : OpRecord) : Prop :=
  o ∈ g.ops ∧ (o.origin = n ∨ o.opId ∈ (g.stores n).applied)

/-- Node `n` has handled every op of the mesh. -/
def Complete (g : Mesh) (n : NodeId) : Prop := ∀ o ∈ g.ops, g.Seen n o

variable (ns : NodeId → Set Path)

/-- An op of an origin that keeps to its namespace. -/
structure Owned (o : OpRecord) : Prop where
  wellFormed : o.WellFormed
  paths : ∀ p, o.Affects p → p ∈ ns o.origin
  only : ∀ m, m ≠ o.origin → o.vv.get m = 0
  normal : o.vv.Normal
  bound : (o.vv.get o.origin : ℤ) ≤ o.originSeq

/-- What a node may do: mutate its own namespace, or decide and record an op of the mesh. -/
def Allowed (g : Mesh) (n : NodeId) : Command → Prop
  | .appendLocal change => change.path ∈ ns n ∧ change.Ingested
  | .appendLocalRename old new => old ∈ ns n ∧ new ∈ ns n
  | .applyRemote op d =>
    op ∈ g.ops ∧ d = Decision.decide ((g.stores n).loadFile op.path) op.vv
  | _ => False

/-- The runs of origins that keep to their namespaces. -/
def partitioned [Blake3] : Lts Mesh (NodeId × Command) :=
  Lts.ofFun (fun g l => Allowed ns g l.1 l.2) fun g l => g.exec l.1 l.2

/-- What holds while every origin keeps to its namespace. -/
structure PartInv (g : Mesh) : Prop where
  owned : ∀ o ∈ g.ops, Owned ns o
  ordered : g.ops.Pairwise fun a b => ∀ p, a.Affects p → b.Affects p → a.vv < b.vv
  recorded : ∀ n, ∀ i ∈ (g.stores n).applied, ∃ o ∈ g.ops, o.opId = i
  rows : ∀ n p, Reflects (g.Seen n) p ((g.stores n).files.get? p)

variable {ns} {g : Mesh}

/-! ### Reflecting a set of ops -/

section

variable {S T : OpRecord → Prop} {p : Path} {row : Option Row}

/-- Ops that do not affect the path do not matter. -/
theorem Reflects.congr (h : Reflects S p row) (hST : ∀ o, o.Affects p → (S o ↔ T o)) :
    Reflects T p row := by
  cases row with
  | none => exact fun o ho hp => h o ((hST o hp).2 ho) hp
  | some r =>
    obtain ⟨o, ho, hp, hr, hmax⟩ := h
    exact ⟨o, (hST o hp).1 ho, hp, hr, fun o' ho' hp' => hmax o' ((hST o' hp').2 ho') hp'⟩

theorem Reflects.le_vv {r : Row} (h : Reflects S p (some r)) {o : OpRecord} (ho : S o)
    (hp : o.Affects p) : o.vv ≤ r.vv := by
  obtain ⟨o', -, -, rfl, hmax⟩ := h
  rw [effectRow_vv]
  exact hmax o ho hp

/-- A new op above the row takes it over. -/
theorem reflects_of_lt {op : OpRecord} (h : Reflects S p row) (hp : op.Affects p)
    (hlt : ∀ r, row = some r → r.vv < op.vv) (hT : ∀ o, T o ↔ S o ∨ o = op) :
    Reflects T p (some (effectRow op p op.vv)) := by
  refine ⟨op, (hT op).2 (.inr rfl), hp, rfl, fun o ho hop => ?_⟩
  rcases (hT o).1 ho with ho | rfl
  · cases row with
    | none => exact absurd hop (h o ho)
    | some r => exact (h.le_vv ho hop).trans (hlt r rfl).le
  · exact le_rfl

/-- An op below the row leaves it. -/
theorem Reflects.of_le {r : Row} {op : OpRecord} (h : Reflects S p (some r)) (hle : op.vv ≤ r.vv)
    (hT : ∀ o, T o ↔ S o ∨ o = op) : Reflects T p (some r) := by
  obtain ⟨o, ho, hop, rfl, hmax⟩ := h
  refine ⟨o, (hT o).2 (.inl ho), hop, rfl, fun o' ho' hp' => ?_⟩
  rcases (hT o').1 ho' with ho' | rfl
  · exact hmax o' ho' hp'
  · rwa [effectRow_vv] at hle

end

namespace PartInv

/-- Two ops that affect one path are ordered. -/
theorem comparable (h : PartInv ns g) {a b : OpRecord} (ha : a ∈ g.ops) (hb : b ∈ g.ops) {p : Path}
    (hpa : a.Affects p) (hpb : b.Affects p) : a = b ∨ a.vv < b.vv ∨ b.vv < a.vv := by
  by_cases hab : a = b
  · exact .inl hab
  · refine .inr ?_
    have hsym := h.ordered.imp (S := fun a b => ∀ p, a.Affects p → b.Affects p →
      a.vv < b.vv ∨ b.vv < a.vv) fun hlt p ha hb => .inl (hlt p ha hb)
    have : Std.Symm fun a b : OpRecord => ∀ p, a.Affects p → b.Affects p →
        a.vv < b.vv ∨ b.vv < a.vv := ⟨fun _ _ hs p hb ha => (hs p ha hb).symm⟩
    exact hsym.forall ha hb hab p hpa hpb

/-- A row of a node is the effect of an op of the mesh. -/
theorem row_eq (h : PartInv ns g) {n : NodeId} {p : Path} {r : Row}
    (hr : (g.stores n).files.get? p = some r) :
    ∃ o ∈ g.ops, g.Seen n o ∧ o.Affects p ∧ r = effectRow o p o.vv := by
  have hrow := h.rows n p
  rw [hr] at hrow
  obtain ⟨o, ho, hp, hro, -⟩ := hrow
  exact ⟨o, ho.1, ho, hp, hro⟩

theorem vvAt_normal (h : PartInv ns g) (n : NodeId) (p : Path) : ((g.stores n).vvAt p).Normal := by
  cases hr : (g.stores n).files.get? p with
  | none => rw [Store.vvAt_eq_new hr]; exact VersionVector.normal_new
  | some r =>
    obtain ⟨o, ho, -, -, rfl⟩ := h.row_eq hr
    rw [Store.vvAt_eq hr, effectRow_vv]
    exact (h.owned o ho).normal

/-- An op of the mesh is never concurrent with a row at a path it affects. -/
theorem not_concurrent (h : PartInv ns g) {op : OpRecord} (hop : op ∈ g.ops) {p : Path}
    (hp : op.Affects p) (n : NodeId) :
    Decision.decide ((g.stores n).loadFile p) op.vv ≠ .concurrent := by
  intro hconc
  obtain ⟨r, hr, hn₁, hn₂⟩ := Store.decide_eq_concurrent.1 hconc
  obtain ⟨o, ho, -, hop', rfl⟩ := h.row_eq hr
  rw [effectRow_vv] at hn₁ hn₂
  rcases h.comparable ho hop hop' hp with rfl | hlt | hlt
  · exact hn₁ le_rfl
  · exact hn₂ hlt.le
  · exact hn₁ hlt.le

/-- An op that is not above a row at a path it affects is below it. -/
theorem le_of_not_lt (h : PartInv ns g) {op : OpRecord} (hop : op ∈ g.ops) {p : Path}
    (hp : op.Affects p) {n : NodeId} {r : Row} (hr : (g.stores n).files.get? p = some r)
    (hnot : ¬ r.vv < op.vv) : op.vv ≤ r.vv := by
  obtain ⟨o, ho, -, hop', rfl⟩ := h.row_eq hr
  rw [effectRow_vv] at hnot ⊢
  rcases h.comparable ho hop hop' hp with rfl | hlt | hlt
  · exact le_rfl
  · exact absurd hlt hnot
  · exact hlt.le

/-- The ops that affect a path of a namespace are its origin's, and are below its row there. -/
theorem le_vvAt (h : PartInv ns g) (hdisj : ∀ m n p, p ∈ ns m → p ∈ ns n → m = n)
    {n : NodeId} {p : Path} (hp : p ∈ ns n) {o : OpRecord} (ho : o ∈ g.ops) (hop : o.Affects p) :
    o.vv ≤ (g.stores n).vvAt p := by
  have hseen : g.Seen n o := ⟨ho, .inl (hdisj _ _ p ((h.owned o ho).paths p hop) hp)⟩
  have hrow := h.rows n p
  cases hr : (g.stores n).files.get? p with
  | none =>
    rw [hr] at hrow
    exact absurd hop (hrow o hseen)
  | some r =>
    rw [hr] at hrow
    rw [Store.vvAt_eq hr]
    exact hrow.le_vv hseen hop

/-! ### A remote op -/

variable [Blake3] {n : NodeId} {cmd : Command} {op : OpRecord}

theorem seen_exec_of_ne (hem : cmd.emitted n (g.stores n) = none) {m : NodeId} (hm : m ≠ n)
    (o : OpRecord) : (g.exec n cmd).Seen m o ↔ g.Seen m o := by
  rw [Seen, Seen, exec_ops_of_none hem, exec_store_of_ne g cmd hm]

/-- A command that emits nothing: it is enough to look at the node it runs on. -/
theorem of_no_emit (h : PartInv ns g) (hem : cmd.emitted n (g.stores n) = none)
    (happ : ∀ i ∈ ((g.stores n).exec n cmd).applied, ∃ o ∈ g.ops, o.opId = i)
    (hrows : ∀ p, Reflects ((g.exec n cmd).Seen n) p
      (((g.stores n).exec n cmd).files.get? p)) : PartInv ns (g.exec n cmd) := by
  have hops : (g.exec n cmd).ops = g.ops := exec_ops_of_none hem
  refine ⟨hops ▸ h.owned, hops ▸ h.ordered, fun m => ?_, fun m p => ?_⟩
  · rw [hops]
    by_cases hm : m = n
    · subst hm
      rw [exec_store_self]
      exact happ
    · rw [exec_store_of_ne g cmd hm]
      exact h.recorded m
  · by_cases hm : m = n
    · subst hm
      rw [exec_store_self]
      exact hrows p
    · rw [exec_store_of_ne g cmd hm]
      exact (h.rows m p).congr fun o _ => (seen_exec_of_ne hem hm o).symm

/-- A command that changes neither a row nor the applied set. -/
theorem of_quiet (h : PartInv ns g) (hem : cmd.emitted n (g.stores n) = none)
    (hfiles : ((g.stores n).exec n cmd).files = (g.stores n).files)
    (happ : ((g.stores n).exec n cmd).applied = (g.stores n).applied) :
    PartInv ns (g.exec n cmd) := by
  refine h.of_no_emit hem (happ ▸ h.recorded n) fun p => ?_
  rw [hfiles]
  refine (h.rows n p).congr fun o _ => ?_
  rw [Seen, Seen, exec_ops_of_none hem, exec_store_self, happ]

/-- Recording an op: its effect stands where it is above the row, and it counts as seen. -/
theorem deliver (h : PartInv ns g) (hnum : Numbered g) (hok : OpsOk g.ops) (hop : op ∈ g.ops)
    {d : Decision} (hd : d = Decision.decide ((g.stores n).loadFile op.path) op.vv) :
    PartInv ns (g.exec n (.applyRemote op d)) := by
  have hem : (Command.applyRemote op d).emitted n (g.stores n) = none := rfl
  by_cases happ : op.opId ∈ (g.stores n).applied
  · have hrun := Store.applyRemote_of_applied happ d
    refine h.of_quiet hem ?_ ?_ <;> simp [Store.exec, Store.commit, hrun]
  · obtain ⟨e, st', hrun, -, happ', -, -, hfiles⟩ :=
      Store.applyRemote_files (h.owned op hop).wellFormed happ d
    have hexec : (g.stores n).exec n (.applyRemote op d) = st' := by
      simp [Store.exec, Store.commit, hrun]
    have hseen : ∀ o, (g.exec n (.applyRemote op d)).Seen n o ↔ g.Seen n o ∨ o = op := by
      intro o
      rw [Seen, Seen, exec_ops_of_none hem, exec_store_self, hexec, happ', List.mem_append,
        List.mem_singleton]
      constructor
      · rintro ⟨ho, horig | hin | hid⟩
        · exact .inl ⟨ho, .inl horig⟩
        · exact .inl ⟨ho, .inr hin⟩
        · exact .inr (hnum.eq_of_opId hok ho hop hid)
      · rintro (⟨ho, horig | hin⟩ | rfl)
        · exact ⟨ho, .inl horig⟩
        · exact ⟨ho, .inr (.inl hin)⟩
        · exact ⟨hop, .inr (.inr rfl)⟩
    refine h.of_no_emit hem ?_ fun p => ?_
    · rw [hexec, happ']
      intro i hi
      rcases List.mem_append.1 hi with hi | hi
      · exact h.recorded n i hi
      · exact ⟨op, hop, (List.mem_singleton.1 hi).symm⟩
    · rw [hexec]
      obtain ⟨htake, hkeep⟩ := hfiles p
      by_cases haff : op.Affects p
      · by_cases hlt : ∀ r, (g.stores n).files.get? p = some r → r.vv < op.vv
        · -- the op is above the row: it takes effect, and its vector is the row's
          have heff : (g.stores n).TakesEffect op d p := by
            refine ⟨(OpRecord.affects_iff.1 haff).imp (fun hp => ⟨hp, ?_⟩) id, hlt⟩
            rw [hd, hp]
            exact Store.decide_eq_apply.2 hlt
          rw [htake heff, (h.vvAt_normal n p).merge_eq_right (h.owned op hop).normal
            (Store.vvAt_le_of_lt hlt)]
          exact reflects_of_lt (h.rows n p) haff hlt hseen
        · push Not at hlt
          obtain ⟨r, hr, hnot⟩ := hlt
          rw [hkeep fun heff => hnot (heff.2 r hr), hr]
          exact Reflects.of_le (hr ▸ h.rows n p) (h.le_of_not_lt hop haff hr hnot) hseen
      · rw [hkeep fun heff => haff (OpRecord.affects_iff.2 (heff.1.imp And.left id))]
        refine (h.rows n p).congr fun o ho => ?_
        rw [hseen]
        exact ⟨.inl, fun hor => hor.resolve_right fun heq => haff (heq ▸ ho)⟩

/-! ### A local op -/

/-- The vector of a node's row in its namespace has the node's component only, and that is at most
its last number. -/
theorem vvAt_own (h : PartInv ns g) (hnum : Numbered g)
    (hdisj : ∀ m n p, p ∈ ns m → p ∈ ns n → m = n) {p : Path} (hp : p ∈ ns n) :
    (∀ m, m ≠ n → ((g.stores n).vvAt p).get m = 0) ∧
      ((g.stores n).vvAt p).get n ≤ (g.opsOf n).length := by
  cases hr : (g.stores n).files.get? p with
  | none => rw [Store.vvAt_eq_new hr]; exact ⟨fun _ _ => rfl, Nat.zero_le _⟩
  | some r =>
    obtain ⟨o, ho, -, hop, rfl⟩ := h.row_eq hr
    rw [Store.vvAt_eq hr, effectRow_vv]
    obtain rfl := hdisj _ _ p ((h.owned o ho).paths p hop) hp
    have hseq := (hnum.originSeq_le ho).2
    have hbound := (h.owned o ho).bound
    exact ⟨(h.owned o ho).only, by omega⟩

theorem emit (h : PartInv ns g) (hnum : Numbered g) (hnum' : Numbered (g.exec n cmd))
    (hok : OpsOk (g.exec n cmd).ops) (hdisj : ∀ m n p, p ∈ ns m → p ∈ ns n → m = n)
    (hem : cmd.emitted n (g.stores n) = some op) (horigin : op.origin = n)
    (hseq : op.originSeq = (g.stores n).latestOriginSeq n + 1)
    (happ : ((g.stores n).exec n cmd).applied = (g.stores n).applied)
    (hpaths : ∀ p, op.Affects p → p ∈ ns n)
    (hemits : Store.Emits n (g.stores n) ((g.stores n).exec n cmd) op) :
    PartInv ns (g.exec n cmd) := by
  have hops : (g.exec n cmd).ops = g.ops ++ [op] := exec_ops_of_some hem
  obtain ⟨base, hvv, hle, hget, hnormal⟩ := hemits.base
  rw [hnum.latestOriginSeq_eq] at hseq
  have hseqlt := hok.seq_lt op (by simp [hops])
  -- the base is one of the rows' components, so it is as bounded as they are
  have hbase : (∀ m, m ≠ n → base.get m = 0) ∧ base.get n ≤ (g.opsOf n).length := by
    constructor
    · intro m hm
      obtain ⟨p, hp, hbp⟩ := hget m
      rw [hbp]
      exact (h.vvAt_own hnum hdisj (hpaths p hp)).1 m hm
    · obtain ⟨p, hp, hbp⟩ := hget n
      rw [hbp]
      exact (h.vvAt_own hnum hdisj (hpaths p hp)).2
  have hnowrap : base.get n + 1 < u64Bound := by
    have := hbase.2
    unfold u64Bound
    omega
  have hlt : base < op.vv := hvv ▸ VersionVector.lt_increment hnowrap
  have hbelow : ∀ o ∈ g.ops, ∀ p, o.Affects p → op.Affects p → o.vv < op.vv := fun o ho p hop hp =>
    ((h.le_vvAt hdisj (hpaths p hp) ho hop).trans (hle p hp)).trans_lt hlt
  have howned : Owned ns op := by
    refine ⟨hemits.wellFormed, fun p hp => horigin ▸ hpaths p hp, fun m hm => ?_, ?_, ?_⟩
    · rw [horigin] at hm
      rw [hvv, VersionVector.get_increment, if_neg hm.symm]
      exact hbase.1 m hm
    · rw [hvv]
      exact (hnormal fun p _ => h.vvAt_normal n p).increment hnowrap
    · have := hbase.2
      rw [horigin, hvv, VersionVector.get_increment, if_pos rfl, Nat.mod_eq_of_lt hnowrap]
      omega
  have hmem : ∀ o, o ∈ (g.exec n cmd).ops ↔ o ∈ g.ops ∨ o = op := fun o => by
    rw [hops, List.mem_append, List.mem_singleton]
  have hfresh : ∀ m, op.opId ∉ (g.stores m).applied := by
    intro m hin
    obtain ⟨o, ho, hid⟩ := h.recorded m _ hin
    have heq := hnum'.eq_of_opId hok ((hmem o).2 (.inl ho)) ((hmem op).2 (.inr rfl)) hid
    have hbound := (hnum.originSeq_le ho).2
    rw [heq, horigin] at hbound
    omega
  refine ⟨fun o ho => ?_, ?_, fun m i hi => ?_, fun m p => ?_⟩
  · rcases (hmem o).1 ho with ho | rfl
    · exact h.owned o ho
    · exact howned
  · rw [hops, List.pairwise_append]
    refine ⟨h.ordered, List.pairwise_singleton _ _, fun o ho o' ho' p hp hp' => ?_⟩
    rw [List.mem_singleton.1 ho'] at hp' ⊢
    exact hbelow o ho p hp hp'
  · have hi' : i ∈ (g.stores m).applied := by
      by_cases hm : m = n
      · subst hm
        rwa [exec_store_self, happ] at hi
      · rwa [exec_store_of_ne g cmd hm] at hi
    obtain ⟨o, ho, hid⟩ := h.recorded m i hi'
    exact ⟨o, (hmem o).2 (.inl ho), hid⟩
  · by_cases hm : m = n
    · subst hm
      have hseen : ∀ o, (g.exec m cmd).Seen m o ↔ g.Seen m o ∨ o = op := by
        intro o
        rw [Seen, Seen, hmem, exec_store_self, happ]
        constructor
        · rintro ⟨ho | rfl, hor⟩
          · exact .inl ⟨ho, hor⟩
          · exact .inr rfl
        · rintro (⟨ho, hor⟩ | rfl)
          · exact ⟨.inl ho, hor⟩
          · exact ⟨.inr rfl, .inl horigin⟩
      rw [exec_store_self]
      by_cases haff : op.Affects p
      · rw [hemits.effect p haff]
        refine reflects_of_lt (h.rows m p) haff (fun r hr => ?_) hseen
        rw [← Store.vvAt_eq hr]
        exact (hle p haff).trans_lt hlt
      · rw [hemits.frame p haff]
        refine (h.rows m p).congr fun o ho => ?_
        rw [hseen]
        exact ⟨.inl, fun hor => hor.resolve_right fun heq => haff (heq ▸ ho)⟩
    · -- another node has neither emitted the op nor recorded it
      rw [exec_store_of_ne g cmd hm]
      refine (h.rows m p).congr fun o _ => ?_
      rw [Seen, Seen, hmem, exec_store_of_ne g cmd hm]
      constructor
      · exact fun ⟨ho, hor⟩ => ⟨.inl ho, hor⟩
      · rintro ⟨ho | rfl, hor⟩
        · exact ⟨ho, hor⟩
        · rcases hor with horig | hin
          · exact absurd (horig.symm.trans horigin) hm
          · exact absurd hin (hfresh m)

end PartInv

/-! ### Runs -/

/-- The row that a set of ops determines. -/
theorem PartInv.reflects_unique (h : PartInv ns g) {S T : OpRecord → Prop} {p : Path}
    {row row' : Option Row} (hS : ∀ o, S o → o ∈ g.ops) (hr : Reflects S p row)
    (hr' : Reflects T p row') (hST : ∀ o, o.Affects p → (S o ↔ T o)) : row = row' := by
  have hr'' := hr'.congr fun o ho => (hST o ho).symm
  cases row with
  | none =>
    cases row' with
    | none => rfl
    | some r' =>
      obtain ⟨o, ho, hp, -⟩ := hr''
      exact absurd hp (hr o ho)
  | some r =>
    obtain ⟨o, ho, hp, rfl, hmax⟩ := hr
    cases row' with
    | none => exact absurd hp (hr'' o ho)
    | some r' =>
      obtain ⟨o', ho', hp', rfl, hmax'⟩ := hr''
      -- both ops are last, and ops at one path are ordered
      rcases h.comparable (hS o ho) (hS o' ho') hp hp' with rfl | hlt | hlt
      · rfl
      · exact absurd (hmax o' ho' hp') (not_le_of_gt hlt)
      · exact absurd (hmax' o ho hp) (not_le_of_gt hlt)

theorem partInv_init : PartInv ns {} where
  owned := by simp
  ordered := List.Pairwise.nil
  recorded := by simp
  rows n p o ho := by simp [Seen] at ho

theorem Allowed.honest {n : NodeId} {cmd : Command} (h : Allowed ns g n cmd) : g.Honest cmd := by
  intro op hrec
  cases cmd with
  | applyRemote op' d => cases hrec; exact h.1
  | _ => cases hrec

section

variable [Blake3]

/-- A local command, allowed: its paths are in the namespace of its node. -/
theorem PartInv.localStep (h : PartInv ns g) (hnum : Numbered g)
    (hdisj : ∀ m n p, p ∈ ns m → p ∈ ns n → m = n) {n : NodeId} {cmd : Command}
    (hall : Allowed ns g n cmd) (hok : OpsOk (g.exec n cmd).ops)
    (hloc : (∃ change, cmd = .appendLocal change) ∨ ∃ old new, cmd = .appendLocalRename old new) :
    PartInv ns (g.exec n cmd) := by
  have hrec : cmd.received = none := by
    rcases hloc with ⟨change, rfl⟩ | ⟨old, new, rfl⟩ <;> rfl
  rcases Store.exec_log n (g.stores n) cmd with ⟨-, happ, hem⟩ |
    ⟨op, hem, horigin, hseq, -, -, happ⟩ | ⟨op, hrec', -⟩
  · exact h.of_quiet hem (Store.exec_files_of_no_op hloc hem) happ
  · refine h.emit hnum (hnum.exec hall.honest hok) hok hdisj hem horigin hseq happ
      (fun p hp => ?_) (Store.emits_of_emitted (fun change hc => ?_) hem)
    · rcases Store.affects_of_emitted hem hp with ⟨change, rfl, rfl⟩ | ⟨old, new, rfl, rfl | rfl⟩
      · exact hall.1
      · exact hall.1
      · exact hall.2
    · subst hc
      exact hall.2
  · rw [hrec] at hrec'
    cases hrec'

theorem PartInv.step (h : PartInv ns g) (hnum : Numbered g)
    (hdisj : ∀ m n p, p ∈ ns m → p ∈ ns n → m = n) {n : NodeId} {cmd : Command}
    (hall : Allowed ns g n cmd) (hok : OpsOk (g.exec n cmd).ops) : PartInv ns (g.exec n cmd) := by
  cases cmd with
  | appendLocal change => exact h.localStep hnum hdisj hall hok (.inl ⟨change, rfl⟩)
  | appendLocalRename old new => exact h.localStep hnum hdisj hall hok (.inr ⟨old, new, rfl⟩)
  | applyRemote op d =>
    exact h.deliver hnum (hok.mono (ops_subset_exec g n _)) hall.1 hall.2
  | reconcileUpsert row => exact hall.elim
  | resolveRows path remote staged order => exact hall.elim

theorem partInv_reach (hdisj : ∀ m n p, p ∈ ns m → p ∈ ns n → m = n)
    (h : (partitioned ns).Reach {} g) (hok : OpsOk g.ops) : Numbered g ∧ PartInv ns g := by
  -- what is assumed of the ops of a state holds of the fewer ops of every earlier one
  refine h.invariant (I := fun g => OpsOk g.ops → Numbered g ∧ PartInv ns g)
    (fun _ => ⟨numbered_init, partInv_init⟩) (fun g l g' _ ih hstep hok => ?_) hok
  obtain ⟨hall, rfl⟩ := hstep
  obtain ⟨hnum, hinv⟩ := ih (hok.mono (ops_subset_exec g l.1 l.2))
  exact ⟨hnum.exec hall.honest hok, hinv.step hnum hdisj hall hok⟩

/-- **Partitioned namespaces converge, renames included.**  On every run in which each origin
writes, deletes and renames inside its own namespace only and ops are decided and recorded in any
order and any number of times: no decision for an op at a path it affects is concurrent; nodes that
have handled every op have the same table; within a namespace that is the table of its origin; and
handling a recorded op again changes no row, no entry of the log and nothing in the applied set. -/
theorem partitioned_namespaces_converge (ns : NodeId → Set Path)
    (hdisj : ∀ m n p, p ∈ ns m → p ∈ ns n → m = n) {g : Mesh}
    (h : (partitioned ns).Reach {} g) (hok : OpsOk g.ops) :
    (∀ n, ∀ op ∈ g.ops, ∀ p, op.Affects p →
      Decision.decide ((g.stores n).loadFile p) op.vv ≠ .concurrent) ∧
    (∀ n n', g.Complete n → g.Complete n' → (g.stores n).files = (g.stores n').files) ∧
    (∀ n m, g.Complete n → ∀ p ∈ ns m,
      (g.stores n).files.get? p = (g.stores m).files.get? p) ∧
    ∀ n, ∀ op ∈ g.ops, op.opId ∈ (g.stores n).applied → ∀ d,
      ((g.stores n).exec n (.applyRemote op d)).files = (g.stores n).files ∧
      ((g.stores n).exec n (.applyRemote op d)).oplog = (g.stores n).oplog ∧
      ((g.stores n).exec n (.applyRemote op d)).applied = (g.stores n).applied := by
  obtain ⟨-, hinv⟩ := partInv_reach hdisj h hok
  refine ⟨fun n op hop p hp => hinv.not_concurrent hop hp n, fun n n' hn hn' => ?_,
    fun n m hn p hp => ?_, fun n op _ happ d => ?_⟩
  · refine OrdMap.ext_get? fun p => ?_
    refine hinv.reflects_unique (fun o ho => ho.1) (hinv.rows n p) (hinv.rows n' p) fun o _ => ?_
    exact ⟨fun ho => hn' o ho.1, fun ho => hn o ho.1⟩
  · refine hinv.reflects_unique (fun o ho => ho.1) (hinv.rows n p) (hinv.rows m p) fun o ho => ?_
    refine ⟨fun hs => ⟨hs.1, .inl ?_⟩, fun hs => hn o hs.1⟩
    exact hdisj _ _ p ((hinv.owned o hs.1).paths p ho) hp
  · have hrun := Store.applyRemote_of_applied happ d
    simp [Store.exec, Store.commit, hrun]

end

section Example

attribute [local instance] Blake3.polynomial

/-- Node 1 owns the paths under `a`, node 2 those under `b`. -/
def twoNamespaces (n : NodeId) : Set Path :=
  fun p => (n = 1 ∧ p.head? = some 'a') ∨ (n = 2 ∧ p.head? = some 'b')

/-- Node 1 writes `a` and renames it to `ax`. -/
def writeThenRename : Mesh :=
  (({} : Mesh).exec 1 (.appendLocal { Store.writeF with path := ['a'] })).exec 1
    (.appendLocalRename ['a'] ['a', 'x'])

/-- Node 3 handles the rename before the write it renames, and the rename twice. -/
def renameFirst : Mesh :=
  let write := writeThenRename.ops.get ⟨0, by decide +kernel⟩
  let rename := writeThenRename.ops.get ⟨1, by decide +kernel⟩
  ((writeThenRename.exec 3 (.applyRemote rename .apply)).exec 3 (.applyRemote write .ignore)).exec 3
    (.applyRemote rename .ignore)

theorem renameFirst_reach : (partitioned twoNamespaces).Reach {} renameFirst := by
  have hnext : ∀ {g : Mesh} {n : NodeId} {cmd : Command}, (partitioned twoNamespaces).Reach {} g →
      Allowed twoNamespaces g n cmd → (partitioned twoNamespaces).Reach {} (g.exec n cmd) :=
    fun {g n cmd} h hall => h.next (l := (n, cmd)) ⟨hall, rfl⟩
  have hwrite : Allowed twoNamespaces {} 1 (.appendLocal { Store.writeF with path := ['a'] }) :=
    ⟨.inl ⟨rfl, rfl⟩, by decide, by decide, by simp [Store.writeF]⟩
  have hrename : ∀ g, Allowed twoNamespaces g 1 (.appendLocalRename ['a'] ['a', 'x']) :=
    fun _ => ⟨.inl ⟨rfl, rfl⟩, .inl ⟨rfl, rfl⟩⟩
  have hlocal : (partitioned twoNamespaces).Reach {} writeThenRename :=
    hnext (hnext .init hwrite) (hrename _)
  refine hnext (hnext (hnext hlocal ⟨?_, ?_⟩) ⟨?_, ?_⟩) ⟨?_, ?_⟩
  all_goals decide +kernel

/-- The rename arrived before its write: node 3 still ends with node 1's table. -/
theorem partitioned_converge_rename_first :
    (renameFirst.stores 3).files = (renameFirst.stores 1).files ∧
      (renameFirst.stores 3).files.keys = [['a'], ['a', 'x']] := by
  have hdisj : ∀ m n p, p ∈ twoNamespaces m → p ∈ twoNamespaces n → m = n := by
    rintro m n p (⟨rfl, ha⟩ | ⟨rfl, ha⟩) (⟨rfl, hb⟩ | ⟨rfl, hb⟩)
    · rfl
    · rw [ha] at hb; cases hb
    · rw [ha] at hb; cases hb
    · rfl
  have hok : OpsOk renameFirst.ops := ⟨by decide +kernel, by decide +kernel⟩
  have hcomplete : ∀ n, n = 1 ∨ n = 3 → renameFirst.Complete n := by
    rintro n (rfl | rfl) o ho
    · exact ⟨ho, .inl (by revert o; decide +kernel)⟩
    · exact ⟨ho, .inr (by revert o; decide +kernel)⟩
  obtain ⟨-, hall, -⟩ := partitioned_namespaces_converge twoNamespaces hdisj renameFirst_reach hok
  exact ⟨hall 3 1 (hcomplete 3 (.inr rfl)) (hcomplete 1 (.inl rfl)), by decide +kernel⟩

end Example

end Mesh

end Replicore
