import Replicore.Mesh.History

/-!
# Vectors tell what was taken in

`CausalInv` says of a state that, path by path, the vector of every row, and of every op at a path
it affects, stands for what the row or the op's author had taken in.  Every act keeps it: recording
an op or taking over a row joins two vectors, a resolution joins those of all candidates, and a new
op counts one more than its author's row (`Clock.Closed.sup`, `Clock.Closed.of_cover`,
`Clock.Closed.bump`).  A rename keeps it under the condition `History.RenameOk`.
-/

namespace Replicore

/-- Vectors tell what was taken in. -/
structure CausalInv (nodes : Set NodeId) (h : History) : Prop where
  author : ∀ o ∈ h.mesh.ops, o.origin ∈ nodes
  wellFormed : ∀ o ∈ h.mesh.ops, o.WellFormed
  dot_pos : ∀ o ∈ h.mesh.ops, 0 < o.vv.get o.origin
  oplog : ∀ n, ∀ o ∈ (h.mesh.stores n).oplog, o ∈ h.mesh.ops
  rows : ∀ n p, h.StandsFor nodes p ((h.mesh.stores n).vvAt p) {o | o ∈ h.inc n p}
  ops : ∀ o ∈ h.mesh.ops, ∀ p, o.Affects p → h.StandsFor nodes p o.vv {x | x ∈ h.withPast p o}
  /-- No two ops at a path have the same vector. -/
  antisymm : ∀ p, ∀ o ∈ h.opsAt p, ∀ o' ∈ h.opsAt p, o.vv ≤ o'.vv → o'.vv ≤ o.vv → o = o'

namespace CausalInv

variable {nodes : Set NodeId} {h : History} {n : NodeId} {cmd : Command}
variable {src : Path → List OpRecord}

theorem init : CausalInv nodes {} where
  author := by simp
  wellFormed := by simp
  dot_pos := by simp
  oplog := by simp
  rows n p := by
    have hzero : ((({} : History).mesh.stores n).vvAt p).get = fun _ => 0 := rfl
    rw [History.StandsFor, hzero]
    convert Clock.Closed.zero _
    · simp
    · rintro x ⟨hx, -⟩
      simp at hx
  ops := by simp
  antisymm := by simp [History.opsAt]

theorem dot_pos_at (hinv : CausalInv nodes h) (p : Path) :
    ∀ x ∈ h.opsAt p, 0 < History.clock.dot x :=
  fun x hx => hinv.dot_pos x hx.1

theorem author_at (hinv : CausalInv nodes h) (p : Path) :
    ∀ x ∈ h.opsAt p, History.clock.author x ∈ nodes :=
  fun x hx => hinv.author x hx.1

/-- What a merged vector covers, one of the candidates covers. -/
theorem exists_ge_candidate (hinv : CausalInv nodes h) {p : Path} {cs : List Version}
    (hst : ∀ c ∈ cs, ∃ I, h.StandsFor nodes p c.vv I) {x : OpRecord}
    (hx : x ∈ h.opsAt p) (hle : x.vv ≤ mergeAll cs) : ∃ c ∈ cs, x.vv ≤ c.vv := by
  have hpos := hinv.dot_pos x hx.1
  obtain ⟨c, hc, hget⟩ := exists_get_mergeAll (hpos.trans_le (hle x.origin))
  obtain ⟨I, hI⟩ := hst c hc
  refine ⟨c, hc, hI.le x (hI.closed x hx ?_)⟩
  exact hget ▸ hle x.origin

/-- A local write counts what the row had. -/
theorem countsOnlyTaken_row (hinv : CausalInv nodes h) {k : NodeId → ℕ} {p : Path}
    (hk : ∀ a, a ≠ n → k a = ((h.mesh.stores n).vvAt p).get a) :
    h.CountsOnlyTaken nodes n k p := by
  intro a ha hne
  rw [hk a hne]
  exact ⟨(hinv.rows n p).le_top a ha, fun x _ _ hle => hle⟩

variable [Blake3]

/-- What one step of `n` has to respect at a path: its vector grows and still tells what the row has
taken in. -/
def RowOk (nodes : Set NodeId) (h : History) (n : NodeId) (cmd : Command)
    (src : Path → List OpRecord) (p : Path) : Prop :=
  (h.mesh.stores n).vvAt p ≤ ((h.mesh.stores n).exec n cmd).vvAt p ∧
    h.StandsFor nodes p (((h.mesh.stores n).exec n cmd).vvAt p)
      ({o | o ∈ h.inc n p} ∪ {o | o ∈ src p})

/-- A step without a new op: it is enough to look at the rows that change. -/
theorem of_quiet (hinv : CausalInv nodes h) (hn : n ∈ nodes)
    (hem : cmd.emitted n (h.mesh.stores n) = none)
    (hlog : ∀ o ∈ ((h.mesh.stores n).exec n cmd).oplog, o ∈ h.mesh.ops)
    (hrows : ∀ p, ((h.mesh.stores n).exec n cmd).files.get? p ≠ (h.mesh.stores n).files.get? p →
      RowOk nodes h n cmd src p) : CausalInv nodes (h.exec n cmd src) := by
  have hops : (h.exec n cmd src).mesh.ops = h.mesh.ops := Mesh.exec_ops_of_none hem
  have hpast : (h.exec n cmd src).past = h.past := by simp [History.exec, hem]
  have hinc : (h.exec n cmd src).inc n = fun p =>
      if ((h.mesh.stores n).exec n cmd).files.get? p = (h.mesh.stores n).files.get? p
      then h.inc n p else h.inc n p ++ src p := by
    simp [History.exec, hem]
  -- the row of `n` itself, changed or not
  have hrow : ∀ p, (h.mesh.stores n).vvAt p ≤ ((h.mesh.stores n).exec n cmd).vvAt p ∧
      h.StandsFor nodes p (((h.mesh.stores n).exec n cmd).vvAt p)
        {o | o ∈ (h.exec n cmd src).inc n p} := by
    intro p
    rw [hinc]
    by_cases hp : ((h.mesh.stores n).exec n cmd).files.get? p = (h.mesh.stores n).files.get? p
    · simp only [if_pos hp, Store.vvAt_congr hp]
      exact ⟨le_rfl, hinv.rows n p⟩
    · simp only [if_neg hp, List.mem_append]
      exact hrows p hp
  have hat : ∀ p, (h.exec n cmd src).opsAt p = h.opsAt p := fun p => by
    rw [History.opsAt, hops]
    rfl
  -- a node's own counters move with its own ops only
  have htop : ∀ p, (h.exec n cmd src).top p = h.top p := by
    intro p
    funext a
    by_cases ha : a = n
    · subst ha
      rw [History.top, History.exec_store_self]
      exact le_antisymm ((hrow p).2.le_top a hn) ((hrow p).1 a)
    · rw [History.top, h.exec_store_of_ne ha]
      rfl
  have hstands : ∀ p vv I, h.StandsFor nodes p vv I → (h.exec n cmd src).StandsFor nodes p vv I := by
    intro p vv I hI
    rwa [History.StandsFor, hat, htop]
  refine ⟨hops ▸ hinv.author, hops ▸ hinv.wellFormed, hops ▸ hinv.dot_pos, fun m o ho => ?_,
    fun m p => ?_, fun o ho p hp => ?_, fun p => ?_⟩
  · rw [hops]
    by_cases hm : m = n
    · subst hm
      rw [History.exec_store_self] at ho
      exact hlog o ho
    · rw [h.exec_store_of_ne hm] at ho
      exact hinv.oplog m o ho
  · by_cases hm : m = n
    · subst hm
      rw [History.exec_store_self]
      exact hstands _ _ _ (hrow p).2
    · rw [h.exec_store_of_ne hm, h.exec_inc_of_ne hm]
      exact hstands _ _ _ (hinv.rows m p)
  · rw [hops] at ho
    rw [History.withPast, hpast]
    exact hstands _ _ _ (hinv.ops o ho p hp)
  · rw [hat]
    exact hinv.antisymm p

/-! ### Recording an op and taking over a row -/

/-- The row absorbs a vector that stands for what it brings. -/
theorem rowOk_of_merge (hinv : CausalInv nodes h) {p : Path} (vv : VersionVector)
    (hvv : ((h.mesh.stores n).exec n cmd).vvAt p = ((h.mesh.stores n).vvAt p).merge vv)
    (hsrc : h.StandsFor nodes p vv {o | o ∈ src p}) : RowOk nodes h n cmd src p := by
  refine ⟨hvv ▸ VersionVector.le_merge_left _ _, ?_⟩
  have hsup : (((h.mesh.stores n).exec n cmd).vvAt p).get =
      ((h.mesh.stores n).vvAt p).get ⊔ vv.get := by
    funext a
    rw [hvv, VersionVector.get_merge]
    rfl
  rw [History.StandsFor, hsup]
  exact (hinv.rows n p).sup (hinv.dot_pos_at p) hsrc

theorem record (hinv : CausalInv nodes h) (hn : n ∈ nodes) {op : OpRecord} (hop : op ∈ h.mesh.ops)
    (d : Decision) : CausalInv nodes (h.step (.record n op d)) := by
  change CausalInv nodes (h.exec n (.applyRemote op d) ((Act.record n op d).brings h))
  by_cases happ : op.opId ∈ (h.mesh.stores n).applied
  · have hexec : (h.mesh.stores n).exec n (.applyRemote op d) =
        (h.mesh.stores n).advanceRecvCursor op.origin op.origin op.originSeq := by
      simp [Store.exec, Store.commit, Store.applyRemote_of_applied happ]
    refine hinv.of_quiet hn rfl (fun o ho => ?_) fun p hp => ?_
    · rw [hexec] at ho
      exact hinv.oplog n o ho
    · rw [hexec] at hp
      exact absurd rfl hp
  · obtain ⟨e, st', hrun, hlog, -, -, -, hfiles⟩ :=
      Store.applyRemote_files (hinv.wellFormed op hop) happ d
    have hexec : (h.mesh.stores n).exec n (.applyRemote op d) = st' := by
      simp [Store.exec, Store.commit, hrun]
    refine hinv.of_quiet hn rfl (fun o ho => ?_) fun p hp => ?_
    · rw [hexec, hlog, Store.mem_insertOp] at ho
      exact ho.elim (hinv.oplog n o) fun heq => heq.1 ▸ hop
    · rw [hexec] at hp
      have heff : (h.mesh.stores n).TakesEffect op d p := by
        by_contra hnot
        exact hp ((hfiles p).2 hnot)
      have haff : op.Affects p := OpRecord.affects_iff.2 (heff.1.imp And.left id)
      refine hinv.rowOk_of_merge op.vv ?_ ?_
      · rw [hexec, Store.vvAt_eq ((hfiles p).1 heff), effectRow_vv]
      · have hb : (Act.record n op d).brings h p = h.withPast p op := if_pos haff
        rw [hb]
        exact hinv.ops op hop p haff

theorem adopt (hinv : CausalInv nodes h) (hn : n ∈ nodes) (m : NodeId) (p : Path) :
    CausalInv nodes (h.step (.adopt n m p)) := by
  cases hrow : (h.mesh.stores m).loadRow p with
  | none =>
    rw [show h.step (.adopt n m p) = h by simp [History.step, Act.command, hrow]]
    exact hinv
  | some row =>
    have hstep : h.step (.adopt n m p) =
        h.exec n (.reconcileUpsert row) ((Act.adopt n m p).brings h) := by
      simp [History.step, Act.command, hrow, Act.node]
    rw [hstep]
    obtain ⟨hget, rfl⟩ := Store.loadRow_eq_some.1 hrow
    have hb : (Act.adopt n m row.path).brings h row.path = h.inc m row.path := if_pos rfl
    rcases Store.reconcileUpsert_files (h.mesh.stores n) row with heq | ⟨-, heq⟩
    · refine hinv.of_quiet hn rfl (fun o ho => ?_) fun q hq => ?_
      · rw [Store.exec, heq] at ho
        exact hinv.oplog n o ho
      · rw [Store.exec, heq] at hq
        exact absurd rfl hq
    · refine hinv.of_quiet hn rfl (fun o ho => ?_) fun q hq => ?_
      · rw [Store.exec, heq] at ho
        exact hinv.oplog n o ho
      · rw [Store.exec, heq, Store.upsertFile_files] at hq
        by_cases hqp : row.path = q
        · subst hqp
          refine hinv.rowOk_of_merge row.vv ?_ ?_
          · rw [Store.exec, heq, Store.vvAt, Store.upsertFile_files, OrdMap.get?_insert_self]
            rfl
          · rw [hb, ← Store.vvAt_eq hget]
            exact hinv.rows m row.path
        · exact absurd (OrdMap.get?_insert_of_ne _ _ hqp) hq

/-! ### Resolutions -/

/-- The winner's row stands for the log of its path, the remote side and what the row had. -/
theorem standsFor_resolved (hinv : CausalInv nodes h) {st' : Store} {path : Path}
    {remote : Version} {order : List Hash} {R : Set OpRecord}
    (hres : Store.Resolved (h.mesh.stores n) st' path remote order)
    (hremote : h.StandsFor nodes path remote.vv R) :
    h.StandsFor nodes path (st'.vvAt path)
      ({o | o ∈ h.inc n path} ∪ ({o | o ∈ h.logAt n path} ∪ R)) := by
  obtain ⟨localRow, hloc, hvv⟩ := hres.vvAt_path
  have hlocal : (h.mesh.stores n).vvAt path = localRow.vv :=
    Store.vvAt_eq (Store.loadRow_eq_some.1 hloc).1
  set cs := (h.mesh.stores n).candidates path remote localRow order with hcs
  -- the parts: the row, the remote side, and every op of the log at the path
  refine Clock.Closed.of_cover (F := {(localRow.vv.get, {o | o ∈ h.inc n path}),
    (remote.vv.get, R)} ∪ {f | ∃ o ∈ (h.mesh.stores n).oplog, o.Affects path ∧
      f = (o.vv.get, {x | x ∈ h.withPast path o})}) (hinv.dot_pos_at path) ?_ ?_ ?_ ?_
  · rintro f ((rfl | rfl) | ⟨o, ho, hp, rfl⟩)
    · exact hlocal ▸ hinv.rows n path
    · exact hremote
    · exact hinv.ops o (hinv.oplog n o ho) path hp
  · rw [hvv]
    rintro f ((rfl | rfl) | ⟨o, ho, hp, rfl⟩)
    · exact Store.row_le_mergeAll_candidates _ path remote localRow order
    · exact le_mergeAll (Store.remote_mem_candidates _ path remote localRow order)
    · exact le_mergeAll (Store.op_mem_candidates remote localRow order ho hp)
  · intro a ha
    rw [hvv] at ha ⊢
    obtain ⟨c, hc, hget⟩ := exists_get_mergeAll ha
    rcases Store.mem_candidates hc with ⟨o, ho, hp, rfl⟩ | rfl | rfl
    · exact ⟨_, .inr ⟨o, ho, hp, rfl⟩, hget.le⟩
    · exact ⟨_, .inl (.inr rfl), hget.le⟩
    · exact ⟨_, .inl (.inl rfl), hget.le⟩
  · intro x
    have hlog : x ∈ h.logAt n path ↔
        ∃ o ∈ (h.mesh.stores n).oplog, o.Affects path ∧ x ∈ h.withPast path o := by
      simp [History.logAt, and_assoc]
    constructor
    · rintro (hx | hx | hx)
      · exact ⟨_, .inl (.inl rfl), hx⟩
      · obtain ⟨o, ho, hp, hxo⟩ := hlog.1 hx
        exact ⟨_, .inr ⟨o, ho, hp, rfl⟩, hxo⟩
      · exact ⟨_, .inl (.inr rfl), hx⟩
    · rintro ⟨f, (rfl | rfl) | ⟨o, ho, hp, rfl⟩, hx⟩
      · exact .inl hx
      · exact .inr (.inr hx)
      · exact .inr (.inl (hlog.2 ⟨o, ho, hp, hx⟩))

/-- A resolution, committed or not. -/
theorem resolveRows (hinv : CausalInv nodes h) (hn : n ∈ nodes) {path : Path} {remote : Version}
    {staged : List PlannedRow} {order : List Hash} {R : List OpRecord}
    (hremote : h.StandsFor nodes path remote.vv {o | o ∈ R})
    (hpath : src path = h.logAt n path ++ R) (hcopies : ∀ q, q ≠ path → src q = [])
    (hsyn : (h.exec n (.resolveRows path remote staged order) src).SyntheticApart nodes) :
    CausalInv nodes (h.exec n (.resolveRows path remote staged order) src) := by
  rcases Store.exec_resolveRows n (h.mesh.stores n) path remote staged order with heq | hres
  · refine hinv.of_quiet hn rfl (fun o ho => ?_) fun p hp => ?_
    · rw [heq] at ho
      exact hinv.oplog n o ho
    · rw [heq] at hp
      exact absurd rfl hp
  · refine hinv.of_quiet hn rfl (fun o ho => ?_) fun p hp => ?_
    · rw [hres.oplog] at ho
      exact hinv.oplog n o ho
    · by_cases hpp : p = path
      · subst hpp
        constructor
        · obtain ⟨localRow, hloc, hvv⟩ := hres.vvAt_path
          rw [hvv, Store.vvAt_eq (Store.loadRow_eq_some.1 hloc).1]
          exact Store.row_le_mergeAll_candidates _ p remote localRow order
        · have hset : {o | o ∈ src p} = {o | o ∈ h.logAt n p} ∪ {o | o ∈ R} := by
            rw [hpath]
            ext x
            simp
          rw [hset]
          exact hinv.standsFor_resolved hres hremote
      · rcases hres.vvAt_other hpp with hsame | ⟨hcp, hsome, hle, hothers⟩
        · exact absurd hsame hp
        · refine ⟨hle, ?_⟩
          have hapart : copyOrigin p ∉ nodes := hsyn n p hcp (by rwa [History.exec_store_self])
          rw [hcopies p hpp]
          simp only [List.not_mem_nil, Set.ofPred_false, Set.union_empty]
          refine (hinv.rows n p).congr_nodes (hinv.author_at p) hle fun a ha => ?_
          exact hothers a fun heq => hapart (heq ▸ ha)

theorem resolve (hinv : CausalInv nodes h) (hn : n ∈ nodes) {op : OpRecord}
    (hop : op ∈ h.mesh.ops) {atSource : Bool} {staged : List PlannedRow} {order : List Hash}
    (hsyn : (h.step (.resolve n op atSource staged order)).SyntheticApart nodes) :
    CausalInv nodes (h.step (.resolve n op atSource staged order)) := by
  cases hc : conflictOf op atSource with
  | none =>
    rw [show h.step (.resolve n op atSource staged order) = h by
      simp [History.step, Act.command, hc]]
    exact hinv
  | some c =>
    obtain ⟨path, remote⟩ := c
    have hstep : h.step (.resolve n op atSource staged order) =
        h.exec n (.resolveRows path remote staged order)
          ((Act.resolve n op atSource staged order).brings h) := by
      simp [History.step, Act.command, hc, Act.node]
    rw [hstep] at hsyn ⊢
    obtain ⟨haff, hvv⟩ : op.Affects path ∧ remote.vv = op.vv := by
      unfold conflictOf at hc
      split_ifs at hc
      · obtain ⟨old, hold, heq⟩ := Option.map_eq_some_iff.1 hc
        cases heq
        exact ⟨.inr hold, rfl⟩
      · cases hc
        exact ⟨.inl rfl, rfl⟩
    refine hinv.resolveRows hn (R := h.withPast path op) ?_ ?_ (fun q hq => ?_) hsyn
    · rw [hvv]
      exact hinv.ops op hop path haff
    · simp [Act.brings, hc]
    · simp [Act.brings, hc, hq.symm]

theorem settle (hinv : CausalInv nodes h) (hn : n ∈ nodes) {m : NodeId} {p : Path}
    {staged : List PlannedRow} {order : List Hash}
    (hsyn : (h.step (.settle n m p staged order)).SyntheticApart nodes) :
    CausalInv nodes (h.step (.settle n m p staged order)) := by
  cases hrow : (h.mesh.stores m).loadRow p with
  | none =>
    rw [show h.step (.settle n m p staged order) = h by simp [History.step, Act.command, hrow]]
    exact hinv
  | some row =>
    have hstep : h.step (.settle n m p staged order) =
        h.exec n (.resolveRows p (Version.fromRow row.toRow) staged order)
          ((Act.settle n m p staged order).brings h) := by
      simp [History.step, Act.command, hrow, Act.node]
    rw [hstep] at hsyn ⊢
    obtain ⟨hget, rfl⟩ := Store.loadRow_eq_some.1 hrow
    refine hinv.resolveRows hn (R := h.inc m row.path) ?_ ?_ (fun q hq => ?_) hsyn
    · have hvv : (Version.fromRow row.toRow).vv = (h.mesh.stores m).vvAt row.path :=
        (Store.vvAt_eq hget).symm
      rw [hvv]
      exact hinv.rows m row.path
    · simp [Act.brings]
    · simp [Act.brings, hq]

/-! ### A new op -/

section Emission

variable {op : OpRecord}

/-- A local command emits `op`: what is known of the store before and after. -/
structure Emission (h : History) (n : NodeId) (cmd : Command) (op : OpRecord) : Prop where
  emitted : cmd.emitted n (h.mesh.stores n) = some op
  origin : op.origin = n
  oplog : ((h.mesh.stores n).exec n cmd).oplog = ((h.mesh.stores n).insertOp op).oplog
  emits : Store.Emits n (h.mesh.stores n) ((h.mesh.stores n).exec n cmd) op
  below : (h.mesh.stores n).CountersBelowMax

namespace Emission

theorem vvAt (e : Emission h n cmd op) {p : Path} (hp : op.Affects p) :
    ((h.mesh.stores n).exec n cmd).vvAt p = op.vv := by
  rw [Store.vvAt_eq (e.emits.effect p hp), effectRow_vv]

/-- The vector of the op is above the rows it affects, by its author's counter. -/
theorem row_lt (e : Emission h n cmd op) {p : Path} (hp : op.Affects p) :
    (h.mesh.stores n).vvAt p ≤ op.vv ∧ h.top p n < op.vv.get n := by
  obtain ⟨base, hvv, hle, hget, -⟩ := e.emits.base
  have hnowrap : base.get n + 1 < u64Bound := by
    obtain ⟨q, -, hbq⟩ := hget n
    rw [hbq]
    exact e.below.vvAt q n
  refine ⟨hvv ▸ (hle p hp).trans (VersionVector.lt_increment hnowrap).le, ?_⟩
  rw [hvv, VersionVector.get_increment, if_pos rfl, Nat.mod_eq_of_lt hnowrap]
  exact Nat.lt_succ_of_le (hle p hp n)

/-- At the paths it affects the new op is the one new event; elsewhere there is none. -/
theorem opsAt (e : Emission h n cmd op) (p : Path) : (h.exec n cmd src).opsAt p =
    if op.Affects p then insert op (h.opsAt p) else h.opsAt p := by
  ext x
  have hx : x ∈ (h.exec n cmd src).opsAt p ↔ (x ∈ h.mesh.ops ∨ x = op) ∧ x.Affects p :=
    and_congr_left fun _ => h.mem_exec_ops_of_some e.emitted x
  rw [hx]
  split_ifs with hp
  · constructor
    · rintro ⟨hold | rfl, hxp⟩
      · exact .inr ⟨hold, hxp⟩
      · exact .inl rfl
    · rintro (rfl | hold)
      · exact ⟨.inr rfl, hp⟩
      · exact ⟨.inl hold.1, hold.2⟩
  · exact ⟨fun hx => ⟨hx.1.resolve_right fun heq => hp (heq ▸ hx.2), hx.2⟩,
      fun hx => ⟨.inl hx.1, hx.2⟩⟩

theorem top (e : Emission h n cmd op) (p : Path) : (h.exec n cmd src).top p =
    if op.Affects p then Function.update (h.top p) n (op.vv.get n) else h.top p := by
  funext a
  by_cases ha : a = n
  · subst ha
    rw [History.top, History.exec_store_self]
    split_ifs with hp
    · rw [e.vvAt hp, Function.update_self]
    · rw [Store.vvAt_congr (e.emits.frame p hp)]
      rfl
  · rw [History.top, h.exec_store_of_ne ha]
    split_ifs with hp
    · rw [Function.update_of_ne ha]
      rfl
    · rfl

/-- What stood for a set of ops still does. -/
theorem standsFor (e : Emission h n cmd op) (hn : n ∈ nodes) {p : Path} {vv : VersionVector}
    {I : Set OpRecord} (hI : h.StandsFor nodes p vv I) :
    (h.exec n cmd src).StandsFor nodes p vv I := by
  rw [History.StandsFor, e.opsAt, e.top]
  split_ifs with hp
  · have hnew := (e.row_lt hp).2
    obtain rfl := e.origin
    exact hI.insert hn hnew
  · exact hI

/-- The vector of the op stands for what its author had, and the op. -/
theorem standsFor_op (e : Emission h n cmd op) (hinv : CausalInv nodes h) {p : Path}
    (hp : op.Affects p) (hcount : h.CountsOnlyTaken nodes n op.vv.get p) :
    (h.exec n cmd src).StandsFor nodes p op.vv (insert op {x | x ∈ h.inc n p}) := by
  rw [History.StandsFor, e.opsAt, e.top, if_pos hp, if_pos hp]
  have hle := (e.row_lt hp).1
  obtain rfl := e.origin
  refine (hinv.rows op.origin p).bump rfl (fun x hx => ?_) hle (fun a ha hne => ?_)
    fun x hx hne hle => ?_
  · exact (hinv.ops x hx.1 p hx.2).le_top _ (hinv.author x hx.1)
  · exact (hcount a ha hne).1
  · exact (hcount x.origin (hinv.author x hx.1) hne).2 x hx rfl hle

/-- No vector known before is at or above the new op: its author had not reached its counter. -/
theorem not_le (e : Emission h n cmd op) (hn : n ∈ nodes) {p : Path} (hp : op.Affects p)
    {vv : VersionVector} {I : Set OpRecord} (hI : h.StandsFor nodes p vv I) : ¬ op.vv ≤ vv :=
  fun hle => absurd ((hle n).trans (hI.le_top n hn)) (Nat.not_le.2 (e.row_lt hp).2)

/-- A new op is none of the old ones. -/
theorem notMem (e : Emission h n cmd op) (hinv : CausalInv nodes h) (hn : n ∈ nodes) :
    op ∉ h.mesh.ops := by
  intro hold
  exact e.not_le hn (.inl rfl) (hinv.ops op hold op.path (.inl rfl)) le_rfl

/-- The rows the op affects take it in, and no other row changes. -/
theorem inc (e : Emission h n cmd op) (hsrc : ∀ p, src p = []) (p : Path) :
    {o | o ∈ (h.exec n cmd src).inc n p} =
      if op.Affects p then insert op {o | o ∈ h.inc n p} else {o | o ∈ h.inc n p} := by
  have hinc : (h.exec n cmd src).inc n p = if ((h.mesh.stores n).exec n cmd).files.get? p =
      (h.mesh.stores n).files.get? p then h.inc n p else h.inc n p ++ [op] := by
    simp [History.exec, e.emitted, hsrc p]
  rw [hinc]
  by_cases hp : op.Affects p
  · have hchanged : ((h.mesh.stores n).exec n cmd).files.get? p ≠
        (h.mesh.stores n).files.get? p := by
      intro heq
      have hsame := congrArg (fun v : VersionVector => v.get n) (Store.vvAt_congr heq)
      rw [e.vvAt hp] at hsame
      exact absurd hsame (e.row_lt hp).2.ne'
    rw [if_neg hchanged, if_pos hp]
    ext x
    simp [or_comm]
  · rw [if_pos (e.emits.frame p hp), if_neg hp]

end Emission

/-- A local command that emits an op. -/
theorem emit (hinv : CausalInv nodes h) (hn : n ∈ nodes) (e : Emission h n cmd op)
    (hcount : ∀ p, op.Affects p → h.CountsOnlyTaken nodes n op.vv.get p) (hsrc : ∀ p, src p = []) :
    CausalInv nodes (h.exec n cmd src) := by
  have hmem : ∀ o, o ∈ (h.exec n cmd src).mesh.ops ↔ o ∈ h.mesh.ops ∨ o = op :=
    h.mem_exec_ops_of_some e.emitted
  refine ⟨fun o ho => ?_, fun o ho => ?_, fun o ho => ?_, fun m o ho => ?_, fun m p => ?_,
    fun o ho p hp => ?_, fun p o ho o' ho' hle hle' => ?_⟩
  · rcases (hmem o).1 ho with ho | rfl
    · exact hinv.author o ho
    · rwa [e.origin]
  · rcases (hmem o).1 ho with ho | rfl
    · exact hinv.wellFormed o ho
    · exact e.emits.wellFormed
  · rcases (hmem o).1 ho with ho | rfl
    · exact hinv.dot_pos o ho
    · rw [e.origin]
      exact Nat.zero_lt_of_lt (e.row_lt (.inl rfl)).2
  · rw [hmem]
    by_cases hm : m = n
    · subst hm
      rw [History.exec_store_self, e.oplog, Store.mem_insertOp] at ho
      exact ho.imp (hinv.oplog m o) And.left
    · rw [h.exec_store_of_ne hm] at ho
      exact .inl (hinv.oplog m o ho)
  · by_cases hm : m = n
    · subst hm
      rw [History.exec_store_self, e.inc hsrc]
      split_ifs with hp
      · rw [e.vvAt hp]
        exact e.standsFor_op hinv hp (hcount p hp)
      · rw [Store.vvAt_congr (e.emits.frame p hp)]
        exact e.standsFor hn (hinv.rows m p)
    · rw [h.exec_store_of_ne hm, h.exec_inc_of_ne hm]
      exact e.standsFor hn (hinv.rows m p)
  · rw [History.withPast, h.exec_past_of_some e.emitted]
    rcases (hmem o).1 ho with ho | rfl
    · rw [Function.update_of_ne (by rintro rfl; exact e.notMem hinv hn ho)]
      exact e.standsFor hn (hinv.ops o ho p hp)
    · rw [Function.update_self]
      have hset : {x | x ∈ o :: h.inc n p} = insert o {x | x ∈ h.inc n p} := by
        ext x
        simp
      rw [hset]
      exact e.standsFor_op hinv hp (hcount p hp)
  · rcases (hmem o).1 ho.1 with hold | rfl
    · rcases (hmem o').1 ho'.1 with hold' | rfl
      · exact hinv.antisymm p o ⟨hold, ho.2⟩ o' ⟨hold', ho'.2⟩ hle hle'
      · exact absurd hle' (e.not_le hn ho'.2 (hinv.ops o hold p ho.2))
    · rcases (hmem o').1 ho'.1 with hold' | rfl
      · exact absurd hle (e.not_le hn ho.2 (hinv.ops o' hold' p ho'.2))
      · rfl

end Emission

/-- A local command emits an op, or leaves log and rows as they are. -/
theorem emission_or_quiet (hmax : (h.mesh.stores n).CountersBelowMax)
    (hloc : (∃ change, cmd = .appendLocal change) ∨ ∃ old new, cmd = .appendLocalRename old new)
    (hing : ∀ change, cmd = .appendLocal change → change.Ingested) :
    (∃ op, Emission h n cmd op) ∨ cmd.emitted n (h.mesh.stores n) = none ∧
      ((h.mesh.stores n).exec n cmd).oplog = (h.mesh.stores n).oplog ∧
      ((h.mesh.stores n).exec n cmd).files = (h.mesh.stores n).files := by
  have hrec : cmd.received = none := by
    rcases hloc with ⟨change, rfl⟩ | ⟨old, new, rfl⟩ <;> rfl
  rcases Store.exec_log n (h.mesh.stores n) cmd with ⟨hlog, -, hem⟩ |
    ⟨op, hem, horigin, -, -, hlog, -⟩ | ⟨op, hrec', -⟩
  · exact .inr ⟨hem, hlog, Store.exec_files_of_no_op hloc hem⟩
  · exact .inl ⟨op, hem, horigin, hlog, Store.emits_of_emitted hing hem, hmax⟩
  · rw [hrec] at hrec'
    cases hrec'

/-- A local command, with or without a new op. -/
theorem localStep (hinv : CausalInv nodes h) (hn : n ∈ nodes)
    (hmax : (h.mesh.stores n).CountersBelowMax)
    (hloc : (∃ change, cmd = .appendLocal change) ∨ ∃ old new, cmd = .appendLocalRename old new)
    (hing : ∀ change, cmd = .appendLocal change → change.Ingested)
    (hcount : ∀ op, cmd.emitted n (h.mesh.stores n) = some op → ∀ p, op.Affects p →
      h.CountsOnlyTaken nodes n op.vv.get p) :
    CausalInv nodes (h.exec n cmd fun _ => []) := by
  rcases emission_or_quiet hmax hloc hing with ⟨op, e⟩ | ⟨hem, hlog, hfiles⟩
  · exact hinv.emit hn e (hcount op e.emitted) fun _ => rfl
  · refine hinv.of_quiet hn hem (fun o ho => ?_) fun p hp => ?_
    · rw [hlog] at ho
      exact hinv.oplog n o ho
    · rw [hfiles] at hp
      exact absurd rfl hp

theorem append (hinv : CausalInv nodes h) (hn : n ∈ nodes)
    (hmax : (h.mesh.stores n).CountersBelowMax) {change : LocalChange} (hing : change.Ingested) :
    CausalInv nodes (h.step (.append n change)) := by
  change CausalInv nodes (h.exec n (.appendLocal change) fun _ => [])
  refine hinv.localStep hn hmax (.inl ⟨change, rfl⟩) ?_ ?_
  · rintro _ ⟨⟩
    exact hing
  · intro op hem p hp
    refine hinv.countsOnlyTaken_row fun a ha => ?_
    have hemits := Store.emits_of_emitted (by rintro _ ⟨⟩; exact hing) hem
    obtain ⟨q, hq, hget⟩ := (hemits.get_of_ne ha).2
    rcases Store.affects_of_emitted hem hp with ⟨_, ⟨⟩, rfl⟩ | ⟨_, _, ⟨⟩, -⟩
    rcases Store.affects_of_emitted hem hq with ⟨_, ⟨⟩, rfl⟩ | ⟨_, _, ⟨⟩, -⟩
    exact hget

theorem rename (hinv : CausalInv nodes h) (hn : n ∈ nodes)
    (hmax : (h.mesh.stores n).CountersBelowMax) {old new : Path}
    (hok : h.RenameOk nodes (.rename n old new)) :
    CausalInv nodes (h.step (.rename n old new)) := by
  change CausalInv nodes (h.exec n (.appendLocalRename old new) fun _ => [])
  refine hinv.localStep hn hmax (.inr ⟨old, new, rfl⟩)
    (by rintro _ ⟨⟩) fun op hem p hp => ?_
  have hemits := Store.emits_of_emitted (by rintro _ ⟨⟩) hem
  obtain ⟨hne, hlive, haff⟩ : old ≠ new ∧
      (∃ r, (h.mesh.stores n).files.get? old = some r ∧ r.tombstone = false) ∧
      ∀ q, op.Affects q ↔ q = old ∨ q = new := by
    rcases Store.appendLocalRename_cases n (h.mesh.stores n) old new with heq |
      ⟨r, hr, hlive, hne, heq⟩
    · simp [Command.emitted, heq] at hem
    · simp only [Command.emitted, heq, Option.some.injEq] at hem
      subst hem
      refine ⟨hne, ⟨r.toRow, (Store.loadRow_eq_some.1 hr).1, by simpa using hlive⟩, fun q => ?_⟩
      simp [OpRecord.Affects, Store.renameOp, eq_comm, or_comm]
  intro a ha hane
  -- beside the author's, the counters of the op are the larger of the two rows'
  have hmaxget : op.vv.get a =
      max (((h.mesh.stores n).vvAt old).get a) (((h.mesh.stores n).vvAt new).get a) := by
    obtain ⟨hle, q, hq, hget⟩ := hemits.get_of_ne hane
    have hold := hle old ((haff old).2 (.inl rfl))
    have hnew := hle new ((haff new).2 (.inr rfl))
    rcases (haff q).1 hq with rfl | rfl <;> omega
  rw [hmaxget]
  exact hok hne hlive p ((haff p).1 hp) a ha hane

/-! ### Runs -/

theorem step (hinv : CausalInv nodes h) {act : Act} (hall : h.Allowed nodes act)
    (hok : h.RenameOk nodes act) (hsyn : (h.step act).SyntheticApart nodes) :
    CausalInv nodes (h.step act) := by
  cases act with
  | append n change => exact hinv.append hall.1 hall.2.1 hall.2.2
  | rename n old new => exact hinv.rename hall.1 hall.2.1 hok
  | record n op d => exact hinv.record hall.1 hall.2.2 d
  | resolve n op atSource staged order => exact hinv.resolve hall.1 hall.2.2 hsyn
  | adopt n m p => exact hinv.adopt hall.1 m p
  | settle n m p staged order => exact hinv.settle hall.1 hsyn

end CausalInv

namespace History

variable [Blake3] {nodes : Set NodeId} {h : History}

/-- Rows do not disappear. -/
theorem SyntheticApart.of_step {act : Act} (hall : h.Allowed nodes act)
    (hsyn : (h.step act).SyntheticApart nodes) : h.SyntheticApart nodes := by
  cases hc : act.command h with
  | none =>
    rwa [show h.step act = h by simp [step, hc]] at hsyn
  | some cmd =>
    have hmesh : (h.step act).mesh = h.mesh.exec act.node cmd := by simp [step, hc, exec]
    intro m p hcp hsome
    refine hsyn m p hcp ?_
    rw [hmesh]
    by_cases hm : m = act.node
    · subst hm
      obtain ⟨r, hr⟩ := Option.isSome_iff_exists.1 hsome
      obtain ⟨r', hr', -⟩ := Store.rowsGrow_exec act.node hall.2.1 cmd p r hr
      rw [Mesh.exec_store_self, hr']
      rfl
    · rw [Mesh.exec_store_of_ne h.mesh cmd hm]
      exact hsome

/-- In every run whose renames are sound, vectors tell what was taken in. -/
theorem causalInv_reach (hr : ((runs nodes).restrict (RenameOk nodes)).Reach {} h)
    (hsyn : h.SyntheticApart nodes) : CausalInv nodes h := by
  refine hr.invariant (I := fun h => h.SyntheticApart nodes → CausalInv nodes h)
    (fun _ => CausalInv.init) (fun h act h' _ ih hstep hsyn => ?_) hsyn
  obtain ⟨hok, hall, rfl⟩ := hstep
  exact (ih (hsyn.of_step hall)).step hall hok hsyn

end History

end Replicore
