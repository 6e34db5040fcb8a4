import Replicore.Stream.Basic

/-!
# No gap in the op stream

The receiver's cursor is a maximum, not a contiguity check.  That it nevertheless never passes over
an op follows from what is in transit: the op being handled and the frames behind it carry
consecutive numbers that end at the push loop's cursor, and everything below them is done
(`LiveInv`).  A crash forgets the transit and keeps what is done (`Link.Inv`).
-/

namespace Replicore

open Consecutive

/-! ### What commands do to the applied set and the cursors -/

namespace Store

theorem applyRemote_recvCursor {st st' : Store} {op : OpRecord} {d e : Decision}
    (h : st.applyRemote op d = .ok (e, st')) (q : NodeId) :
    st'.recvCursor q =
      if op.origin = q then max (st.recvCursor q) op.originSeq else st.recvCursor q := by
  rcases applyRemote_cases h with ⟨-, -, rfl⟩ | ⟨-, st₂, hsrc, -, rfl⟩
  · rw [recvCursor_advanceRecvCursor]
  · have hsame : (st₂.markApplied op.opId).recvCursor q = st.recvCursor q :=
      recvCursor_congr (by rw [markApplied_peerCursors, applySource_peerCursors hsrc,
        applyPrimary_peerCursors, insertOp_peerCursors]) q
    rw [recvCursor_advanceRecvCursor, hsame]

variable [Blake3]

theorem exec_applied_subset (me : NodeId) (st : Store) (cmd : Command) :
    st.applied ⊆ (st.exec me cmd).applied := by
  cases cmd with
  | appendLocal change =>
    cases h : st.appendLocal me change with
    | error e => simp [exec, commit, h]
    | ok x =>
      rcases appendLocal_cases h with ⟨-, hst, -⟩ | ⟨-, -, -, -, -, happ, -⟩
      · simp [exec, commit, h, hst]
      · simp [exec, commit, h, happ]
  | appendLocalRename old new =>
    rcases appendLocalRename_cases me st old new with h | ⟨src, -, -, -, h⟩ <;> simp [exec, h]
  | applyRemote op d =>
    cases h : st.applyRemote op d with
    | error e => simp [exec, commit, h]
    | ok x =>
      simp only [exec, commit, h]
      rcases applyRemote_cases h with ⟨-, -, hst⟩ | ⟨-, st₂, hsrc, -, hst⟩
      · simp [hst]
      · intro i hi
        rw [hst, advanceRecvCursor_applied, mem_markApplied, applySource_applied hsrc,
          applyPrimary_applied, insertOp_applied]
        exact .inl hi
  | reconcileUpsert row => simp only [exec, reconcileUpsert]; split_ifs <;> simp
  | resolveRows path remote staged order =>
    cases h : st.resolveRows path remote staged order with
    | error e => simp [exec, commit, h]
    | ok x =>
      rcases resolveRows_cases h with ⟨-, hst⟩ | ⟨-, -, localRow, -, -, hst⟩
      · simp [exec, commit, h, hst]
      · simp [exec, commit, h, hst, foldl_upsertFile_applied]

/-- Only an op of `q` moves the cursor of `q`'s ops. -/
theorem exec_recvCursor (me : NodeId) (st : Store) {cmd : Command} {q : NodeId}
    (hq : ∀ op, cmd.received = some op → op.origin ≠ q) :
    (st.exec me cmd).recvCursor q = st.recvCursor q := by
  cases cmd with
  | appendLocal change =>
    cases h : st.appendLocal me change with
    | error e => simp [exec, commit, h]
    | ok x =>
      simp only [exec, commit, h]
      rcases appendLocal_cases h with ⟨-, hst, -⟩ | ⟨-, -, -, -, -, -, hcur⟩
      · rw [hst]
      · exact recvCursor_congr hcur q
  | appendLocalRename old new =>
    rcases appendLocalRename_cases me st old new with h | ⟨src, -, -, -, h⟩
    · simp [exec, h]
    · exact recvCursor_congr (by simp [exec, h]) q
  | applyRemote op d =>
    cases h : st.applyRemote op d with
    | error e => simp [exec, commit, h]
    | ok x =>
      simp only [exec, commit, h]
      rw [applyRemote_recvCursor h, if_neg (hq op rfl)]
  | reconcileUpsert row => simp only [exec, reconcileUpsert]; split_ifs <;> rfl
  | resolveRows path remote staged order =>
    cases h : st.resolveRows path remote staged order with
    | error e => simp [exec, commit, h]
    | ok x =>
      simp only [exec, commit, h]
      rcases resolveRows_cases h with ⟨-, hst⟩ | ⟨-, -, localRow, -, -, hst⟩
      · rw [hst]
      · exact recvCursor_congr (by rw [hst, foldl_upsertFile_peerCursors]) q

/-- A command only extends the own entries of the log. -/
theorem ownOps_exec (me q : NodeId) (st : Store) (cmd : Command) :
    ∃ added, (st.exec me cmd).ownOps q = st.ownOps q ++ added := by
  have hins : ∀ op, ∃ added, (st.insertOp op).ownOps q = st.ownOps q ++ added := by
    intro op
    unfold insertOp
    split_ifs
    · exact ⟨[], by simp⟩
    · exact ⟨[op].filter (·.origin = q), by simp [ownOps, List.filter_append]⟩
  rcases exec_log me st cmd with ⟨hlog, -⟩ | ⟨op, -, -, -, -, hlog, -⟩ | ⟨op, -, -, hlog, -⟩
  · exact ⟨[], by rw [ownOps, hlog, List.append_nil]; rfl⟩
  · exact (hins op).imp fun added h => by rw [ownOps, hlog]; exact h
  · exact (hins op).imp fun added h => by rw [ownOps, hlog]; exact h

end Store

namespace Link

/-! ### The invariant -/

/-- Every one of the sender's ops up to `c` was recorded, or came with an adopted frontier. -/
def Done (own : List OpRecord) (applied : List Hash) (adopted c : ℤ) : Prop :=
  ∀ o ∈ own, o.originSeq ≤ c → o.opId ∈ applied ∨ o.originSeq ≤ adopted

/-- What was pushed and is not yet acknowledged, oldest first. -/
def transit (c : Conn) : List OpRecord := (c.handling.map Prod.fst).toList ++ c.inFlight

/-- The live session of a sender with the own ops `own`, to a receiver that applied `applied`. -/
structure LiveInv (own : List OpRecord) (applied : List Hash) (adopted : ℤ) (pushed : List ℤ)
    (c : Conn) : Prop where
  nonneg : 0 ≤ c.resume
  pushed_eq : pushed = after c.resume pushed.length
  cursor_eq : c.cursor = c.resume + pushed.length
  cursor_le : c.cursor ≤ own.length
  page_eq : c.page.map (·.originSeq) = after c.cursor c.page.length
  page_mem : ∀ o ∈ c.page, o ∈ own
  transit_eq : (transit c).map (·.originSeq) =
    after (c.cursor - (transit c).length) (transit c).length
  transit_mem : ∀ o ∈ transit c, o ∈ own
  done : Done own applied adopted (c.cursor - (transit c).length)
  committed : ∀ op, c.handling = some (op, true) → op.opId ∈ applied

/-- What holds of a session in the gate or live. -/
def SessionInv (own : List OpRecord) (applied : List Hash) (adopted : ℤ) (pushed : List ℤ)
    (recvCursor : ℤ) : Session → Prop
  | .down => True
  | .gate resumeFrom frontier => 0 ≤ resumeFrom ∧ resumeFrom ≤ recvCursor ∧
      ∀ f, frontier = some f → 0 ≤ f ∧ f ≤ own.length
  | .live c => LiveInv own applied adopted pushed c

/-- What holds on a link from `p`. -/
structure Inv (p : NodeId) (l : Link) : Prop where
  numbered : (l.sender.ownOps p).map (·.originSeq) = after 0 (l.sender.ownOps p).length
  nonneg : 0 ≤ l.receiver.recvCursor p
  cursor_le : l.receiver.recvCursor p ≤ (l.sender.ownOps p).length
  done : Done (l.sender.ownOps p) l.receiver.applied l.adopted (l.receiver.recvCursor p)
  session : SessionInv (l.sender.ownOps p) l.receiver.applied l.adopted l.pushed
    (l.receiver.recvCursor p) l.session

section

variable {own own' added : List OpRecord} {applied applied' : List Hash} {adopted adopted' : ℤ}
  {pushed : List ℤ} {rc rc' : ℤ} {c : Conn}

theorem Done.mono {x : ℤ} (h : Done own applied adopted x) (happ : applied ⊆ applied')
    (hadopt : adopted ≤ adopted') : Done own applied' adopted' x := fun o ho hle =>
  (h o ho hle).imp (fun hi => happ hi) fun hi => hi.trans hadopt

theorem Done.of_le {x y : ℤ} (h : Done own applied adopted x) (hyx : y ≤ x) :
    Done own applied adopted y := fun o ho hle => h o ho (hle.trans hyx)

theorem Done.max {x y : ℤ} (hx : Done own applied adopted x) (hy : Done own applied adopted y) :
    Done own applied adopted (max x y) := fun o ho hle =>
  (le_max_iff.1 hle).elim (hx o ho) (hy o ho)

theorem Done.of_adopted {x : ℤ} (h : x ≤ adopted) : Done own applied adopted x := fun _ _ hle =>
  .inr (hle.trans h)

/-- New ops of the sender are numbered after the ones it has. -/
theorem lt_of_mem_added {n : ℕ} (hnum : (own ++ added).map (·.originSeq) = after 0 n)
    {o : OpRecord} (ho : o ∈ added) : (own.length : ℤ) < o.originSeq := by
  have hmem : o.originSeq ∈ ((own ++ added).map (·.originSeq)).drop own.length := by
    rw [List.map_append, List.drop_left' (by simp)]
    exact List.mem_map_of_mem (f := (·.originSeq)) ho
  rw [hnum, drop_after] at hmem
  have := (mem_after.1 hmem).1
  omega

theorem Done.extend {n : ℕ} {x : ℤ} (h : Done own applied adopted x)
    (hnum : (own ++ added).map (·.originSeq) = after 0 n) (hx : x ≤ own.length) :
    Done (own ++ added) applied adopted x := by
  intro o ho hle
  rcases List.mem_append.1 ho with ho | ho
  · exact h o ho hle
  · have := lt_of_mem_added hnum ho
    omega

theorem LiveInv.mono (h : LiveInv own applied adopted pushed c) (happ : applied ⊆ applied') :
    LiveInv own applied' adopted pushed c :=
  { h with
    done := h.done.mono happ le_rfl
    committed := fun op hop => happ (h.committed op hop) }

theorem LiveInv.extend {n : ℕ} (h : LiveInv own applied adopted pushed c)
    (hnum : (own ++ added).map (·.originSeq) = after 0 n) :
    LiveInv (own ++ added) applied adopted pushed c :=
  { h with
    cursor_le := by have := h.cursor_le; rw [List.length_append]; omega
    page_mem := fun o ho => List.mem_append_left _ (h.page_mem o ho)
    transit_mem := fun o ho => List.mem_append_left _ (h.transit_mem o ho)
    done := h.done.extend hnum (by have := h.cursor_le; omega) }

/-! ### The session, event by event -/

theorem LiveInv.cursor_nonneg (h : LiveInv own applied adopted pushed c) : 0 ≤ c.cursor := by
  have := h.nonneg
  have := h.cursor_eq
  omega

/-- A page starts right after the cursor. -/
theorem LiveInv.poll (h : LiveInv own applied adopted pushed c)
    (hnum : own.map (·.originSeq) = after 0 own.length) (k : ℕ) :
    LiveInv own applied adopted pushed
      { c with page := (own.drop c.cursor.toNat).take k } := by
  have hcur : ((c.cursor.toNat : ℕ) : ℤ) = c.cursor := Int.toNat_of_nonneg h.cursor_nonneg
  have hpage := map_take_drop hnum c.cursor.toNat k
  refine { h with page_eq := ?_, page_mem := fun o ho => ?_ }
  · have hlen := congrArg List.length hpage
    rw [List.length_map, length_after] at hlen
    change _ = after c.cursor _
    rw [hlen, hpage, hcur]
  · exact List.mem_of_mem_drop (List.mem_of_mem_take ho)

/-- Pushing an op moves the cursor by one and puts the op last in transit. -/
theorem LiveInv.push (h : LiveInv own applied adopted pushed c) {op : OpRecord}
    {page : List OpRecord} (hp : c.page = op :: page)
    (hnum : own.map (·.originSeq) = after 0 own.length) :
    LiveInv own applied adopted (pushed ++ [op.originSeq])
      { c with page, cursor := op.originSeq, inFlight := c.inFlight ++ [op] } := by
  have hpage := h.page_eq
  rw [hp, List.map_cons, List.length_cons, after, List.cons.injEq] at hpage
  obtain ⟨hop, hrest⟩ := hpage
  have hcursor := h.cursor_eq
  have hmem : op ∈ own := h.page_mem op (by simp [hp])
  have htransit : transit { c with page, cursor := op.originSeq, inFlight := c.inFlight ++ [op] } =
      transit c ++ [op] := by simp [transit]
  have hlen : ((transit c ++ [op]).length : ℤ) = (transit c).length + 1 := by simp
  have hlow : op.originSeq - ((transit c ++ [op]).length : ℤ) = c.cursor - (transit c).length := by
    omega
  refine
    { nonneg := h.nonneg, pushed_eq := ?_, cursor_eq := ?_, cursor_le := ?_, page_eq := ?_,
      page_mem := fun o ho => h.page_mem o (by rw [hp]; exact List.mem_cons_of_mem _ ho),
      transit_eq := ?_, transit_mem := ?_, done := ?_, committed := h.committed }
  · have hlast : op.originSeq = c.resume + pushed.length + 1 := by omega
    change _ = after c.resume _
    rw [List.length_append, List.length_singleton, ← after_append_one, ← h.pushed_eq, hlast]
  · change op.originSeq = c.resume + _
    rw [List.length_append, List.length_singleton]
    omega
  · have hin : op.originSeq ∈ own.map (·.originSeq) := List.mem_map_of_mem hmem
    rw [hnum] at hin
    have := (mem_after.1 hin).2
    change op.originSeq ≤ _
    omega
  · change _ = after op.originSeq _
    rw [hop]
    exact hrest
  · rw [htransit]
    change _ = after (op.originSeq - ((transit c ++ [op]).length : ℤ)) _
    have hlast : op.originSeq = c.cursor - (transit c).length + (transit c).length + 1 := by omega
    rw [hlow, List.map_append, h.transit_eq, List.length_append, List.length_singleton,
      ← after_append_one, List.map_singleton, ← hlast]
  · rw [htransit]
    intro o ho
    rcases List.mem_append.1 ho with ho | ho
    · exact h.transit_mem o ho
    · rw [List.mem_singleton.1 ho]
      exact hmem
  · rw [htransit]
    change Done own applied adopted (op.originSeq - ((transit c ++ [op]).length : ℤ))
    rw [hlow]
    exact h.done

/-- Taking a frame up leaves the transit as it is. -/
theorem LiveInv.receive (h : LiveInv own applied adopted pushed c) {op : OpRecord}
    {inFlight : List OpRecord} (hh : c.handling = none) (hf : c.inFlight = op :: inFlight) :
    LiveInv own applied adopted pushed { c with inFlight, handling := some (op, false) } := by
  have htransit : transit { c with inFlight, handling := some (op, false) } = transit c := by
    simp [transit, hh, hf]
  refine { h with transit_eq := ?_, transit_mem := ?_, done := ?_, committed := ?_ }
  · rw [htransit]; exact h.transit_eq
  · rw [htransit]; exact h.transit_mem
  · rw [htransit]; exact h.done
  · intro op' hop'
    simp at hop'

theorem LiveInv.commit (h : LiveInv own applied adopted pushed c) {op : OpRecord}
    (hh : c.handling = some (op, false)) (hop : op.opId ∈ applied) :
    LiveInv own applied adopted pushed { c with handling := some (op, true) } := by
  have htransit : transit { c with handling := some (op, true) } = transit c := by
    simp [transit, hh]
  refine { h with transit_eq := ?_, transit_mem := ?_, done := ?_, committed := ?_ }
  · rw [htransit]; exact h.transit_eq
  · rw [htransit]; exact h.transit_mem
  · rw [htransit]; exact h.done
  · intro op' hop'
    simp only [Option.some.injEq, Prod.mk.injEq, and_true] at hop'
    exact hop' ▸ hop

/-- The op being handled is the first one that is not done. -/
theorem LiveInv.handling_eq (h : LiveInv own applied adopted pushed c) {op : OpRecord} {b : Bool}
    (hh : c.handling = some (op, b)) :
    op ∈ own ∧ op.originSeq = c.cursor - (transit c).length + 1 ∧
      c.inFlight.map (·.originSeq) = after op.originSeq c.inFlight.length := by
  have htransit : transit c = op :: c.inFlight := by simp [transit, hh]
  have heq := h.transit_eq
  rw [htransit, List.map_cons, List.length_cons, after, List.cons.injEq] at heq
  refine ⟨h.transit_mem op (by simp [htransit]), ?_, ?_⟩
  · rw [htransit, List.length_cons]
    exact heq.1
  · rw [heq.1]
    exact heq.2

/-- Once the op being handled is recorded, everything up to it is done. -/
theorem LiveInv.done_handling (h : LiveInv own applied adopted pushed c) {op : OpRecord} {b : Bool}
    (hh : c.handling = some (op, b)) (hop : op.opId ∈ applied)
    (hnum : own.map (·.originSeq) = after 0 own.length) :
    Done own applied adopted op.originSeq := by
  obtain ⟨hmem, hseq, -⟩ := h.handling_eq hh
  intro o ho hle
  by_cases hlt : o.originSeq ≤ c.cursor - (transit c).length
  · exact h.done o ho hlt
  · have heq : o = op := eq_of_originSeq_eq hnum ho hmem (by omega)
    exact .inl (heq ▸ hop)

theorem LiveInv.ack (h : LiveInv own applied adopted pushed c) {op : OpRecord} {b : Bool}
    (hh : c.handling = some (op, b)) (hop : op.opId ∈ applied)
    (hnum : own.map (·.originSeq) = after 0 own.length) (acks : List ℤ) :
    LiveInv own applied adopted pushed { c with handling := none, acks } := by
  obtain ⟨hmem, hseq, hrest⟩ := h.handling_eq hh
  have htransit : transit c = op :: c.inFlight := by simp [transit, hh]
  have htransit' : transit { c with handling := none, acks } = c.inFlight := by simp [transit]
  have hlow : c.cursor - (c.inFlight.length : ℤ) = op.originSeq := by
    have hlen : ((transit c).length : ℤ) = c.inFlight.length + 1 := by simp [htransit]
    omega
  refine { h with transit_eq := ?_, transit_mem := ?_, done := ?_, committed := ?_ }
  · rw [htransit']
    change _ = after (c.cursor - (c.inFlight.length : ℤ)) _
    rw [hlow]
    exact hrest
  · rw [htransit']
    exact fun o ho => h.transit_mem o (by rw [htransit]; exact List.mem_cons_of_mem _ ho)
  · rw [htransit']
    change Done own applied adopted (c.cursor - (c.inFlight.length : ℤ))
    rw [hlow]
    exact h.done_handling hh hop hnum
  · intro op' hop'
    simp at hop'

end

/-! ### One event keeps the invariant -/

variable {p me : NodeId} {l : Link}

theorem inv_init : Inv p {} where
  numbered := rfl
  nonneg := le_rfl
  cursor_le := le_rfl
  done := by intro o ho; simp [Store.ownOps] at ho
  session := trivial

/-- The receiver's store changed, with no op forgotten and the cursor where it was. -/
theorem Inv.receiver (h : Inv p l) {st : Store} (happ : l.receiver.applied ⊆ st.applied)
    (hcur : st.recvCursor p = l.receiver.recvCursor p) {effects : List (OpRecord × Path)} :
    Inv p { l with receiver := st, effects } := by
  refine ⟨h.numbered, hcur ▸ h.nonneg, hcur ▸ h.cursor_le, ?_, ?_⟩
  · change Done _ st.applied _ (st.recvCursor p)
    rw [hcur]
    exact h.done.mono happ le_rfl
  · have hs := h.session
    change SessionInv _ st.applied _ _ (st.recvCursor p) l.session
    rw [hcur]
    cases hsess : l.session with
    | down => trivial
    | gate r f => rw [hsess] at hs; exact hs
    | live c => rw [hsess] at hs; exact LiveInv.mono hs happ

theorem Inv.of_live (h : Inv p l) {c : Conn} (hs : l.session = .live c) :
    LiveInv (l.sender.ownOps p) l.receiver.applied l.adopted l.pushed c := by
  have hsession := h.session
  rwa [hs] at hsession

theorem Inv.disconnect (h : Inv p l) : Inv p { l with session := .down } :=
  ⟨h.numbered, h.nonneg, h.cursor_le, h.done, trivial⟩

theorem Inv.snapshot (h : Inv p l) {r : ℤ} (hs : l.session = .gate r none) :
    Inv p { l with session := .gate r (some (l.sender.latestOriginSeq p)) } := by
  have hgate := h.session
  rw [hs] at hgate
  refine ⟨h.numbered, h.nonneg, h.cursor_le, h.done, hgate.1, hgate.2.1, fun f hf => ?_⟩
  rw [← Option.some_injective _ hf, Store.latestOriginSeq_eq h.numbered]
  exact ⟨by omega, le_rfl⟩

/-- A new session starts at a point below which everything is done, with nothing in transit. -/
theorem liveInv_start {own : List OpRecord} {applied : List Hash} {adopted x : ℤ} (h₀ : 0 ≤ x)
    (hx : x ≤ own.length) (hdone : Done own applied adopted x) :
    LiveInv own applied adopted [] { resume := x, cursor := x } where
  nonneg := h₀
  pushed_eq := rfl
  cursor_eq := by simp
  cursor_le := hx
  page_eq := rfl
  page_mem := by simp
  transit_eq := rfl
  transit_mem := by simp [transit]
  done := by simpa [transit] using hdone
  committed := by simp

/-- A recorded op is applied, and its number is taken into the cursor. -/
theorem applyRemote_applied {st st' : Store} {op : OpRecord} {d e : Decision}
    (h : st.applyRemote op d = .ok (e, st')) :
    op.opId ∈ st'.applied ∧ st.applied ⊆ st'.applied := by
  rcases Store.applyRemote_cases h with ⟨happ, -, rfl⟩ | ⟨-, st₂, hsrc, -, rfl⟩
  · exact ⟨happ, List.Subset.refl _⟩
  · rw [Store.advanceRecvCursor_applied]
    refine ⟨(Store.mem_markApplied _ _).2 (.inr rfl), fun i hi => ?_⟩
    rw [Store.mem_markApplied, Store.applySource_applied hsrc, Store.applyPrimary_applied,
      Store.insertOp_applied]
    exact .inl hi

theorem Inv.commit (h : Inv p l) {c : Conn} (hs : l.session = .live c) {op : OpRecord}
    (hh : c.handling = some (op, false)) {d e : Decision} {st : Store}
    (hst : l.receiver.applyRemote op d = .ok (e, st)) {effects : List (OpRecord × Path)}
    {mutating : List Hash} :
    Inv p { l with
      receiver := st, effects, mutating, session := .live { c with handling := some (op, true) } } := by
  have hlive := h.of_live hs
  obtain ⟨hop, hsub⟩ := applyRemote_applied hst
  have hlive' := hlive.mono hsub
  obtain ⟨hmem, hseq, -⟩ := hlive.handling_eq hh
  have horigin : op.origin = p := by
    simpa [Store.ownOps] using (List.mem_filter.1 hmem).2
  have hcur : st.recvCursor p = max (l.receiver.recvCursor p) op.originSeq := by
    rw [Store.applyRemote_recvCursor hst, if_pos horigin]
  have hin : op.originSeq ∈ after 0 (l.sender.ownOps p).length :=
    h.numbered ▸ List.mem_map_of_mem (f := (·.originSeq)) hmem
  have hle := (mem_after.1 hin).2
  have hcl := h.cursor_le
  have hnn := h.nonneg
  refine ⟨h.numbered, ?_, ?_, ?_, hlive'.commit hh hop⟩
  · change 0 ≤ st.recvCursor p
    omega
  · change st.recvCursor p ≤ (l.sender.ownOps p).length
    rw [hcur]
    exact max_le hcl (by omega)
  · change Done _ st.applied _ (st.recvCursor p)
    rw [hcur]
    exact (h.done.mono hsub le_rfl).max (hlive'.done_handling hh hop h.numbered)

/-- Within a session, an event that leaves the stores alone keeps the invariant if the session's own
part is kept. -/
theorem Inv.live (h : Inv p l) {c : Conn} {pushed : List ℤ}
    (hc : LiveInv (l.sender.ownOps p) l.receiver.applied l.adopted pushed c) :
    Inv p { l with session := .live c, pushed } :=
  ⟨h.numbered, h.nonneg, h.cursor_le, h.done, hc⟩

variable [Blake3]

theorem Inv.atSender (h : Inv p l) {cmd : Command} {n : ℕ}
    (hnum : ((l.sender.exec p cmd).ownOps p).map (·.originSeq) = after 0 n) :
    Inv p { l with sender := l.sender.exec p cmd } := by
  obtain ⟨added, hadd⟩ := Store.ownOps_exec p p l.sender cmd
  have hlen : n = ((l.sender.exec p cmd).ownOps p).length := by
    have := congrArg List.length hnum
    rw [List.length_map, length_after] at this
    exact this.symm
  have hnum' := hnum
  rw [hadd] at hnum'
  refine ⟨hlen ▸ hnum, h.nonneg, ?_, ?_, ?_⟩
  · have := h.cursor_le
    change l.receiver.recvCursor p ≤ (Store.ownOps (l.sender.exec p cmd) p).length
    rw [hadd, List.length_append]
    omega
  · change Done (Store.ownOps (l.sender.exec p cmd) p) _ _ _
    rw [hadd]
    exact h.done.extend hnum' h.cursor_le
  · have hs := h.session
    change SessionInv (Store.ownOps (l.sender.exec p cmd) p) _ _ _ _ l.session
    rw [hadd]
    cases hsess : l.session with
    | down => trivial
    | gate r f =>
      rw [hsess] at hs
      refine ⟨hs.1, hs.2.1, fun f' hf' => ?_⟩
      have := hs.2.2 f' hf'
      rw [List.length_append]
      omega
    | live c =>
      rw [hsess] at hs
      exact LiveInv.extend hs hnum'

theorem Inv.handoff (h : Inv p l) {r f : ℤ} (hs : l.session = .gate r (some f)) :
    Inv p (step p me l .handoff) := by
  have hgate := h.session
  rw [hs] at hgate
  obtain ⟨hr₀, hr, hf⟩ := hgate
  obtain ⟨hf₀, hfn⟩ := hf f rfl
  have hcl := h.cursor_le
  have hnn := h.nonneg
  simp only [step, hs]
  -- the cursor ends up at the larger of what it was and the frontier
  have hcur : (if r < max f r then l.receiver.advanceRecvCursor p p (max f r)
      else l.receiver).recvCursor p = max (l.receiver.recvCursor p) f := by
    split_ifs with hlt
    · rw [Store.recvCursor_advanceRecvCursor, if_pos rfl]
      omega
    · omega
  have happ : (if r < max f r then l.receiver.advanceRecvCursor p p (max f r)
      else l.receiver).applied = l.receiver.applied := by
    split_ifs <;> rfl
  set adopted := if r < max f r then max l.adopted (max f r) else l.adopted with hadopted
  have hdone : Done (l.sender.ownOps p) l.receiver.applied adopted (l.receiver.recvCursor p) := by
    refine h.done.mono (List.Subset.refl _) ?_
    rw [hadopted]
    split_ifs
    · exact le_max_left _ _
    · exact le_rfl
  -- the frontier is adopted, or at or below the resume point
  have hadopt : Done (l.sender.ownOps p) l.receiver.applied adopted f := by
    by_cases hlt : r < max f r
    · refine Done.of_adopted ?_
      rw [hadopted, if_pos hlt]
      omega
    · exact hdone.of_le (by omega)
  refine ⟨h.numbered, ?_, ?_, ?_, ?_⟩
  · rw [hcur]; omega
  · rw [hcur]; exact max_le hcl hfn
  · rw [hcur, happ]
    exact hdone.max hadopt
  · simp only [SessionInv]
    rw [happ]
    exact liveInv_start (by omega) (by omega) (hadopt.max (hdone.of_le hr))

theorem Inv.liveStep (h : Inv p l) {c : Conn} (hs : l.session = .live c) (e : Event) :
    Inv p (l.liveStep p me c e) := by
  have hlive := h.of_live hs
  cases e with
  | poll =>
    simp only [Link.liveStep]
    split_ifs
    · rw [Store.opsSince_eq h.numbered]
      exact h.live (hlive.poll h.numbered pushBatch)
    · exact h
  | push =>
    simp only [Link.liveStep]
    split
    · exact h
    · rename_i op page hp
      exact h.live (hlive.push hp h.numbered)
  | receive =>
    simp only [Link.liveStep]
    split
    · rename_i op inFlight hh hf
      split_ifs
      · exact h.live (hlive.receive hh hf)
      · exact h.disconnect
    · exact h
  | resolve atSource staged order =>
    simp only [Link.liveStep]
    split
    · split
      · refine h.receiver (Store.exec_applied_subset me _ _) (Store.exec_recvCursor me _ ?_)
        intro op hop
        cases hop
      · exact h
    · exact h
  | commit d =>
    simp only [Link.liveStep]
    split
    · rename_i op hh
      split
      · rename_i e st hst
        exact h.commit hs hh hst
      · exact h.disconnect
    · exact h
  | ack =>
    simp only [Link.liveStep]
    split
    · rename_i op committed hh
      split_ifs with hdone
      · have hop : op.opId ∈ l.receiver.applied := by
          rcases Bool.or_eq_true _ _ ▸ hdone with hc | ha
          · exact hlive.committed op (by rw [hh, hc])
          · simpa [Store.hasApplied] using ha
        exact h.live (hlive.ack hh hop h.numbered _)
      · exact h
    · exact h
  | absorbAck =>
    simp only [Link.liveStep]
    split
    · exact h
    · split_ifs
      · exact h.disconnect
      · exact ⟨h.numbered, h.nonneg, h.cursor_le, h.done, { hlive with }⟩
  | _ => exact h

theorem Inv.step (h : Inv p l) {e : Event} (hok : Ok p l e) : Inv p (Link.step p me l e) := by
  cases e with
  | atSender cmd =>
    obtain ⟨n, hn⟩ := hok
    exact h.atSender hn
  | atReceiver cmd =>
    exact h.receiver (Store.exec_applied_subset me _ _) (Store.exec_recvCursor me _ hok)
  | disconnect => exact h.disconnect
  | dial =>
    cases hs : l.session with
    | down =>
      simp only [Link.step, hs]
      exact ⟨h.numbered, h.nonneg, h.cursor_le, h.done, h.nonneg, le_rfl, by simp⟩
    | gate r f => simpa only [Link.step, hs] using h
    | live c => simpa only [Link.step, hs] using h.liveStep hs .dial
  | snapshot =>
    cases hs : l.session with
    | down => simpa only [Link.step, hs] using h
    | gate r f =>
      cases f with
      | none => simpa only [Link.step, hs] using h.snapshot hs
      | some f => simpa only [Link.step, hs] using h
    | live c => simpa only [Link.step, hs] using h.liveStep hs .snapshot
  | handoff =>
    cases hs : l.session with
    | down => simpa only [Link.step, hs] using h
    | gate r f =>
      cases f with
      | none => simpa only [Link.step, hs] using h
      | some f => exact h.handoff hs
    | live c => simpa only [Link.step, hs] using h.liveStep hs .handoff
  | _ =>
    cases hs : l.session with
    | down => simpa only [Link.step, hs] using h
    | gate r f => simpa only [Link.step, hs] using h
    | live c => simpa only [Link.step, hs] using h.liveStep hs _

theorem inv_reach (h : (stream p me).Reach {} l) : Inv p l := by
  refine h.invariant inv_init fun l e l' _ ih hstep => ?_
  obtain ⟨hok, rfl⟩ := hstep
  exact ih.step hok

end Link

end Replicore
