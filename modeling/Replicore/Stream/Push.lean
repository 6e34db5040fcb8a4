import Replicore.Proto.Wire
import Replicore.Store.Cursors
import Replicore.Store.Effects
import Replicore.Store.OpLog
import Replicore.Stream.Basic

/-!
# Pushing the own log

`push_ops` of `net.rs` on one connection: it reads the own ops after its cursor a batch at a time
and writes a frame for each.  A frame that cannot be written ends the connection; the next one
begins at the resume point that the subscriber names then.

What has been pushed and the batch are the first own ops beyond the resume point (`Pushes.split`).
Nothing on the way into the log bounds the length of an op: its frame adds up all the parts that
were captured (`Command.pushLen`).  As long as every op that is accepted fits into a frame, each is
pushed; one that does not stays in the way of all later ones, on every connection that begins
before it (`every_op_pushable_iff`).
-/

namespace Replicore

open Bytes

/-- The push loop of one connection. -/
structure PushLoop where
  /-- Where the connection began. -/
  resume : ℤ
  cursor : ℤ := resume
  /-- The rest of the batch. -/
  page : List OpRecord := []
  /-- The ops whose frame was written. -/
  pushed : List OpRecord := []
  /-- What ended the connection. -/
  error : Option ProtoError := none

/-- One turn of the loop: read a batch, or write a frame. -/
def PushLoop.turn (me : NodeId) (st : Store) (s : PushLoop) : PushLoop :=
  match s.error, s.page with
  | some _, _ => s
  | none, [] => { s with page := st.opsSince me s.cursor pushBatch }
  | none, op :: page =>
    match writeMsg frameCodec (.oplogPush op) with
    | .ok _ => { s with cursor := op.originSeq, page, pushed := s.pushed ++ [op] }
    | .error e => { s with cursor := op.originSeq, page := [], error := some e }

/-- The store, and the push loop of a subscriber. -/
structure PushState where
  store : Store := {}
  loop : PushLoop := { resume := 0 }

namespace PushState

/-- What can happen. -/
inductive Event
  | command (cmd : Command)
  /-- A new connection from a resume point. -/
  | subscribe (resume : ℤ)
  | turn

variable [Blake3]

def step (me : NodeId) (s : PushState) : Event → PushState
  | .command cmd => { s with store := s.store.exec me cmd }
  | .subscribe resume => { s with loop := { resume } }
  | .turn => { s with loop := s.loop.turn me s.store }

/-- Commands are admitted as on the wire. -/
def Ok (me : NodeId) (_ : PushState) : Event → Prop
  | .command cmd => cmd.Admitted me
  | _ => True

/-- The runs of the push loops of node `me`. -/
def pushing (me : NodeId) : Lts PushState Event := .ofFun (Ok me) (step me)

end PushState

/-- Bytes of the frame of the op that a local command becomes: of the change, and of what the tables
hold for its path. -/
def Command.pushLen (me : NodeId) (st : Store) : Command → ℕ
  | .appendLocal change =>
    oplogPushLen (st.latestOriginSeq me + 1) change.path none change.mode change.size
      change.contentHash change.metadata
      ((((st.loadRow change.path).map (·.vv)).getD VersionVector.new).increment me)
  | .appendLocalRename old new =>
    match st.loadRow old with
    | none => 0
    | some src =>
      oplogPushLen (st.latestOriginSeq me + 1) new (some old) src.mode src.size src.contentHash
        src.metadata
        ((((st.loadRow new).map fun dst => src.vv.merge dst.vv).getD src.vv).increment me)
  | _ => 0

/-- The command is refused, changes nothing, or brings an op that fits into a frame. -/
def Command.Pushable [Blake3] (me : NodeId) (st : Store) (cmd : Command) : Prop :=
  cmd.emitted me st ≠ none → cmd.pushLen me st ≤ maxFrame

/-! ### The op of a command -/

section

variable [Blake3] {me : NodeId} {st : Store}

/-- What the frame of the op of a command comes to. -/
theorem fits_emitted {cmd : Command} {op : OpRecord} (h : cmd.emitted me st = some op) :
    frameCodec.Fits (.oplogPush op) ↔ cmd.pushLen me st ≤ maxFrame := by
  cases cmd with
  | appendLocal change =>
    obtain rfl := Store.emitted_appendLocal h
    exact fits_oplogPush rfl
  | appendLocalRename old new =>
    rcases Store.appendLocalRename_cases me st old new with hnone | ⟨src, hsrc, -, -, hsome⟩
    · rw [Command.emitted, hnone] at h
      cases h
    · rw [Command.emitted, hsome] at h
      cases h
      rw [fits_oplogPush rfl, Command.pushLen, hsrc]
      cases hdst : st.loadRow new <;> simp only [Store.renameOp, hdst] <;> rfl
  | applyRemote op' d => cases h
  | reconcileUpsert row => cases h
  | resolveRows path remote staged order => cases h

/-- A command leaves the own ops alone, or appends the op it returns under a larger number. -/
theorem ownOps_exec (st : Store) {cmd : Command} (hadm : cmd.Admitted me) :
    (st.exec me cmd).ownOps me = st.ownOps me ∨
      ∃ op, cmd.emitted me st = some op ∧ (st.exec me cmd).ownOps me = st.ownOps me ++ [op] ∧
        ∀ o ∈ st.ownOps me, o.originSeq < op.originSeq := by
  have hinsert : ∀ op : OpRecord, (st.insertOp op).ownOps me = st.ownOps me ∨
      op.origin = me ∧ (st.insertOp op).ownOps me = st.ownOps me ++ [op] := by
    intro op
    by_cases hdup : st.oplog.any fun o => o.opId = op.opId
    · exact .inl (by rw [Store.insertOp, if_pos hdup])
    · rw [Store.insertOp, if_neg hdup]
      by_cases horigin : op.origin = me
      · exact .inr ⟨horigin, by simp [Store.ownOps, List.filter_append, horigin]⟩
      · exact .inl (by simp [Store.ownOps, List.filter_append, horigin])
  have hown : ∀ {op : OpRecord}, (st.exec me cmd).oplog = (st.insertOp op).oplog →
      (st.exec me cmd).ownOps me = (st.insertOp op).ownOps me := fun hlog => by
    rw [Store.ownOps, hlog]
    rfl
  rcases Store.exec_log me st cmd with ⟨hlog, -, -⟩ | ⟨op, hem, -, hseq, -, hlog, -⟩ |
    ⟨op, hrec, -, hlog, -⟩
  · exact .inl (by rw [Store.ownOps, hlog]; rfl)
  · rw [hown hlog]
    refine (hinsert op).imp id fun h => ⟨op, hem, h.2, fun o ho => ?_⟩
    obtain ⟨hmem, horigin⟩ := List.mem_filter.1 ho
    have hle := Store.le_latestOriginSeq hmem (of_decide_eq_true horigin)
    omega
  · rw [hown hlog]
    exact .inl ((hinsert op).resolve_right fun h => hadm op hrec h.1)

end

/-! ### One connection -/

/-- The own ops are numbered upwards. -/
def Ascending (me : NodeId) (st : Store) : Prop :=
  (st.ownOps me).Pairwise fun a b => a.originSeq < b.originSeq

/-- The own ops beyond a number. -/
def Store.ownOpsAfter (st : Store) (me : NodeId) (n : ℤ) : List OpRecord :=
  (st.ownOps me).filter fun o => n < o.originSeq

/-- A batch is the first of the own ops beyond the cursor. -/
theorem opsSince_eq_take {me : NodeId} {st : Store} (h : Ascending me st) (a : ℤ) (limit : ℕ) :
    st.opsSince me a limit = (st.ownOpsAfter me a).take limit :=
  Store.opsSince_eq_filter h a limit

/-- What a connection has done: the first own ops beyond its resume point are pushed, the next ones
are the batch, and the cursor is at the last one pushed. -/
structure Pushes (me : NodeId) (st : Store) (s : PushLoop) : Prop where
  split : s.pushed ++ s.page <+: st.ownOpsAfter me s.resume
  cursor : s.error = none → s.cursor = (s.pushed.getLast?.map (·.originSeq)).getD s.resume
  fits : ∀ o ∈ s.pushed, frameCodec.Fits (.oplogPush o)

namespace Pushes

variable {me : NodeId} {st : Store} {s : PushLoop}

theorem subscribe (resume : ℤ) : Pushes me st { resume } where
  split := List.nil_prefix
  cursor _ := rfl
  fits o ho := by cases ho

/-- What is not yet pushed is beyond the cursor. -/
theorem ownOpsAfter_cursor (h : Pushes me st s) (hasc : Ascending me st) (herr : s.error = none)
    {rest : List OpRecord} (hrest : st.ownOpsAfter me s.resume = s.pushed ++ rest) :
    st.ownOpsAfter me s.cursor = rest := by
  have hcursor := h.cursor herr
  rcases List.eq_nil_or_concat s.pushed with hnil | ⟨init, last, hlast⟩
  · rw [hnil] at hcursor hrest
    rw [hcursor]
    exact hrest
  · rw [List.concat_eq_append] at hlast
    rw [hlast, List.getLast?_concat] at hcursor
    change s.cursor = last.originSeq at hcursor
    have hsorted : (st.ownOpsAfter me s.resume).Pairwise fun a b => a.originSeq < b.originSeq :=
      hasc.filter _
    rw [hrest, hlast] at hsorted
    have hbefore : ∀ o ∈ init ++ [last], o.originSeq ≤ s.cursor := by
      intro o ho
      rcases List.mem_append.1 ho with ho | ho
      · have hinit := (List.pairwise_append.1 hsorted).1
        exact hcursor ▸ ((List.pairwise_append.1 hinit).2.2 o ho last (by simp)).le
      · rw [List.mem_singleton.1 ho, hcursor]
    have hafter : ∀ o ∈ rest, s.cursor < o.originSeq := fun o ho =>
      hcursor ▸ (List.pairwise_append.1 hsorted).2.2 last (by simp) o ho
    have hresume : s.resume < s.cursor := by
      have hmem : last ∈ st.ownOpsAfter me s.resume := by rw [hrest, hlast]; simp
      exact hcursor ▸ of_decide_eq_true (List.mem_filter.1 hmem).2
    calc st.ownOpsAfter me s.cursor
        = (st.ownOpsAfter me s.resume).filter fun o => s.cursor < o.originSeq := by
          rw [Store.ownOpsAfter, Store.ownOpsAfter, List.filter_filter]
          refine List.filter_congr fun o _ => ?_
          rw [← Bool.decide_and]
          exact decide_eq_decide.2 ⟨fun hlt => ⟨hlt, hresume.trans hlt⟩, fun hlt => hlt.1⟩
      _ = rest := by
          rw [hrest, hlast, List.filter_append, List.filter_eq_nil_iff.2, List.filter_eq_self.2,
            List.nil_append]
          · exact fun o ho => decide_eq_true (hafter o ho)
          · exact fun o ho hlt => absurd (of_decide_eq_true hlt) (hbefore o ho).not_gt

/-- A command only appends to what is to be pushed. -/
theorem command [Blake3] (h : Pushes me st s) {cmd : Command} (hadm : cmd.Admitted me) :
    Pushes me (st.exec me cmd) s where
  split := by
    rcases ownOps_exec st hadm with heq | ⟨op, -, heq, -⟩
    · rw [Store.ownOpsAfter, heq]
      exact h.split
    · rw [Store.ownOpsAfter, heq, List.filter_append]
      exact h.split.trans (List.prefix_append _ _)
  cursor := h.cursor
  fits := h.fits

theorem turn (h : Pushes me st s) (hasc : Ascending me st) : Pushes me st (s.turn me st) := by
  unfold PushLoop.turn
  split
  · exact h
  · rename_i herr hpage
    obtain ⟨rest, hrest⟩ := h.split
    rw [hpage, List.append_nil] at hrest
    refine ⟨?_, h.cursor, h.fits⟩
    show s.pushed ++ st.opsSince me s.cursor pushBatch <+: st.ownOpsAfter me s.resume
    rw [opsSince_eq_take hasc, h.ownOpsAfter_cursor hasc herr hrest.symm, ← hrest]
    exact (List.prefix_append_right_inj _).2 (List.take_prefix _ _)
  · rename_i op page herr hpage
    have hsplit := h.split
    rw [hpage, List.append_cons] at hsplit
    rcases writeMsg_frameLimited (f := Wire.frame) (.oplogPush op) with ⟨hfits, frame, hok⟩ |
      ⟨-, hfail⟩
    · rw [frameCodec, hok]
      refine ⟨hsplit, fun _ => by simp, fun o ho => ?_⟩
      rcases List.mem_append.1 ho with ho | ho
      · exact h.fits o ho
      · rw [List.mem_singleton.1 ho]
        exact hfits
    · rw [frameCodec, hfail]
      refine ⟨?_, fun hnone => (by cases hnone), h.fits⟩
      show s.pushed ++ [] <+: _
      rw [List.append_nil]
      exact (List.prefix_append _ _).trans h.split

theorem resume_turn (s : PushLoop) : (s.turn me st).resume = s.resume := by
  unfold PushLoop.turn
  split
  · rfl
  · rfl
  · split <;> rfl

theorem mem_ownOps_of_mem_page (h : Pushes me st s) {o : OpRecord} (ho : o ∈ s.page) :
    o ∈ st.ownOps me :=
  (List.mem_filter.1 (h.split.subset (List.mem_append_right s.pushed ho))).1

/-- With a batch at hand and every own op fitting, a turn pushes an op. -/
theorem turn_write (h : Pushes me st s) (hfits : ∀ o ∈ st.ownOps me, frameCodec.Fits (.oplogPush o))
    (herr : s.error = none) {op : OpRecord} {page : List OpRecord} (hpage : s.page = op :: page) :
    s.turn me st = { s with cursor := op.originSeq, page, pushed := s.pushed ++ [op] } := by
  have hop : frameCodec.Fits (.oplogPush op) :=
    hfits op (h.mem_ownOps_of_mem_page (hpage ▸ List.mem_cons_self))
  rcases writeMsg_frameLimited (f := Wire.frame) (.oplogPush op) with ⟨-, frame, hok⟩ | ⟨hbig, -⟩
  · simp only [PushLoop.turn, herr, hpage, frameCodec, hok]
  · exact absurd hop hbig

/-- Where every own op fits, no turn fails. -/
theorem error_turn (h : Pushes me st s) (hfits : ∀ o ∈ st.ownOps me, frameCodec.Fits (.oplogPush o))
    (herr : s.error = none) : (s.turn me st).error = none := by
  cases hpage : s.page with
  | nil =>
    unfold PushLoop.turn
    rw [herr, hpage]
  | cons op page =>
    rw [h.turn_write hfits herr hpage]
    exact herr

/-- Where every own op fits, the loop comes to push all that are beyond its resume point. -/
theorem pushes_all (h : Pushes me st s) (hasc : Ascending me st)
    (hfits : ∀ o ∈ st.ownOps me, frameCodec.Fits (.oplogPush o)) (herr : s.error = none) :
    ∃ k, ((PushLoop.turn me st)^[k] s).pushed = st.ownOpsAfter me s.resume := by
  -- induction on the ops that remain
  generalize hn : (st.ownOpsAfter me s.resume).length - s.pushed.length = n
  induction n generalizing s with
  | zero =>
    have hpre := (List.prefix_append s.pushed s.page).trans h.split
    exact ⟨0, hpre.eq_of_length_le (Nat.sub_eq_zero_iff_le.1 hn)⟩
  | succ n ih =>
    -- a turn that writes leaves one op fewer
    have hwrite : ∀ {s : PushLoop}, Pushes me st s → s.error = none → s.page ≠ [] →
        (st.ownOpsAfter me s.resume).length - s.pushed.length = n + 1 →
        ∃ k, ((PushLoop.turn me st)^[k] s).pushed = st.ownOpsAfter me s.resume := by
      intro s h herr hne hn
      obtain ⟨op, page, hpage⟩ := List.exists_cons_of_ne_nil hne
      have hturn := h.turn_write hfits herr hpage
      obtain ⟨k, hk⟩ := ih (h.turn hasc) (h.error_turn hfits herr) (by
        rw [hturn, List.length_append, List.length_singleton]
        show (st.ownOpsAfter me s.resume).length - (s.pushed.length + 1) = n
        omega)
      rw [resume_turn] at hk
      exact ⟨k + 1, hk⟩
    cases hpage : s.page with
    | cons op page => exact hwrite h herr (by rw [hpage]; exact List.cons_ne_nil op page) hn
    | nil =>
      obtain ⟨rest, hrest⟩ := h.split
      rw [hpage, List.append_nil] at hrest
      have hpoll : s.turn me st = { s with page := rest.take pushBatch } := by
        unfold PushLoop.turn
        rw [herr, hpage, opsSince_eq_take hasc, h.ownOpsAfter_cursor hasc herr hrest.symm]
      have hrestne : rest.take pushBatch ≠ [] := by
        intro hnil
        rcases List.take_eq_nil_iff.1 hnil with hzero | rfl
        · cases hzero
        · rw [← hrest, List.append_nil, Nat.sub_self] at hn
          cases hn
      obtain ⟨k, hk⟩ := hwrite (h.turn hasc) (h.error_turn hfits herr) (by rw [hpoll]; exact hrestne)
        (by rw [hpoll]; exact hn)
      rw [resume_turn] at hk
      exact ⟨k + 1, hk⟩

/-- An op that does not fit is not passed. -/
theorem before_unfit (h : Pushes me st s) (hasc : Ascending me st) {o : OpRecord}
    (ho : o ∈ st.ownOps me) (hresume : s.resume < o.originSeq)
    (hbig : ¬ frameCodec.Fits (.oplogPush o)) : ∀ p ∈ s.pushed, p.originSeq < o.originSeq := by
  obtain ⟨rest, hrest⟩ := (List.prefix_append s.pushed s.page).trans h.split
  have hmem : o ∈ st.ownOpsAfter me s.resume := List.mem_filter.2 ⟨ho, decide_eq_true hresume⟩
  have hsorted : (st.ownOpsAfter me s.resume).Pairwise fun a b => a.originSeq < b.originSeq :=
    hasc.filter _
  rw [← hrest] at hmem hsorted
  intro p hp
  rcases List.mem_append.1 hmem with hpushed | hrest
  · exact absurd (h.fits o hpushed) hbig
  · exact (List.pairwise_append.1 hsorted).2.2 p hp o hrest

end Pushes

/-! ### Runs -/

namespace PushState

section

variable [Blake3] {me : NodeId}

/-- What holds in every run. -/
structure Inv (me : NodeId) (s : PushState) : Prop where
  ascending : Ascending me s.store
  pushes : Pushes me s.store s.loop

theorem Inv.step {s : PushState} (h : Inv me s) {e : Event} (hok : Ok me s e) :
    Inv me (s.step me e) := by
  cases e with
  | command cmd =>
    refine ⟨?_, h.pushes.command hok⟩
    rcases ownOps_exec s.store hok with heq | ⟨op, -, heq, hlt⟩
    · show ((s.store.exec me cmd).ownOps me).Pairwise _
      rw [heq]
      exact h.ascending
    · show ((s.store.exec me cmd).ownOps me).Pairwise _
      rw [heq]
      exact List.pairwise_append.2 ⟨h.ascending, List.pairwise_singleton _ op,
        fun o ho p hp => List.mem_singleton.1 hp ▸ hlt o ho⟩
  | subscribe resume => exact ⟨h.ascending, Pushes.subscribe resume⟩
  | turn => exact ⟨h.ascending, h.pushes.turn h.ascending⟩

theorem inv_reach {s : PushState} (h : (pushing me).Reach {} s) : Inv me s :=
  h.invariant (I := Inv me) ⟨List.Pairwise.nil, Pushes.subscribe 0⟩
    fun _ _ _ _ hinv ⟨hok, heq⟩ => heq ▸ hinv.step hok

/-- Every op that a command brings fits. -/
def OpsFit (me : NodeId) (s : PushState) : Event → Prop
  | .command cmd => cmd.Pushable me s.store
  | _ => True

/-- As long as every op that is accepted fits, so does every own op, and no loop fails. -/
theorem fits_reach {s : PushState} (h : ((pushing me).restrict (OpsFit me)).Reach {} s) :
    (∀ o ∈ s.store.ownOps me, frameCodec.Fits (.oplogPush o)) ∧ s.loop.error = none := by
  refine h.invariant (I := fun s => (∀ o ∈ s.store.ownOps me, frameCodec.Fits (.oplogPush o)) ∧
    s.loop.error = none) ⟨fun o ho => (by cases ho), rfl⟩
    fun s e s' hreach ⟨hfits, herr⟩ hstep => ?_
  obtain ⟨hcond, hok, rfl⟩ := hstep
  have hinv := inv_reach hreach.of_restrict
  cases e with
  | command cmd =>
    refine ⟨fun o ho => ?_, herr⟩
    change o ∈ (s.store.exec me cmd).ownOps me at ho
    rcases ownOps_exec s.store hok with heq | ⟨op, hem, heq, -⟩
    · exact hfits o (heq ▸ ho)
    · rw [heq, List.mem_append, List.mem_singleton] at ho
      rcases ho with ho | rfl
      · exact hfits o ho
      · exact (fits_emitted hem).2 (hcond (by rw [hem]; exact Option.some_ne_none o))
  | subscribe resume => exact ⟨hfits, rfl⟩
  | turn => exact ⟨hfits, hinv.pushes.error_turn hfits herr⟩

/-- **The own log can be pushed as long as every op fits into a frame.**  An op that a local
command brings is sent if and only if the parts of the change and of the row before it add up to no
more than a frame.  In every run in which the accepted ones all do, no push loop fails, and each
pushes every own op beyond its resume point; in every run, one that does not fit keeps all later
ones back.  A row can be sent if and only if its parts add up to no more than a frame. -/
theorem every_op_pushable_iff (me : NodeId) :
    (∀ st cmd op, Command.emitted me st cmd = some op →
      ((∃ frame, writeMsg frameCodec (.oplogPush op) = .ok frame) ↔ cmd.pushLen me st ≤ maxFrame)) ∧
    (∀ s, ((pushing me).restrict (OpsFit me)).Reach {} s → s.loop.error = none ∧
      ∀ o ∈ s.store.ownOps me, s.loop.resume < o.originSeq →
        ∃ k, o ∈ ((PushLoop.turn me s.store)^[k] s.loop).pushed) ∧
    (∀ s, (pushing me).Reach {} s → ∀ o ∈ s.store.ownOps me, s.loop.resume < o.originSeq →
      ¬ frameCodec.Fits (.oplogPush o) → ∀ p ∈ s.loop.pushed, p.originSeq < o.originSeq) ∧
    ∀ (st : Store) path row, st.loadRow path = some row →
      ((∃ frame, writeMsg reconcileCodec (.leafResp true row.toRow) = .ok frame) ↔
        row.leafLen ≤ maxFrame) := by
  refine ⟨fun st cmd op hem => ?_, fun s hreach => ?_, fun s hreach o ho hresume hbig => ?_,
    fun st path row _ => ?_⟩
  · exact writeMsg_ok_iff.trans (fits_emitted hem)
  · obtain ⟨hfits, herr⟩ := fits_reach hreach
    have hinv := inv_reach hreach.of_restrict
    refine ⟨herr, fun o ho hresume => ?_⟩
    obtain ⟨k, hk⟩ := hinv.pushes.pushes_all hinv.ascending hfits herr
    exact ⟨k, hk ▸ List.mem_filter.2 ⟨ho, decide_eq_true hresume⟩⟩
  · have hinv := inv_reach hreach
    exact hinv.pushes.before_unfit hinv.ascending ho hresume hbig
  · exact writeMsg_ok_iff.trans (fits_leafResp true row.toRow)

end

section

variable [Blake3] {change : LocalChange}

/-- A write becomes the first op of an empty log, which the loop reads. -/
theorem opsSince_first (me : NodeId) (hop : change.opType = .write)
    (hmanifest : change.manifest = none) :
    (Command.appendLocal change).emitted me {} = some (Store.localOp me {} change) ∧
      (Store.exec me {} (.appendLocal change)).loadRow change.path =
        some (Store.localRow (Store.localOp me {} change)) ∧
      (Store.exec me {} (.appendLocal change)).opsSince me 0 pushBatch =
        [Store.localOp me {} change] := by
  have hload : ({} : Store).loadRow change.path = none := rfl
  have happend : ({} : Store).appendLocal me change = .ok (some (Store.localOp me {} change),
      (({} : Store).insertOp (Store.localOp me {} change)).upsertFile
        (Store.localRow (Store.localOp me {} change))) := by
    simp [Store.appendLocal, hop, hmanifest, hload, Store.isNoOp]
  refine ⟨?_, ?_, ?_⟩
  · simp only [Command.emitted, happend]
  · simp only [Store.exec, Store.commit, happend]
    simp [Store.loadRow, Store.upsertFile, Store.localRow, Store.localOp]
  · simp only [Store.exec, Store.commit, happend]
    have hlog : (({} : Store).insertOp (Store.localOp me {} change)).oplog =
        [Store.localOp me {} change] := rfl
    have hfilter : [Store.localOp me {} change].filter (fun o => o.origin = me ∧ 0 < o.originSeq) =
        [Store.localOp me {} change] := by
      rw [List.filter_cons_of_pos, List.filter_nil]
      exact decide_eq_true ⟨rfl, Int.one_pos⟩
    rw [Store.opsSince, Store.upsertFile, hlog, hfilter]
    rfl

/-- The loop ends at the first op if that does not fit. -/
theorem error_first (me : NodeId) (hop : change.opType = .write)
    (hmanifest : change.manifest = none)
    (hbig : ¬ frameCodec.Fits (.oplogPush (Store.localOp me {} change))) :
    ∃ s, (pushing me).Reach {} s ∧ s.loop.error = some .encode := by
  obtain ⟨-, -, hread⟩ := opsSince_first me hop hmanifest
  refine ⟨[Event.command (.appendLocal change), .turn, .turn].foldl (step me) {},
    .of_foldl .init ⟨fun op hop => (by cases hop), trivial, trivial, trivial⟩, ?_⟩
  rcases writeMsg_frameLimited (f := Wire.frame) (.oplogPush (Store.localOp me {} change)) with
    ⟨hfits, -⟩ | ⟨-, hfail⟩
  · exact absurd hfits hbig
  · have hpoll : PushLoop.turn me (Store.exec me {} (.appendLocal change)) { resume := 0 } =
        { resume := 0, page := [Store.localOp me {} change] } := by
      show ({ resume := 0, page := Store.opsSince _ me 0 pushBatch } : PushLoop) = _
      rw [hread]
    show (PushLoop.turn me (Store.exec me {} (.appendLocal change)) (PushLoop.turn me
      (Store.exec me {} (.appendLocal change)) { resume := 0 })).error = some .encode
    rw [hpoll]
    simp only [PushLoop.turn, frameCodec, hfail]

/-- The metadata of a change is a part of the op and of the row that it becomes. -/
theorem metadata_le (me : NodeId) (st : Store) :
    optLen Meta.wireLen change.metadata ≤ (Command.appendLocal change).pushLen me st ∧
      optLen Meta.wireLen change.metadata ≤ (Store.localRow (Store.localOp me st change)).leafLen := by
  simp only [Command.pushLen, oplogPushLen, Row.leafLen, Store.localRow, Store.localOp]
  omega

end

section Example

attribute [local instance] Blake3.polynomial

/-- An attribute with a value. -/
def userAttribute (value : List Byte) (c : Char) : List Byte × List Byte :=
  (utf8 ['u', 's', 'e', 'r', '.', c], value)

/-- A file with seventeen attributes of a value. -/
def attributed (value : List Byte) : LocalChange where
  path := ['f']
  opType := .write
  mode := 0o644
  size := 4
  contentHash := some 6
  metadata := some {
    kind := .regular
    mode := 0o644
    uid := 0
    gid := 0
    mtimeS := 0
    mtimeNs := 0
    symlinkTarget := none
    rdev := 0
    xattrs := ['a', 'b', 'c', 'd', 'e', 'f', 'g', 'h', 'i', 'j', 'k', 'l', 'm', 'n', 'o', 'p', 'q'].map
      (userAttribute value) }
  manifest := none

/-- The largest value of an extended attribute. -/
def largestValue : List Byte := List.replicate (2 ^ 16) 0

/-- The values alone are longer than a frame. -/
theorem attributed_wireLen {value : List Byte} (h : value.length = 2 ^ 16) :
    maxFrame < optLen Meta.wireLen (attributed value).metadata := by
  simp only [attributed, optLen, Option.map_some, Option.getD_some, Meta.wireLen, List.map_cons,
    List.map_nil, userAttribute, List.sum_cons, h, blobLen, maxFrame]
  omega

/-- **A file with seventeen large attributes is never pushed.**  The change is accepted, the frame
of its op and the answer with its row are refused, and the push loop ends. -/
theorem attributes_exceed_frame :
    (∃ op, (Command.appendLocal (attributed largestValue)).emitted 1 {} = some op ∧
      ¬ ∃ frame, writeMsg frameCodec (.oplogPush op) = .ok frame) ∧
    (∃ s, (pushing 1).Reach {} s ∧ s.loop.error = some .encode) ∧
    ∃ row, (Store.exec 1 {} (.appendLocal (attributed largestValue))).loadRow ['f'] = some row ∧
      ¬ ∃ frame, writeMsg reconcileCodec (.leafResp true row.toRow) = .ok frame := by
  have hvalues := attributed_wireLen (show largestValue.length = 2 ^ 16 from List.length_replicate)
  obtain ⟨hpush, hleaf⟩ := metadata_le 1 {}
  have hop : (attributed largestValue).opType = .write := rfl
  obtain ⟨hem, hrow, -⟩ := opsSince_first 1 hop rfl
  have hbig : ¬ frameCodec.Fits (.oplogPush (Store.localOp 1 {} (attributed largestValue))) := fun h =>
    ((fits_emitted hem).1 h).not_gt (hvalues.trans_le hpush)
  refine ⟨⟨_, hem, fun h => hbig (writeMsg_ok_iff.1 h)⟩, error_first 1 hop rfl hbig, _, hrow,
    fun h => ?_⟩
  exact ((fits_leafResp true _).1 (writeMsg_ok_iff.1 h)).not_gt (hvalues.trans_le hleaf)

end Example

end PushState

end Replicore
