import Mathlib.Data.List.Dedup
import Replicore.Stream.NoGap

/-!
# Each op has its effect once

An op changes the files at most once, however often it is delivered: recording it is idempotent by
its id (`MutatingInv`), and at each path the row is above the op once the op had its effect there
(`EffectsInv`), which a row that only grows never forgets.
-/

namespace Replicore

open Consecutive

namespace Link

variable {p me : NodeId} {l l' : Link}

/-! ### At each path -/

/-- A row that changed at `q` was not above `vv` before, and is above it now. -/
def Settles (vv : VersionVector) (q : Path) (st st' : Store) : Prop :=
  st'.files.get? q ≠ st.files.get? q →
    (∀ r, st.files.get? q = some r → ¬ vv ≤ r.vv) ∧ ∃ r', st'.files.get? q = some r' ∧ vv ≤ r'.vv

theorem settles_upsert {vv : VersionVector} {st : Store} {row : FileRow} (hvv : vv ≤ row.vv)
    (hbelow : ∀ r, st.files.get? row.path = some r → r.vv < vv) (q : Path) :
    Settles vv q st (st.upsertFile row) := by
  intro hch
  by_cases hq : row.path = q
  · subst hq
    exact ⟨fun r hr hle => absurd (hbelow r hr) (not_lt_of_ge hle), row.toRow, by simp, hvv⟩
  · exact absurd (by rw [Store.upsertFile_files, OrdMap.get?_insert_of_ne _ _ hq]) hch

theorem Settles.congr {vv : VersionVector} {q : Path} {st₁ st₂ st₁' st₂' : Store}
    (h : Settles vv q st₁ st₂) (h₁ : st₁'.files = st₁.files) (h₂ : st₂'.files = st₂.files) :
    Settles vv q st₁' st₂' := by
  unfold Settles at h ⊢
  rw [h₁, h₂]
  exact h

theorem Settles.trans {vv : VersionVector} {q : Path} {st st' st'' : Store}
    (h : Settles vv q st st') (h' : Settles vv q st' st'') : Settles vv q st st'' := by
  intro hch
  by_cases hmid : st'.files.get? q = st.files.get? q
  · have hlate := h' (by rwa [hmid])
    exact ⟨hmid ▸ hlate.1, hlate.2⟩
  · obtain ⟨hbefore, r', hr', hle⟩ := h hmid
    refine ⟨hbefore, ?_⟩
    by_cases hlate : st''.files.get? q = st'.files.get? q
    · exact ⟨r', by rw [hlate, hr'], hle⟩
    · exact (h' hlate).2

theorem settles_applyRemote {st st' : Store} {op : OpRecord} {d e : Decision}
    (h : st.applyRemote op d = .ok (e, st')) (q : Path) : Settles op.vv q st st' := by
  rcases Store.applyRemote_cases h with ⟨-, -, rfl⟩ | ⟨-, st₂, hsrc, -, rfl⟩
  · exact fun hch => absurd rfl hch
  · have hprim : Settles op.vv q (st.insertOp op) ((st.insertOp op).applyPrimary op d).2 := by
      rcases Store.applyPrimary_cases (st.insertOp op) op d with ⟨heq, -⟩ | ⟨-, -, hdom, heq⟩
      · rw [heq]
        exact fun hch => absurd rfl hch
      · rw [heq]
        refine settles_upsert ?_ ?_ q
        · rw [Store.appliedRow_vv]
          exact VersionVector.le_merge_right _ _
        · rw [Store.appliedRow_path]
          exact hdom
    have hsource : Settles op.vv q ((st.insertOp op).applyPrimary op d).2 st₂ := by
      rcases Store.applySource_cases hsrc with ⟨rfl, -⟩ | ⟨oldPath, -, -, hdom, rfl⟩
      · exact fun hch => absurd rfl hch
      · exact settles_upsert (VersionVector.le_merge_right _ _) hdom q
    exact (hprim.trans hsource).congr (Store.insertOp_files st op).symm (by simp)

/-- What the handling of an op did at a path is there to stay, and is in the history once. -/
def EffectsInv (l : Link) : Prop :=
  l.effects.Nodup ∧ ∀ x ∈ l.effects, ∃ r, l.receiver.files.get? x.2 = some r ∧ x.1.vv ≤ r.vv

/-- Rows that grow keep what the history says. -/
theorem EffectsInv.grow {Q : VersionVector → Prop} (h : EffectsInv l)
    (hg : Store.RowsGrow Q l.receiver l'.receiver) (he : l'.effects = l.effects) :
    EffectsInv l' := by
  refine ⟨he ▸ h.1, fun x hx => ?_⟩
  obtain ⟨r, hr, hle⟩ := h.2 x (he ▸ hx)
  obtain ⟨r', hr', rfl | ⟨hlt, -⟩⟩ := hg x.2 r hr
  · exact ⟨r', hr', hle⟩
  · exact ⟨r', hr', hle.trans hlt.le⟩

/-- Handling an op adds to the history only what was not in it. -/
theorem EffectsInv.handled {Q : VersionVector → Prop} {op : OpRecord}
    {paths : List Path} (h : EffectsInv l) (hnd : paths.Nodup)
    (hg : Store.RowsGrow Q l.receiver l'.receiver)
    (hset : ∀ q ∈ paths, Settles op.vv q l.receiver l'.receiver)
    (he : l'.effects = l.effects ++ changedBy op paths l.receiver l'.receiver) :
    EffectsInv l' := by
  have hmem : ∀ x ∈ changedBy op paths l.receiver l'.receiver, x.1 = op ∧
      (∀ r, l.receiver.files.get? x.2 = some r → ¬ op.vv ≤ r.vv) ∧
      ∃ r', l'.receiver.files.get? x.2 = some r' ∧ op.vv ≤ r'.vv := by
    intro x hx
    obtain ⟨q, hq, rfl⟩ := List.mem_map.1 hx
    rw [List.mem_filter, decide_eq_true_eq] at hq
    exact ⟨rfl, hset q hq.1 hq.2⟩
  have hold : EffectsInv { l' with effects := l.effects } := h.grow hg rfl
  refine ⟨?_, fun x hx => ?_⟩
  · rw [he, List.nodup_append]
    refine ⟨h.1, ?_, fun a ha b hb hab => ?_⟩
    · exact (hnd.sublist List.filter_sublist).map fun q q' hqq => (Prod.mk.inj hqq).2
    · subst hab
      obtain ⟨hop, hbefore, -⟩ := hmem a hb
      obtain ⟨r, hr, hle⟩ := h.2 a ha
      exact hbefore r hr (hop ▸ hle)
  · rw [he, List.mem_append] at hx
    rcases hx with hx | hx
    · exact hold.2 x hx
    · obtain ⟨hop, -, hafter⟩ := hmem x hx
      rw [hop]
      exact hafter

/-! ### Events -/

/-- No row and no record of an op is touched, and the history of effects stays. -/
def Quiet (l l' : Link) : Prop :=
  l'.receiver.files = l.receiver.files ∧ l'.receiver.applied = l.receiver.applied ∧
    l'.effects = l.effects ∧ l'.mutating = l.mutating

section

variable [Blake3]

theorem settles_resolveRows (me : NodeId) (st : Store) (path : Path) (remote : Version)
    (staged : List PlannedRow) (order : List Hash) :
    Settles remote.vv path st (st.exec me (.resolveRows path remote staged order)) := by
  cases h : st.resolveRows path remote staged order with
  | error e => simp only [Store.exec, Store.commit, h]; exact fun hch => absurd rfl hch
  | ok x =>
    simp only [Store.exec, Store.commit, h]
    rcases Store.resolveRows_cases h with ⟨-, hst⟩ | ⟨-, hconc, localRow, hloc, hplan, hst⟩
    · rw [hst]
      exact fun hch => absurd rfl hch
    · intro _
      obtain ⟨r₀, hr₀, hnle, -⟩ := Store.decide_eq_concurrent.1 hconc
      obtain ⟨winner, losers, copies, -, hrows, -, hnd⟩ := planCandidates_spec hplan
      refine ⟨fun r hr hle => hnle ?_, ?_⟩
      · rw [hr] at hr₀
        cases hr₀
        exact hle
      · rw [hst, Store.foldl_upsertFile_files]
        refine ⟨_, OrdMap.get?_upsertAll_of_mem (by simpa [Function.comp_def] using hnd)
          (List.mem_map_of_mem (f := fun r : FileRow => (r.path, r.toRow))
            (hrows ▸ List.mem_cons_self)), ?_⟩
        exact le_mergeAll (Store.remote_mem_candidates st path remote localRow order)

/-- All that an event can do to the receiver's tables and to the history of effects. -/
theorem step_receiver (p me : NodeId) (l : Link) (e : Event) :
    Quiet l (step p me l e) ∨
    (∃ cmd, e = .atReceiver cmd ∧ step p me l e = { l with receiver := l.receiver.exec me cmd }) ∨
    (∃ op path remote staged order, remote.vv = op.vv ∧ step p me l e =
      l.handled op [path] (l.receiver.exec me (.resolveRows path remote staged order))) ∨
    (∃ op d eff st, l.receiver.applyRemote op d = .ok (eff, st) ∧
      (step p me l e).receiver = st ∧
      (step p me l e).effects = l.effects ++ changedBy op (pathsOf op) l.receiver st ∧
      (step p me l e).mutating =
        if st.files = l.receiver.files then l.mutating else l.mutating ++ [op.opId]) := by
  cases e with
  | atReceiver cmd => exact .inr (.inl ⟨cmd, rfl, rfl⟩)
  | handoff =>
    refine .inl ?_
    cases hs : l.session with
    | gate r f =>
      cases f with
      | none => simp only [step, hs]; exact ⟨rfl, rfl, rfl, rfl⟩
      | some f => simp only [step, hs]; split_ifs <;> exact ⟨rfl, rfl, rfl, rfl⟩
    | _ => simp only [step, hs, liveStep]; exact ⟨rfl, rfl, rfl, rfl⟩
  | resolve atSource staged order =>
    cases hs : l.session with
    | live c =>
      simp only [step, hs, liveStep]
      split
      · rename_i op b hh
        cases hc : conflictOf op atSource with
        | none => exact .inl ⟨rfl, rfl, rfl, rfl⟩
        | some pr =>
          refine .inr (.inr (.inl ⟨op, pr.1, pr.2, staged, order, ?_, rfl⟩))
          unfold conflictOf at hc
          split_ifs at hc with hsrc
          · obtain ⟨oldPath, -, rfl⟩ := Option.map_eq_some_iff.1 hc
            rfl
          · cases hc
            rfl
      · exact .inl ⟨rfl, rfl, rfl, rfl⟩
    | _ => simp only [step, hs]; exact .inl ⟨rfl, rfl, rfl, rfl⟩
  | commit d =>
    cases hs : l.session with
    | live c =>
      simp only [step, hs, liveStep]
      split
      · rename_i op hh
        split
        · rename_i eff st hst
          exact .inr (.inr (.inr ⟨op, d, eff, st, hst, rfl, rfl, rfl⟩))
        · exact .inl ⟨rfl, rfl, rfl, rfl⟩
      · exact .inl ⟨rfl, rfl, rfl, rfl⟩
    | _ => simp only [step, hs]; exact .inl ⟨rfl, rfl, rfl, rfl⟩
  | atSender cmd => exact .inl ⟨rfl, rfl, rfl, rfl⟩
  | disconnect => exact .inl ⟨rfl, rfl, rfl, rfl⟩
  | dial => exact .inl (by cases hs : l.session <;> simp only [step, hs] <;> exact ⟨rfl, rfl, rfl, rfl⟩)
  | snapshot =>
    refine .inl ?_
    cases hs : l.session with
    | gate r f => cases f <;> simp only [step, hs] <;> exact ⟨rfl, rfl, rfl, rfl⟩
    | _ => simp only [step, hs]; exact ⟨rfl, rfl, rfl, rfl⟩
  | poll =>
    refine .inl ?_
    cases hs : l.session <;> simp only [step, hs, liveStep] <;> (try split_ifs) <;>
      exact ⟨rfl, rfl, rfl, rfl⟩
  | push =>
    refine .inl ?_
    cases hs : l.session <;> simp only [step, hs, liveStep] <;> (try split) <;>
      exact ⟨rfl, rfl, rfl, rfl⟩
  | receive =>
    refine .inl ?_
    cases hs : l.session <;> simp only [step, hs, liveStep] <;> (try split) <;> (try split_ifs) <;>
      exact ⟨rfl, rfl, rfl, rfl⟩
  | ack =>
    refine .inl ?_
    cases hs : l.session <;> simp only [step, hs, liveStep] <;> (try split) <;> (try split_ifs) <;>
      exact ⟨rfl, rfl, rfl, rfl⟩
  | absorbAck =>
    refine .inl ?_
    cases hs : l.session <;> simp only [step, hs, liveStep] <;> (try split) <;> (try split_ifs) <;>
      exact ⟨rfl, rfl, rfl, rfl⟩

/-- An op whose recording changed the files is applied, and is in the history once. -/
def MutatingInv (l : Link) : Prop :=
  l.mutating.Nodup ∧ ∀ i ∈ l.mutating, i ∈ l.receiver.applied

theorem MutatingInv.step (h : MutatingInv l) (e : Event) : MutatingInv (step p me l e) := by
  obtain ⟨hnd, hmem⟩ := h
  rcases step_receiver p me l e with ⟨-, happ, -, hmut⟩ | ⟨cmd, -, hst⟩ |
    ⟨op, path, remote, staged, order, -, hst⟩ | ⟨op, d, eff, st, hst, hrecv, -, hmut⟩
  · rw [MutatingInv, hmut, happ]
    exact ⟨hnd, hmem⟩
  · rw [hst]
    exact ⟨hnd, fun i hi => Store.exec_applied_subset me _ _ (hmem i hi)⟩
  · rw [hst]
    exact ⟨hnd, fun i hi => Store.exec_applied_subset me _ _ (hmem i hi)⟩
  · obtain ⟨hop, hsub⟩ := applyRemote_applied hst
    rw [MutatingInv, hmut, hrecv]
    split_ifs with hfiles
    · exact ⟨hnd, fun i hi => hsub (hmem i hi)⟩
    · -- had the op been applied before, recording it again would only have moved the cursor
      have hnew : op.opId ∉ l.receiver.applied := by
        rcases Store.applyRemote_cases hst with ⟨-, -, rfl⟩ | ⟨hnot, -⟩
        · exact absurd rfl hfiles
        · exact hnot
      refine ⟨?_, fun i hi => ?_⟩
      · rw [List.nodup_append]
        refine ⟨hnd, List.nodup_singleton _, fun a ha b hb hab => hnew ?_⟩
        rw [List.mem_singleton.1 hb] at hab
        exact hab ▸ hmem a ha
      · rcases List.mem_append.1 hi with hi | hi
        · exact hsub (hmem i hi)
        · exact List.mem_singleton.1 hi ▸ hop

theorem mutating_nodup (h : (stream p me).Reach {} l) : l.mutating.Nodup := by
  have hinv : MutatingInv l := by
    refine h.invariant (I := MutatingInv) ⟨List.nodup_nil, by simp⟩ fun l e l' _ ih hstep => ?_
    obtain ⟨-, rfl⟩ := hstep
    exact ih.step e
  exact hinv.1

/-- No counter at the receiver is at `u64::MAX` when another command runs there. -/
def CountersOk (l : Link) (e : Event) : Prop :=
  ∀ cmd, e = .atReceiver cmd → l.receiver.CountersBelowMax

theorem EffectsInv.step (h : EffectsInv l) {e : Event} (hc : CountersOk l e) :
    EffectsInv (step p me l e) := by
  rcases step_receiver p me l e with ⟨hfiles, -, heff, -⟩ | ⟨cmd, he, hst⟩ |
    ⟨op, path, remote, staged, order, hvv, hst⟩ | ⟨op, d, eff, st, hst, hrecv, heff, -⟩
  · exact h.grow (Store.RowsGrow.of_files_eq (Q := fun _ => True) hfiles) heff
  · rw [hst]
    exact h.grow (Store.rowsGrow_exec me (hc cmd he) cmd) rfl
  · rw [hst]
    refine h.handled (Q := fun _ => True) (List.nodup_singleton path) ?_ ?_ rfl
    · cases hres : l.receiver.resolveRows path remote staged order with
      | error err =>
        simp only [Link.handled, Store.exec, Store.commit, hres]
        exact Store.RowsGrow.of_files_eq (Q := fun _ => True) rfl
      | ok x =>
        simp only [Link.handled, Store.exec, Store.commit, hres]
        exact Store.rowsGrow_resolveRows hres
    · intro q hq
      rw [List.mem_singleton.1 hq, ← hvv]
      exact settles_resolveRows me l.receiver path remote staged order
  · have hpaths : (pathsOf op).Nodup := List.nodup_dedup _
    refine h.handled (Q := (· < op.vv)) hpaths ?_ ?_ (by rw [heff, hrecv])
    · rw [hrecv]
      exact Store.rowsGrow_applyRemote hst
    · intro q _
      rw [hrecv]
      exact settles_applyRemote hst q

/-- **No gap in the op stream.**  On every run of a link whose sender's own sequence is gap-free,
whatever disconnects, crashes and reconnects happen: the numbers pushed on a connection are
consecutive from the resume point on; every op of the sender up to the receiver's cursor is in the
applied set or at or below an adopted frontier; recording an op changes the files at most once; and
(with no counter at `u64::MAX`) so does the whole handling of an op, at each path it affects. -/
theorem op_stream_no_gap (p me : NodeId) :
    (∀ l, (stream p me).Reach {} l →
      (∀ c, l.session = .live c → l.pushed = after c.resume l.pushed.length) ∧
      (∀ o ∈ l.sender.ownOps p, o.originSeq ≤ l.receiver.recvCursor p →
        o.opId ∈ l.receiver.applied ∨ o.originSeq ≤ l.adopted) ∧
      l.mutating.Nodup) ∧
    ∀ l, ((stream p me).restrict CountersOk).Reach {} l → l.effects.Nodup := by
  refine ⟨fun l hl => ⟨fun c hs => ?_, ?_, mutating_nodup hl⟩, fun l hl => ?_⟩
  · exact ((inv_reach hl).of_live hs).pushed_eq
  · exact (inv_reach hl).done
  · have hinv : EffectsInv l := by
      refine hl.invariant (I := EffectsInv) ⟨List.nodup_nil, by simp⟩ fun l e l' _ ih hstep => ?_
      obtain ⟨hc, -, rfl⟩ := hstep
      exact ih.step hc
    exact hinv.1

end

section Example

attribute [local instance] Blake3.polynomial

/-- The sender writes a file, the receiver joins and adopts the frontier 1, the sender writes again,
and the second op is streamed, recorded and acknowledged. -/
def joinThenStream : List Event :=
  [.atSender (.appendLocal Store.writeF), .dial, .snapshot, .handoff,
    .atSender (.appendLocal { Store.writeF with contentHash := some 7 }), .poll, .push, .receive,
    .commit .apply, .ack]

theorem joinThenStream_ok :
    Lts.AllOk (fun l e => CountersOk l e ∧ Ok 1 l e) (step 1 2) {} joinThenStream := by
  have hc : ∀ (l : Link) (e : Event), (∀ cmd, e ≠ .atReceiver cmd) → CountersOk l e :=
    fun _ _ he cmd heq => absurd heq (he cmd)
  refine ⟨⟨hc _ _ (by simp), 1, by decide +kernel⟩, ⟨hc _ _ (by simp), trivial⟩,
    ⟨hc _ _ (by simp), trivial⟩, ⟨hc _ _ (by simp), trivial⟩,
    ⟨hc _ _ (by simp), 2, by decide +kernel⟩, ⟨hc _ _ (by simp), trivial⟩,
    ⟨hc _ _ (by simp), trivial⟩, ⟨hc _ _ (by simp), trivial⟩, ⟨hc _ _ (by simp), trivial⟩,
    ⟨hc _ _ (by simp), trivial⟩, trivial⟩

/-- After the join and the streamed op the cursor is at 2; op 1 came with the frontier, op 2 is in
the applied set. -/
theorem op_stream_no_gap_after_join :
    let l := joinThenStream.foldl (step 1 2) {}
    l.receiver.recvCursor 1 = 2 ∧ l.adopted = 1 ∧ l.pushed = [2] ∧
      (∀ o ∈ l.sender.ownOps 1, o.originSeq ≤ 2 → o.opId ∈ l.receiver.applied ∨ o.originSeq ≤ 1) ∧
      l.mutating.Nodup ∧ l.effects.Nodup := by
  intro l
  have hcur : l.receiver.recvCursor 1 = 2 := by decide +kernel
  have hadopt : l.adopted = 1 := by decide +kernel
  have hreach : ((stream 1 2).restrict CountersOk).Reach {} l := by
    rw [stream, Lts.restrict_ofFun]
    exact Lts.Reach.init.of_foldl joinThenStream_ok
  obtain ⟨hall, heff⟩ := op_stream_no_gap 1 2
  obtain ⟨-, hdone, hmut⟩ := hall l hreach.of_restrict
  rw [hcur, hadopt] at hdone
  exact ⟨hcur, hadopt, by decide +kernel, hdone, hmut, heff l hreach⟩

end Example

end Link

end Replicore
