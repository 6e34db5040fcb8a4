import Replicore.Lib.Replace
import Replicore.Membership.Converge
import Replicore.Membership.Handle

/-!
# Merges and the disk

`Roster::save` and `merge_signed` of `membership.rs`, call by call on the disk: the staged roster
replaces the roster file, and only then the live state is swapped.  So a merge that fails leaves the
live state as it was, and a crash leaves the roster before or after the merge.

The directory is synced after the rename only when the path names one (`rosterDir`): with a bare
file name for a path an applied merge may be gone after a crash (`mergeSigned_atomic_iff`).
-/

namespace Replicore

open Replace

namespace Members

/-- The components of a path, as `Path::components` lists them: the root, a `.` in front, and the
names. -/
def components (p : Path) : List (List Char) :=
  let parts := p.splitOn '/'
  let front := if p.head? = some '/' then [['/']] else if parts.head? = some ['.'] then [['.']] else []
  front ++ parts.filter fun c => c ≠ [] ∧ c ≠ ['.']

/-- The directory of a path, `path.parent()`, unless it is empty. -/
def rosterDir (p : Path) : Option (List (List Char)) :=
  match (components p).dropLast with
  | [] => none
  | dir => some dir

/-- Why a merge fails. -/
inductive MembershipError
  | noAdminKey
  | roster (ctx : String) (e : RosterError)

/-- The context of an error of `save`. -/
def saveCtx : Step → String
  | .openTemp | .writeTemp | .syncTemp => "write roster temp"
  | .rename => "rename roster"
  | .openDir | .syncDir => "fsync roster dir"

/-- The handle, and the disk with the roster file. -/
structure Machine extends Trace RosterFile where
  inner : Inner

/-- Persist atomically. -/
def save (refuse : Step → Bool) (r : Roster) (path : Path) : EStateM MembershipError Machine Unit :=
  fun m =>
    match replace refuse (rosterDir path).isSome .invalid r.save m.toTrace with
    | .ok _ t => .ok () { m with toTrace := t }
    | .error step t => .error (.roster (saveCtx step) .io) { m with toTrace := t }

/-- All of `recompute`. -/
def Inner.recomputed (m : Inner) : Inner :=
  { m with
    effective := effectiveOf m.ourNodeId m.seeds m.roster
    allowlist := fingerprints (effectiveOf m.ourNodeId m.seeds m.roster) }

/-- Commit, recompute, notify. -/
def Inner.commit (m : Inner) (staged : Roster) : Inner :=
  ({ m with roster := staged } : Inner).recomputed.notify

/-- The lock leaves no trace. -/
theorem Inner.unlocked {inner : Inner} (h : inner.mergeSerial = none) (t : ℕ) (staged : Roster) :
    { ({ inner with mergeSerial := some t } : Inner).commit staged with mergeSerial := none } =
        inner.commit staged ∧
      { ({ inner with mergeSerial := some t } : Inner) with mergeSerial := none } = inner := by
  cases inner
  cases h
  exact ⟨rfl, rfl⟩

section

variable [Blake3] [Ed25519]

/-- Verify and merge one signed entry: the staged roster is persisted before it is committed. -/
def mergeSigned (refuse : Step → Bool) (entry : SignedEntry) :
    EStateM MembershipError Machine MergeOutcome := fun m =>
  match m.inner.adminPubkey with
  | none => .error .noAdminKey m
  | some pk =>
    let (staged, outcome) := m.inner.roster.mergeEntry entry pk
    if outcome = .applied then
      match save refuse staged m.inner.rosterPath m with
      | .ok _ m => .ok outcome { m with inner := m.inner.commit staged }
      | .error e m => .error e m
    else .ok outcome m

/-- The roster that a handle with this key loads from a file. -/
def loadUnder (adminPubkey : Option AdminPubKey) (file : RosterFile) : Except RosterError Roster :=
  match adminPubkey with
  | some pk => (Roster.load file pk).map Prod.fst
  | none => .ok .empty

example (files : OrdMap Path RosterFile) (cfg : Config) :
    loadRoster files cfg = loadUnder cfg.adminPubkey (fileAt files cfg.rosterPath) := rfl

/-! ### What a merge does -/

namespace Inner

/-- Every entry of the roster verifies under the admin key. -/
def Verified (m : Inner) : Prop :=
  ∀ pk, m.adminPubkey = some pk → ∀ n e, m.roster.get n = some e → e.verify pk

/-- The entry verifies and beats the one that is there. -/
def Wins (m : Inner) (entry : SignedEntry) : Prop :=
  ∃ pk, m.adminPubkey = some pk ∧ entry.verify pk ∧
    m.roster.rankAt SignedEntry.orderKey entry.nodeId < ↑entry.orderKey

end Inner

theorem mergeEntry_applied_iff {m : Inner} {pk : AdminPubKey} {entry : SignedEntry}
    (hpk : m.adminPubkey = some pk) :
    (m.roster.mergeEntry entry pk).2 = .applied ↔ m.Wins entry := by
  constructor
  · intro h
    obtain ⟨hv, -, hlt⟩ := Roster.mergeEntry_applied h
    exact ⟨pk, hpk, hv, hlt⟩
  · rintro ⟨pk', hpk', hv, hlt⟩
    obtain rfl : pk = pk' := Option.some.inj (hpk.symm.trans hpk')
    rw [Roster.mergeEntry_of_lt hv hlt]

/-- A call that ends with an answer. -/
def respond (answer : Except MembershipError MergeOutcome) (m : Machine) :
    EStateM.Result MembershipError Machine MergeOutcome :=
  match answer with
  | .ok outcome => .ok outcome m
  | .error e => .error e m

/-- An entry that wins is saved, and then committed. -/
theorem mergeSigned_of_wins {inner : Inner} {entry : SignedEntry} (h : inner.Wins entry)
    (refuse : Step → Bool) (t : Trace RosterFile) :
    mergeSigned refuse entry ⟨t, inner⟩ =
      match replace refuse (rosterDir inner.rosterPath).isSome .invalid
        (Roster.save (inner.roster.put entry)) t with
      | .ok _ t => .ok .applied ⟨t, inner.commit (inner.roster.put entry)⟩
      | .error step t => .error (.roster (saveCtx step) .io) ⟨t, inner⟩ := by
  obtain ⟨pk, hpk, hv, hlt⟩ := h
  unfold mergeSigned
  dsimp only
  rw [hpk]
  dsimp only
  rw [Roster.mergeEntry_of_lt hv hlt]
  dsimp only
  rw [if_pos rfl, save]
  cases replace refuse (rosterDir inner.rosterPath).isSome .invalid
    (Roster.save (inner.roster.put entry)) t <;> rfl

/-- An entry that does not win changes nothing. -/
theorem mergeSigned_of_not_wins {inner : Inner} {entry : SignedEntry} (h : ¬ inner.Wins entry) :
    ∃ answer, answer ≠ .ok .applied ∧
      ∀ refuse t, mergeSigned refuse entry ⟨t, inner⟩ = respond answer ⟨t, inner⟩ := by
  unfold mergeSigned
  cases hpk : inner.adminPubkey with
  | none => exact ⟨.error .noAdminKey, nofun, fun _ _ => by simp only [hpk, respond]⟩
  | some pk =>
    have hout : (inner.roster.mergeEntry entry pk).2 ≠ .applied :=
      fun hout => h ((mergeEntry_applied_iff hpk).1 hout)
    refine ⟨.ok (inner.roster.mergeEntry entry pk).2, fun heq => hout (Except.ok.inj heq),
      fun _ _ => ?_⟩
    simp only [hpk, respond]
    exact if_neg hout

/-! ### Merges that succeed one another -/

/-- The answers of successive merges, each with the calls that are refused. -/
def answers (m : Machine) : List (SignedEntry × (Step → Bool)) →
    List (Except MembershipError MergeOutcome)
  | [] => []
  | (entry, refuse) :: rest =>
    match mergeSigned refuse entry m with
    | .ok outcome m' => .ok outcome :: answers m' rest
    | .error e m' => .error e :: answers m' rest

/-- A merge reads nothing off the disk. -/
theorem mergeSigned_respond (inner : Inner) (refuse : Step → Bool) (entry : SignedEntry) :
    ∃ answer inner', ∀ t, ∃ t', mergeSigned refuse entry ⟨t, inner⟩ = respond answer ⟨t', inner'⟩ := by
  by_cases hw : inner.Wins entry
  · have hanswers := answers_replace refuse (rosterDir inner.rosterPath).isSome RosterFile.invalid
      (Roster.save (inner.roster.put entry))
    cases hstop : (steps (rosterDir inner.rosterPath).isSome).find? refuse with
    | none =>
      refine ⟨.ok .applied, inner.commit (inner.roster.put entry), fun t => ?_⟩
      obtain ⟨t', ht'⟩ := hanswers t
      rw [mergeSigned_of_wins hw, ht', hstop]
      exact ⟨t', rfl⟩
    | some step =>
      refine ⟨.error (.roster (saveCtx step) .io), inner, fun t => ?_⟩
      obtain ⟨t', ht'⟩ := hanswers t
      rw [mergeSigned_of_wins hw, ht', hstop]
      exact ⟨t', rfl⟩
  · obtain ⟨answer, -, hanswer⟩ := mergeSigned_of_not_wins hw
    exact ⟨answer, inner, fun t => ⟨t, hanswer refuse t⟩⟩

/-- So what later merges answer depends on the live state only. -/
theorem answers_congr (later : List (SignedEntry × (Step → Bool))) (inner : Inner)
    (t t' : Trace RosterFile) : answers ⟨t, inner⟩ later = answers ⟨t', inner⟩ later := by
  induction later generalizing inner t t' with
  | nil => rfl
  | cons x later ih =>
    obtain ⟨entry, refuse⟩ := x
    obtain ⟨answer, inner', hanswer⟩ := mergeSigned_respond inner refuse entry
    obtain ⟨u, hu⟩ := hanswer t
    obtain ⟨u', hu'⟩ := hanswer t'
    unfold answers
    rw [hu, hu']
    cases answer with
    | ok outcome => exact congrArg (Except.ok outcome :: ·) (ih inner' u u')
    | error e => exact congrArg (Except.error e :: ·) (ih inner' u u')

/-! ### Crashes -/

/-- The roster after the merge. -/
def Inner.merged (m : Inner) (entry : SignedEntry) : Roster :=
  match m.adminPubkey with
  | none => m.roster
  | some pk => (m.roster.mergeEntry entry pk).1

/-- A crash may leave a file from which the handle's key loads this. -/
def Yields (m : Inner) (d : Disk RosterFile) (res : Except RosterError Roster) : Prop :=
  ∃ file, d.Leaves file ∧ loadUnder m.adminPubkey file = res

/-- A crash with this disk yields the roster before the merge, or the one after. -/
def CrashSafe (m : Inner) (entry : SignedEntry) (d d' : Disk RosterFile) : Prop :=
  ∀ res, Yields m d' res → Yields m d res ∨ res = .ok (m.merged entry)

/-- A merge is atomic against the disk: wherever it stops, a crash yields the roster before or the
one after, and the one after if `Applied` was returned; and a merge that fails leaves the live state
as it was, and all later answers. -/
def MergeAtomic (m : Inner) (d : Disk RosterFile) (entry : SignedEntry) (refuse : Step → Bool) :
    Prop :=
  match mergeSigned refuse entry ⟨⟨d, [d]⟩, m⟩ with
  | .ok outcome after =>
    (∀ d' ∈ after.past, CrashSafe m entry d d') ∧
      (outcome = .applied → ∀ res, Yields m after.disk res → res = .ok (m.merged entry))
  | .error _ after =>
    (∀ d' ∈ after.past, CrashSafe m entry d d') ∧ after.inner = m ∧
      ∀ later, answers after later = answers ⟨⟨d, [d]⟩, m⟩ later

/-- What was saved loads back whole under a key that verifies it, and under any key its entries that
verify. -/
def LoadsBack (r : Roster) : Prop :=
  (∀ pk, (∀ n e, r.get n = some e → e.verify pk) → Roster.load r.save pk = .ok (r, 0)) ∧
    ∀ pk, ∃ r', Roster.load r.save pk = .ok (r', r.allEntries.countP fun e => !e.verify pk) ∧
      ∀ n, r'.get n = (r.get n).filter fun e => e.verify pk

theorem loadsBack (r : Roster) : LoadsBack r := by
  have hload (pk : AdminPubKey) := Roster.load_rows_eq r.allEntries pk
  refine ⟨fun pk hr => ?_, fun pk => ⟨_, hload pk, r.get_mergeEntries_allEntries pk⟩⟩
  refine (hload pk).trans (congrArg Except.ok (Prod.ext (Lww.ext_get? fun n => ?_) ?_))
  · refine (r.get_mergeEntries_allEntries pk n).trans ?_
    cases hn : r.get n with
    | none => exact hn.symm
    | some e =>
      rw [Option.filter_some, if_pos (hr n e hn)]
      exact hn.symm
  · refine List.countP_eq_zero.2 fun e he => ?_
    rw [hr e.nodeId e (Lww.mem_toList.1 he)]
    decide

variable {m : Inner} {d : Disk RosterFile} {entry : SignedEntry}

theorem merged_of_wins (h : m.Wins entry) : m.merged entry = m.roster.put entry := by
  obtain ⟨pk, hpk, hv, hlt⟩ := h
  unfold Inner.merged
  rw [hpk]
  dsimp only
  rw [Roster.mergeEntry_of_lt hv hlt]

/-- What is committed verifies like what was there. -/
theorem verified_commit (hm : m.Verified) (h : m.Wins entry) :
    (m.commit (m.roster.put entry)).Verified := by
  obtain ⟨pk, hpk, hv, -⟩ := h
  intro pk' hpk' n e hget
  obtain rfl : pk = pk' := Option.some.inj (hpk.symm.trans hpk')
  change Roster.get (m.roster.put entry) n = some e at hget
  by_cases hn : entry.nodeId = n
  · subst hn
    rw [Roster.get_put_self] at hget
    cases hget
    exact hv
  · rw [Roster.get_put_of_ne _ hn] at hget
    exact hm pk hpk n e hget

/-- The staged roster loads back. -/
theorem loadUnder_put (hm : m.Verified) (h : m.Wins entry) :
    loadUnder m.adminPubkey (Roster.save (m.roster.put entry)) = .ok (m.merged entry) := by
  have hput := verified_commit hm h
  rw [merged_of_wins h]
  obtain ⟨pk, hpk, -⟩ := h
  unfold loadUnder
  rw [hpk]
  dsimp only
  rw [(loadsBack (m.roster.put entry)).1 pk (hput pk hpk)]
  rfl

/-- A disk that is safe for the staged file is safe for the merge. -/
theorem crashSafe_of_safe (hm : m.Verified) (h : m.Wins entry) {d' : Disk RosterFile}
    (hd : Safe d (Roster.save (m.roster.put entry)) d') : CrashSafe m entry d d' := by
  rintro res ⟨file, hfile, rfl⟩
  obtain hfile | rfl := hd file hfile
  · exact .inl ⟨file, hfile, rfl⟩
  · exact .inr (loadUnder_put hm h)

/-! ### The handle -/

/-- What the calls that are refused make of a save. -/
def saveResult (refuse : Step → Bool) (path : Path) : SaveResult :=
  match (steps (rosterDir path).isSome).find? refuse with
  | none => .ok
  | some .openDir | some .syncDir => .failedAfterRename
  | some .openTemp | some .writeTemp | some .syncTemp | some .rename => .failedBeforeRename

namespace Daemon

/-- The merge `t` stands at `pc`, with this live state and these files. -/
structure At (t : ℕ) (entry : SignedEntry) (pc : MergePc) (inner : Inner)
    (files : OrdMap Path RosterFile) (dm : Daemon) : Prop where
  call : dm.calls.get? t = some (.merge entry pc)
  inner : dm.inner = inner
  files : dm.files = files

/-- The call `t` goes on by itself. -/
def alone (t : ℕ) (io : SaveResult) (dm : Daemon) : Daemon := dm.step (.step t io)

variable {t : ℕ} {io : SaveResult} {pc pc' : MergePc} {inner inner' : Inner}
  {files files' : OrdMap Path RosterFile} {dm : Daemon}

theorem At.alone_eq (h : At t entry pc inner files dm) :
    dm.alone t io = stepMerge ⟨inner, files, dm.calls, dm.applied⟩ t io entry pc := by
  obtain ⟨hcall, rfl, rfl⟩ := h
  unfold alone step
  dsimp only
  rw [hcall]

/-- One more step of a merge that goes on. -/
theorem At.next {n : ℕ} (h : At t entry pc inner files ((alone t io)^[n] dm))
    (hstep : ∀ calls applied, ∃ applied', stepMerge ⟨inner, files, calls, applied⟩ t io entry pc =
      goto ⟨inner', files', calls, applied'⟩ t (.merge entry pc')) :
    At t entry pc' inner' files' ((alone t io)^[n + 1] dm) := by
  obtain ⟨applied', hgoto⟩ := hstep ((alone t io)^[n] dm).calls ((alone t io)^[n] dm).applied
  rw [Function.iterate_succ_apply', h.alone_eq, hgoto]
  exact ⟨OrdMap.get?_insert_self _ _ _, rfl, rfl⟩

/-- A merge that wins comes to the save with the lock and the staged roster. -/
theorem At.save (h : At t entry .lock inner files dm) (hfree : inner.mergeSerial = none)
    (hw : inner.Wins entry) :
    At t entry (.save (inner.roster.put entry) inner.rosterPath)
      { inner with mergeSerial := some t } files ((alone t io)^[4] dm) := by
  obtain ⟨pk, hpk, hv, hlt⟩ := hw
  have hlock : At t entry .stage { inner with mergeSerial := some t } files
      ((alone t io)^[1] dm) :=
    At.next (n := 0) h fun calls applied => ⟨applied, by simp only [stepMerge, hfree]⟩
  have hstage : At t entry (.verify inner.roster) { inner with mergeSerial := some t } files
      ((alone t io)^[2] dm) :=
    hlock.next fun calls applied => ⟨applied, rfl⟩
  have hverify : At t entry (.path (inner.roster.put entry)) { inner with mergeSerial := some t }
      files ((alone t io)^[3] dm) :=
    hstage.next fun calls applied => ⟨applied, by
      simp only [stepMerge, hpk, Roster.mergeEntry_of_lt hv hlt]⟩
  exact hverify.next fun calls applied => ⟨applied, rfl⟩

/-- What is committed runs through `recompute` and is announced. -/
theorem At.commit {staged : Roster} (h : At t entry (.commit staged) inner files dm) :
    ((alone t io)^[6] dm).inner = { inner.commit staged with mergeSerial := none } ∧
      ((alone t io)^[6] dm).files = files := by
  have hroster : At t entry (.recompute .seeds) { inner with roster := staged } files
      ((alone t io)^[1] dm) := At.next (n := 0) h fun _ applied => ⟨applied, rfl⟩
  have hseeds : At t entry (.recompute (.roster (seedPeers inner.seeds)))
      { inner with roster := staged } files ((alone t io)^[2] dm) :=
    hroster.next fun _ applied => ⟨applied, rfl⟩
  have hoverlay : At t entry
      (.recompute (.effective (effectiveOf inner.ourNodeId inner.seeds staged)))
      { inner with roster := staged } files ((alone t io)^[3] dm) :=
    hseeds.next fun _ applied => ⟨applied, rfl⟩
  have heffective : At t entry
      (.recompute (.allowlist (fingerprints (effectiveOf inner.ourNodeId inner.seeds staged))))
      { inner with roster := staged, effective := effectiveOf inner.ourNodeId inner.seeds staged }
      files ((alone t io)^[4] dm) :=
    hoverlay.next fun _ applied => ⟨applied, rfl⟩
  have hallow : At t entry .notify ({ inner with roster := staged } : Inner).recomputed files
      ((alone t io)^[5] dm) :=
    heffective.next fun _ applied => ⟨applied, rfl⟩
  rw [Function.iterate_succ_apply', hallow.alone_eq]
  exact ⟨rfl, rfl⟩

/-- A call that has returned does nothing more. -/
theorem alone_of_none (h : dm.calls.get? t = none) (n : ℕ) : (alone t io)^[n] dm = dm := by
  refine Function.iterate_fixed ?_ n
  unfold alone step
  dsimp only
  rw [h]

/-- A merge that has saved is committed; one that has not returns. -/
theorem At.saved (io : SaveResult) {staged : Roster} {path : Path}
    (h : At t entry (.save staged path) inner files dm) :
    match io with
    | .ok => ((alone t io)^[7] dm).inner = { inner.commit staged with mergeSerial := none } ∧
        ((alone t io)^[7] dm).files = files.insert path staged.save
    | .failedBeforeRename => ((alone t io)^[7] dm).inner = { inner with mergeSerial := none } ∧
        ((alone t io)^[7] dm).files = files
    | .failedAfterRename => ((alone t io)^[7] dm).inner = { inner with mergeSerial := none } ∧
        ((alone t io)^[7] dm).files = files.insert path staged.save := by
  have hsave : dm.alone t io = _ := h.alone_eq
  cases io with
  | ok =>
    have hcommit : At t entry (.commit staged) inner (files.insert path staged.save)
        (dm.alone t .ok) := At.next (n := 0) h fun _ applied => ⟨applied, rfl⟩
    simp only [Function.iterate_succ_apply _ 6]
    exact hcommit.commit
  | failedBeforeRename =>
    simp only [Function.iterate_succ_apply _ 6, hsave]
    rw [alone_of_none (OrdMap.get?_erase_self _ _)]
    exact ⟨rfl, rfl⟩
  | failedAfterRename =>
    simp only [Function.iterate_succ_apply _ 6, hsave]
    rw [alone_of_none (OrdMap.get?_erase_self _ _)]
    exact ⟨rfl, rfl⟩

end Daemon

/-- What a merge of an entry that wins comes to: the answer, and what the disk has been through. -/
theorem mergeSigned_cases (h : m.Wins entry) (refuse : Step → Bool) :
    ∃ t, match (steps (rosterDir m.rosterPath).isSome).find? refuse with
      | none => mergeSigned refuse entry ⟨⟨d, [d]⟩, m⟩ =
          .ok .applied ⟨t, m.commit (m.roster.put entry)⟩ ∧
        SafeRun d (Roster.save (m.roster.put entry))
          (Replaced (rosterDir m.rosterPath).isSome d (Roster.save (m.roster.put entry))) t
      | some step => mergeSigned refuse entry ⟨⟨d, [d]⟩, m⟩ =
          .error (.roster (saveCtx step) .io) ⟨t, m⟩ ∧
        SafeRun d (Roster.save (m.roster.put entry))
          (Stopped d (Roster.save (m.roster.put entry)) step) t := by
  have hstart : SafeRun d (Roster.save (m.roster.put entry)) (Untouched d) ⟨d, [d]⟩ :=
    ⟨List.forall_mem_singleton.2 fun _ hx => .inl hx, rfl, rfl⟩
  have hspec : Hoare.Triple (SafeRun d (Roster.save (m.roster.put entry)) (Untouched d))
      (replace refuse (rosterDir m.rosterPath).isSome .invalid (Roster.save (m.roster.put entry)))
      _ _ := replace_spec
  obtain ⟨t, ht⟩ := answers_replace refuse (rosterDir m.rosterPath).isSome RosterFile.invalid
    (Roster.save (m.roster.put entry)) ⟨d, [d]⟩
  have hrun := hspec _ hstart
  refine ⟨t, ?_⟩
  rw [mergeSigned_of_wins h]
  cases hstop : (steps (rosterDir m.rosterPath).isSome).find? refuse with
  | none =>
    rw [hstop] at ht
    rw [ht] at hrun ⊢
    exact ⟨rfl, hrun⟩
  | some step =>
    rw [hstop] at ht
    rw [ht] at hrun ⊢
    exact ⟨rfl, hrun.2⟩

/-- A merge that wins and runs by itself. -/
theorem Daemon.At.merged {dm : Daemon} {t : ℕ} {inner : Inner} {files : OrdMap Path RosterFile}
    (io : SaveResult) (h : At t entry .lock inner files dm) (hfree : inner.mergeSerial = none)
    (hw : inner.Wins entry) :
    match io with
    | .ok => ((alone t io)^[11] dm).inner = inner.commit (inner.roster.put entry) ∧
        ((alone t io)^[11] dm).files =
          files.insert inner.rosterPath (Roster.save (inner.roster.put entry))
    | .failedBeforeRename =>
        ((alone t io)^[11] dm).inner = inner ∧ ((alone t io)^[11] dm).files = files
    | .failedAfterRename => ((alone t io)^[11] dm).inner = inner ∧
        ((alone t io)^[11] dm).files =
          files.insert inner.rosterPath (Roster.save (inner.roster.put entry)) := by
  have hsave : At t entry _ _ files ((alone t io)^[4] dm) := h.save hfree hw
  have hsaved := hsave.saved io
  rw [← Function.iterate_add_apply] at hsaved
  obtain ⟨hcommit, hsame⟩ := Inner.unlocked hfree t (inner.roster.put entry)
  cases io with
  | ok => exact ⟨hsaved.1.trans hcommit, hsaved.2⟩
  | failedBeforeRename => exact ⟨hsaved.1.trans hsame, hsaved.2⟩
  | failedAfterRename => exact ⟨hsaved.1.trans hsame, hsaved.2⟩

/-- **A merge of the handle that runs by itself** does to the live state and to the visible file
what `mergeSigned` does. -/
theorem alone_mergeSigned {dm : Daemon} {t : ℕ} (refuse : Step → Bool)
    (hcall : dm.calls.get? t = some (.merge entry .lock)) (hfree : dm.inner.mergeSerial = none)
    (hw : dm.inner.Wins entry) (hfile : d.visible = fileAt dm.files dm.inner.rosterPath) :
    let after := (Daemon.alone t (saveResult refuse dm.inner.rosterPath))^[11] dm
    ∃ answer u, mergeSigned refuse entry ⟨⟨d, [d]⟩, dm.inner⟩ = respond answer ⟨u, after.inner⟩ ∧
      u.disk.visible = fileAt after.files dm.inner.rosterPath := by
  have hmerged := Daemon.At.merged (saveResult refuse dm.inner.rosterPath) ⟨hcall, rfl, rfl⟩ hfree hw
  obtain ⟨u, hu⟩ := mergeSigned_cases (d := d) hw refuse
  dsimp only
  generalize hio : saveResult refuse dm.inner.rosterPath = io at hmerged ⊢
  unfold saveResult at hio
  cases hstop : (steps (rosterDir dm.inner.rosterPath).isSome).find? refuse with
  | none =>
    rw [hstop] at hu hio
    subst hio
    obtain ⟨hrun, hu⟩ := hu
    obtain ⟨hinner, hfiles⟩ := hmerged
    refine ⟨.ok .applied, u, ?_, ?_⟩
    · rw [hinner]
      exact hrun
    · rw [hfiles, fileAt_insert_self]
      exact hu.now.visible
  | some step =>
    rw [hstop] at hu hio
    obtain ⟨hrun, hu⟩ := hu
    refine ⟨.error (.roster (saveCtx step) .io), u, ?_⟩
    cases step with
    | openTemp | writeTemp | syncTemp | rename =>
      subst hio
      obtain ⟨hinner, hfiles⟩ := hmerged
      rw [hinner, hfiles]
      exact ⟨hrun, (Untouched.visible hu.now).trans hfile⟩
    | openDir | syncDir =>
      subst hio
      obtain ⟨hinner, hfiles⟩ := hmerged
      rw [hinner, hfiles, fileAt_insert_self]
      exact ⟨hrun, Renamed.visible hu.now⟩

/-- Without a directory to sync, what a crash could leave before it can leave after `Applied`. -/
theorem yields_of_atomic (hdir : ¬ (rosterDir m.rosterPath).isSome) (hw : m.Wins entry)
    (hatomic : MergeAtomic m d entry fun _ => false) :
    ∀ res, Yields m d res → res = .ok (m.merged entry) := by
  rintro res ⟨file, hfile, hload⟩
  unfold MergeAtomic at hatomic
  obtain ⟨t, ht⟩ := mergeSigned_cases (d := d) hw fun _ => false
  rw [List.find?_eq_none.2 fun _ _ => Bool.false_ne_true] at ht
  obtain ⟨hrun, ht⟩ := ht
  rw [hrun] at hatomic
  have hleaves := (ht.now.renamed hdir).leaves_iff file
  exact hatomic.2 rfl res ⟨file, hleaves.2 (.inl hfile), hload⟩

theorem not_atomic_of_yields {res : Except RosterError Roster}
    (hdir : ¬ (rosterDir m.rosterPath).isSome) (hw : m.Wins entry) (hres : Yields m d res)
    (hne : res ≠ .ok (m.roster.put entry)) : ¬ MergeAtomic m d entry fun _ => false :=
  fun hatomic => hne (merged_of_wins hw ▸ yields_of_atomic hdir hw hatomic res hres)

/-- **A merge is atomic against the disk exactly when** the path names a directory, the entry does
not win, or the disk holds the roster after the merge already. -/
theorem mergeSigned_atomic_iff (hm : m.Verified) :
    ((∀ refuse, MergeAtomic m d entry refuse) ∧ ∀ r, LoadsBack r) ↔
      (rosterDir m.rosterPath).isSome ∨ ¬ m.Wins entry ∨
        ∀ res, Yields m d res → res = .ok (m.merged entry) := by
  constructor
  · rintro ⟨hatomic, -⟩
    by_cases hdir : (rosterDir m.rosterPath).isSome
    · exact .inl hdir
    by_cases hw : m.Wins entry
    · exact .inr (.inr (yields_of_atomic hdir hw (hatomic _)))
    · exact .inr (.inl hw)
  · intro hcond
    refine ⟨fun refuse => ?_, loadsBack⟩
    unfold MergeAtomic
    by_cases hw : m.Wins entry
    · obtain ⟨t, ht⟩ := mergeSigned_cases (d := d) hw refuse
      cases hstop : (steps (rosterDir m.rosterPath).isSome).find? refuse with
      | none =>
        rw [hstop] at ht
        obtain ⟨hrun, ht⟩ := ht
        rw [hrun]
        refine ⟨fun d' hd' => crashSafe_of_safe hm hw (ht.past d' hd'), fun _ res hres => ?_⟩
        obtain ⟨file, hfile, rfl⟩ := hres
        by_cases hdir : (rosterDir m.rosterPath).isSome
        · rw [((ht.now.synced hdir).leaves_iff file).1 hfile]
          exact loadUnder_put hm hw
        · have hbefore := (hcond.resolve_left hdir).resolve_left (not_not.2 hw)
          obtain hfile | rfl := ((ht.now.renamed hdir).leaves_iff file).1 hfile
          · exact hbefore _ ⟨file, hfile, rfl⟩
          · exact loadUnder_put hm hw
      | some step =>
        rw [hstop] at ht
        obtain ⟨hrun, ht⟩ := ht
        rw [hrun]
        exact ⟨fun d' hd' => crashSafe_of_safe hm hw (ht.past d' hd'), rfl,
          fun later => answers_congr later m _ _⟩
    · obtain ⟨answer, hne, hanswer⟩ := mergeSigned_of_not_wins hw
      rw [hanswer]
      have hsame : ∀ d' ∈ [d], CrashSafe m entry d d' :=
        List.forall_mem_singleton.2 fun _ hres => .inl hres
      cases answer with
      | ok outcome => exact ⟨hsame, fun hout => absurd (congrArg Except.ok hout) hne⟩
      | error e => exact ⟨hsame, rfl, fun _ => rfl⟩

end

section Example

attribute [local instance] Blake3.polynomial Roster.polynomialSignature

open Roster

/-- Node 5 under key 7, with an empty roster. -/
def freshNode (rosterPath : Path) : Inner where
  ourNodeId := 5
  adminPubkey := some 7
  rosterPath
  seeds := []
  roster := .empty
  effective := .empty
  allowlist := ∅
  changed := 0
  mergeSerial := none

/-- A disk without a roster file. -/
def blankDisk : Disk RosterFile := { entry := { contents := .missing, synced := true } }

theorem freshNode_wins (rosterPath : Path) : (freshNode rosterPath).Wins (signedEntry 1 .add) := by
  refine ⟨7, rfl, by decide +kernel, ?_⟩
  rw [Lww.rankAt_eq_bot.2 rfl]
  exact WithBot.bot_lt_coe _

theorem freshNode_verified (rosterPath : Path) : (freshNode rosterPath).Verified :=
  fun _ _ _ _ hget => nomatch hget

/-- A roster file in a directory of its own, and a disk that refuses the rename. -/
theorem mergeSigned_atomic_in_dir :
    MergeAtomic (freshNode "/var/lib/replicore/a.roster.json".toList) blankDisk (signedEntry 1 .add)
      fun step => step == .rename := by
  have hdir : (rosterDir (freshNode
      "/var/lib/replicore/a.roster.json".toList).rosterPath).isSome := by decide +kernel
  exact ((mergeSigned_atomic_iff (freshNode_verified _)).2 (.inl hdir)).1 _

/-- **An applied merge is lost**: the roster file of a database `a.db` in the working directory is
renamed into place, and nothing syncs that directory. -/
theorem applied_merge_lost :
    ¬ MergeAtomic (freshNode "a.roster.json".toList) blankDisk (signedEntry 1 .add)
      fun _ => false := by
  have hdir : ¬ (rosterDir (freshNode "a.roster.json".toList).rosterPath).isSome := by
    decide +kernel
  have hbefore : Yields (freshNode "a.roster.json".toList) blankDisk (.ok .empty) :=
    ⟨.missing, ⟨_, List.mem_cons_self, fun _ => rfl⟩, rfl⟩
  refine not_atomic_of_yields hdir (freshNode_wins _) hbefore fun hsame => ?_
  have hnone : Roster.get .empty (signedEntry 1 .add).nodeId = none := rfl
  rw [Except.ok.inj hsame, Roster.get_put_self] at hnone
  cases hnone

end Example

end Members

end Replicore
