import Replicore.Membership.Converge
import Replicore.Membership.Handle

/-!
# Merges and reloads

`merge_signed` calls exclude each other through `merge_serial`; `apply_reload` does not take that
lock, and adopts whatever roster file the candidate names.  So an applied entry can be lost to a
reload that read the file before it was saved (`reload_loses_applied_removal`).

`Daemon.Exclusive` is what is missing: a reload runs by itself, and the file it names has, under its
key, what was applied before.  In every run that keeps to it nothing is lost, the roster verifies
and the derived views are those of the roster (`no_lost_update`).
-/

namespace Replicore

open Members

section Holds

variable [Blake3] {r r' : Roster} {e : SignedEntry} {pk : AdminPubKey}

/-- The roster has the entry, or one that supersedes it. -/
def Roster.Holds (r : Roster) (e : SignedEntry) : Prop :=
  ∃ e', r.get e.nodeId = some e' ∧ (e' = e ∨ e.orderKey < e'.orderKey)

/-- The file has the entry, or one that supersedes it, and that verifies. -/
def RosterFile.Holds [Ed25519] (file : RosterFile) (pk : AdminPubKey) (e : SignedEntry) : Prop :=
  ∃ es, file = .rows es ∧ ∃ e' ∈ es, e'.nodeId = e.nodeId ∧ e'.verify pk ∧
    (e' = e ∨ e.orderKey < e'.orderKey)

instance : Decidable (r.Holds e) :=
  decidable_of_iff ((r.get e.nodeId).any fun e' => e' = e ∨ e.orderKey < e'.orderKey) (by
    simp [Roster.Holds, Option.any_eq_true])

theorem Roster.Holds.trans (h : r'.Holds e) (hr : ∀ n e', r'.get n = some e' → r.Holds e') :
    r.Holds e := by
  obtain ⟨e', he', heq | hlt⟩ := h
  · obtain rfl := heq
    exact hr _ e' he'
  · obtain ⟨e'', he'', h⟩ := hr _ e' he'
    have hn : e'.nodeId = e.nodeId := r'.keyed _ _ he'
    refine ⟨e'', hn ▸ he'', .inr ?_⟩
    obtain rfl | hlt' := h
    · exact hlt
    · exact hlt.trans hlt'

theorem Roster.holds_of_get {n : NodeId} (h : r.get n = some e) : r.Holds e := by
  have hn : e.nodeId = n := r.keyed n e h
  exact ⟨e, hn ▸ h, .inl rfl⟩

/-- Putting an entry above the one that is there gives nothing up. -/
theorem Roster.holds_put {n : NodeId} {e' : SignedEntry} (h : r.get n = some e')
    (hlt : r.rankAt SignedEntry.orderKey e.nodeId < ↑e.orderKey) : Roster.Holds (r.put e) e' := by
  have hn : e'.nodeId = n := r.keyed n e' h
  by_cases hne : e.nodeId = n
  · refine ⟨e, by rw [hn, ← hne]; exact r.get_put_self e, .inr ?_⟩
    rw [hne, Lww.rankAt_of_get? h] at hlt
    exact WithBot.coe_lt_coe.1 hlt
  · exact ⟨e', by rw [hn, r.get_put_of_ne hne]; exact h, .inl rfl⟩

end Holds

namespace Members

/-- The call is past its first step. -/
def Call.Begun : Call → Prop
  | .merge _ .lock => False
  | .reload _ .load => False
  | _ => True

/-- The call is a reload. -/
def Call.IsReload : Call → Prop
  | .reload _ _ => True
  | .merge _ _ => False

instance : DecidablePred Call.Begun
  | .merge _ .lock | .reload _ .load => .isFalse id
  | .merge _ .stage | .merge _ (.verify _) | .merge _ (.path _) | .merge _ (.save _ _)
  | .merge _ (.commit _) | .merge _ (.recompute _) | .merge _ .notify
  | .reload _ (.adminKey _) | .reload _ (.path _) | .reload _ (.seeds _) | .reload _ (.roster _)
  | .reload _ (.recompute _) | .reload _ .notify => .isTrue trivial

instance : DecidablePred Call.IsReload
  | .reload _ _ => .isTrue trivial
  | .merge _ _ => .isFalse id

/-- The views derived from the roster are up to date. -/
def Inner.Derived (m : Inner) : Prop :=
  m.effective = effectiveOf m.ourNodeId m.seeds m.roster ∧ m.allowlist = fingerprints m.effective

/-- The local variables of a running `recompute` are up to date. -/
def RecomputePc.UpToDate (m : Inner) : RecomputePc → Prop
  | .seeds => True
  | .roster eff => eff = seedPeers m.seeds
  | .effective eff => eff = effectiveOf m.ourNodeId m.seeds m.roster
  | .allowlist allow =>
    m.effective = effectiveOf m.ourNodeId m.seeds m.roster ∧ allow = fingerprints m.effective

/-- Nobody changes the roster or the seeds under a running `recompute`: one more step of it keeps
its variables up to date, and the last one the views. -/
theorem RecomputePc.UpToDate.step {m : Inner} {pc : RecomputePc} (h : pc.UpToDate m) :
    match (m.recompute pc).2 with
    | some pc' => pc'.UpToDate (m.recompute pc).1
    | none => (m.recompute pc).1.Derived := by
  cases pc with
  | seeds => rfl
  | roster eff => exact congrArg (overlay m.ourNodeId · m.roster) h
  | effective eff => exact ⟨h, rfl⟩
  | allowlist allow => exact h

theorem recompute_frame (m : Inner) (pc : RecomputePc) :
    (m.recompute pc).1.roster = m.roster ∧ (m.recompute pc).1.adminPubkey = m.adminPubkey ∧
      (m.recompute pc).1.rosterPath = m.rosterPath ∧
      (m.recompute pc).1.mergeSerial = m.mergeSerial := by
  cases pc <;> exact ⟨rfl, rfl, rfl, rfl⟩

namespace Daemon

section Runs

variable [Blake3] [Ed25519]

/-- What the roster the reload would load has to have, for nothing to be lost: every applied entry
that verifies under the reload's key, or one that supersedes it. -/
def FileKeeps (files : OrdMap Path RosterFile) (applied : List SignedEntry) (cfg : Config) : Prop :=
  ∀ e ∈ applied, cfg.adminPubkey.any e.verify → ∀ r ∈ (loadRoster files cfg).toOption, r.Holds e

instance (files : OrdMap Path RosterFile) (applied : List SignedEntry) (cfg : Config) :
    Decidable (FileKeeps files applied cfg) := by
  unfold FileKeeps; infer_instance

/-- The call may take its next step: a reload begins when no other call has begun, and on a file
that keeps what was applied; and no merge takes the lock during a reload. -/
def MayStep (d : Daemon) : Call → Prop
  | .merge _ .lock => ∀ c ∈ d.calls.entries, c.2.Begun → ¬ c.2.IsReload
  | .reload cfg .load =>
    (∀ c ∈ d.calls.entries, ¬ c.2.Begun) ∧ FileKeeps d.files d.applied cfg
  | _ => True

/-- Reloads run by themselves. -/
def Exclusive (d : Daemon) : Event → Prop
  | .step t _ => ∀ c ∈ d.calls.get? t, d.MayStep c
  | _ => True

instance (d : Daemon) : DecidablePred d.MayStep := fun c => by
  unfold MayStep
  split <;> infer_instance

instance (d : Daemon) : DecidablePred d.Exclusive
  | .step t _ => inferInstanceAs (Decidable (∀ c ∈ d.calls.get? t, d.MayStep c))
  | .mergeSigned _ _ | .applyReload _ _ => .isTrue trivial

/-- The durable half of the state: the roster verifies, loading the file gives it or more, and it
holds every applied entry that verifies. -/
structure Durable (m : Inner) (files : OrdMap Path RosterFile) (applied : List SignedEntry) :
    Prop where
  verified : ∀ n e, m.roster.get n = some e → ∃ pk, m.adminPubkey = some pk ∧ e.verify pk
  onFile : ∀ pk, m.adminPubkey = some pk → ∃ r dropped,
    Roster.load (fileAt files m.rosterPath) pk = .ok (r, dropped) ∧
      ∀ n e, m.roster.get n = some e → r.Holds e
  kept : ∀ pk, m.adminPubkey = some pk → ∀ e ∈ applied, e.verify pk → m.roster.Holds e

/-- The staged roster of a merge in progress. -/
structure Staged (m : Inner) (entry : SignedEntry) (staged : Roster) : Prop where
  verified : ∃ pk, m.adminPubkey = some pk ∧ entry.verify pk
  eq : staged = m.roster.put entry
  above : m.roster.rankAt SignedEntry.orderKey entry.nodeId < ↑entry.orderKey

/-- The roster of a reload in progress. -/
structure Loaded (files : OrdMap Path RosterFile) (applied : List SignedEntry) (cfg : Config)
    (r : Roster) : Prop where
  eq : loadRoster files cfg = .ok r
  keeps : ∀ e ∈ applied, cfg.adminPubkey.any e.verify → r.Holds e

/-- What a call that has begun, and runs by itself, knows at each of its steps. -/
def During (m : Inner) (files : OrdMap Path RosterFile) (applied : List SignedEntry) : Call → Prop
  | .merge _ .lock => True
  | .merge _ .stage => Durable m files applied ∧ m.Derived
  | .merge _ (.verify staged) => Durable m files applied ∧ m.Derived ∧ staged = m.roster
  | .merge entry (.path staged) => Durable m files applied ∧ m.Derived ∧ Staged m entry staged
  | .merge entry (.save staged path) =>
    Durable m files applied ∧ m.Derived ∧ Staged m entry staged ∧ path = m.rosterPath
  | .merge entry (.commit staged) =>
    Durable m files applied ∧ Staged m entry staged ∧ fileAt files m.rosterPath = staged.save
  | .merge entry (.recompute pc) =>
    Durable m files applied ∧ m.roster.Holds entry ∧ pc.UpToDate m
  | .merge entry .notify => Durable m files applied ∧ m.roster.Holds entry ∧ m.Derived
  | .reload _ .load => True
  | .reload cfg (.adminKey r) => Loaded files applied cfg r
  | .reload cfg (.path r) => Loaded files applied cfg r ∧ m.adminPubkey = cfg.adminPubkey
  | .reload cfg (.seeds r) | .reload cfg (.roster r) =>
    Loaded files applied cfg r ∧ m.adminPubkey = cfg.adminPubkey ∧ m.rosterPath = cfg.rosterPath
  | .reload _ (.recompute pc) => Durable m files applied ∧ pc.UpToDate m
  | .reload _ .notify => Durable m files applied ∧ m.Derived

/-- The invariant of a run that keeps reloads apart: at most one call has begun, and it finds the
state as it left it; without one the state is at rest. -/
structure Inv (d : Daemon) : Prop where
  alone : ∀ t c t' c', d.calls.get? t = some c → d.calls.get? t' = some c' → c.Begun → c'.Begun →
    t = t'
  serial : ∀ t entry pc, d.calls.get? t = some (.merge entry pc) →
    (Call.merge entry pc).Begun → d.inner.mergeSerial = some t
  during : ∀ t c, d.calls.get? t = some c → c.Begun → During d.inner d.files d.applied c
  rest : (∀ t c, d.calls.get? t = some c → ¬ c.Begun) →
    Durable d.inner d.files d.applied ∧ d.inner.Derived

variable {d d' : Daemon} {t : ℕ} {m : Inner} {files : OrdMap Path RosterFile}
  {applied : List SignedEntry}

namespace Inv

/-- The one call that has begun, or begins, goes on. -/
theorem goto {c : Call} (honly : ∀ t' c', d.calls.get? t' = some c' → c'.Begun → t' = t)
    (hcalls : d'.calls = d.calls.insert t c) (hbegun : c.Begun)
    (hserial : ∀ entry pc, c = .merge entry pc → d'.inner.mergeSerial = some t)
    (hduring : During d'.inner d'.files d'.applied c) : Inv d' := by
  have hget : ∀ t' c', d'.calls.get? t' = some c' → c'.Begun → t' = t ∧ c' = c := by
    intro t' c' h hb
    rw [hcalls, OrdMap.get?_insert] at h
    split_ifs at h with heq
    · cases h; exact ⟨heq.symm, rfl⟩
    · exact absurd (honly t' c' h hb).symm heq
  refine ⟨?_, ?_, ?_, ?_⟩
  · intro t₁ c₁ t₂ c₂ h₁ h₂ hb₁ hb₂
    exact (hget t₁ c₁ h₁ hb₁).1.trans (hget t₂ c₂ h₂ hb₂).1.symm
  · intro t' entry pc h hb
    obtain ⟨rfl, hc⟩ := hget t' _ h hb
    exact hserial entry pc hc.symm
  · intro t' c' h hb
    obtain ⟨-, rfl⟩ := hget t' c' h hb
    exact hduring
  · intro h
    exact absurd hbegun (h t c (by rw [hcalls, OrdMap.get?_insert_self]))

/-- The one call that had begun returns. -/
theorem finish (honly : ∀ t' c', d.calls.get? t' = some c' → c'.Begun → t' = t)
    (hcalls : d'.calls = d.calls.erase t)
    (hrest : Durable d'.inner d'.files d'.applied ∧ d'.inner.Derived) : Inv d' := by
  have hnone : ∀ t' c', d'.calls.get? t' = some c' → ¬ c'.Begun := by
    intro t' c' h hb
    rw [hcalls, OrdMap.get?_erase] at h
    split_ifs at h with heq
    exact heq (honly t' c' h hb).symm
  exact ⟨fun t₁ c₁ _ _ h₁ _ hb₁ => absurd hb₁ (hnone t₁ c₁ h₁),
    fun t' _ _ h hb => absurd hb (hnone t' _ h), fun t' c' h hb => absurd hb (hnone t' c' h),
    fun _ => hrest⟩

/-- A call is made. -/
theorem start {c : Call} (h : Inv d) (hc : ¬ c.Begun) (hfree : d.calls.get? t = none) :
    Inv (d.goto t c) := by
  have hget : ∀ t' c', (d.goto t c).calls.get? t' = some c' → c'.Begun →
      d.calls.get? t' = some c' := by
    intro t' c' h' hb
    rw [Daemon.goto, OrdMap.get?_insert] at h'
    split_ifs at h' with heq
    · cases h'; exact absurd hb hc
    · exact h'
  refine ⟨?_, ?_, ?_, ?_⟩
  · intro t₁ c₁ t₂ c₂ h₁ h₂ hb₁ hb₂
    exact h.alone t₁ c₁ t₂ c₂ (hget _ _ h₁ hb₁) (hget _ _ h₂ hb₂) hb₁ hb₂
  · intro t' entry pc h' hb
    exact h.serial t' entry pc (hget _ _ h' hb) hb
  · intro t' c' h' hb
    exact h.during t' c' (hget _ _ h' hb) hb
  · intro hnone
    refine h.rest fun t' c' h' => hnone t' c' ?_
    rw [Daemon.goto, OrdMap.get?_insert_of_ne _ _ (by rintro rfl; rw [hfree] at h'; cases h')]
    exact h'

end Inv

/-! ### What each step does to the durable half -/

section Durable

variable {m' : Inner} {entry : SignedEntry} {staged r : Roster} {cfg : Config}

theorem Durable.congr (h : Durable m files applied) (hr : m'.roster = m.roster)
    (ha : m'.adminPubkey = m.adminPubkey) (hp : m'.rosterPath = m.rosterPath) :
    Durable m' files applied := by
  refine ⟨?_, ?_, ?_⟩
  · rw [hr, ha]; exact h.verified
  · rw [hr, ha, hp]; exact h.onFile
  · rw [hr, ha]; exact h.kept

theorem Durable.recompute (h : Durable m files applied) (pc : RecomputePc) :
    Durable (m.recompute pc).1 files applied :=
  have hf := recompute_frame m pc
  h.congr hf.1 hf.2.1 hf.2.2.1

theorem Durable.cons (h : Durable m files applied) (he : m.roster.Holds entry) :
    Durable m files (entry :: applied) := by
  refine ⟨h.verified, h.onFile, fun pk hpk e hmem hv => ?_⟩
  obtain rfl | hmem := List.mem_cons.1 hmem
  · exact he
  · exact h.kept pk hpk e hmem hv

/-- Staging gives nothing up. -/
theorem Staged.holds (hs : Staged m entry staged) {n : NodeId} {e : SignedEntry}
    (he : m.roster.get n = some e) : staged.Holds e := by
  rw [hs.eq]
  exact Roster.holds_put he hs.above

/-- Every staged entry verifies. -/
theorem Staged.verify (hs : Staged m entry staged) (h : Durable m files applied) {n : NodeId}
    {e : SignedEntry} (he : staged.get n = some e) :
    ∃ pk, m.adminPubkey = some pk ∧ e.verify pk := by
  by_cases hn : entry.nodeId = n
  · subst hn
    rw [hs.eq, Roster.get_put_self] at he
    cases he
    exact hs.verified
  · rw [hs.eq, Roster.get_put_of_ne _ hn] at he
    exact h.verified n e he

/-- Loading the saved roster gives it back. -/
theorem Staged.load_save (hs : Staged m entry staged) (h : Durable m files applied)
    {pk : AdminPubKey} (hpk : m.adminPubkey = some pk) :
    ∃ r dropped, Roster.load staged.save pk = .ok (r, dropped) ∧ ∀ n, r.get n = staged.get n := by
  refine Roster.load_save fun n e he => ?_
  obtain ⟨pk', hpk', hv⟩ := hs.verify h he
  rw [hpk] at hpk'
  cases hpk'
  exact hv

theorem Durable.save (h : Durable m files applied) (hs : Staged m entry staged) :
    Durable m (files.insert m.rosterPath staged.save) applied := by
  refine ⟨h.verified, fun pk hpk => ?_, h.kept⟩
  obtain ⟨r, dropped, hload, hget⟩ := hs.load_save h hpk
  refine ⟨r, dropped, ?_, fun n e he => ?_⟩
  · rw [fileAt_insert_self]
    exact hload
  · obtain ⟨e', he', h'⟩ := hs.holds he
    exact ⟨e', (hget _).trans he', h'⟩

theorem Durable.commit (h : Durable m files applied) (hs : Staged m entry staged)
    (hfile : fileAt files m.rosterPath = staged.save) :
    Durable { m with roster := staged } files applied := by
  refine ⟨fun n e he => hs.verify h he, fun pk hpk => ?_, fun pk hpk e he hv => ?_⟩
  · obtain ⟨r, dropped, hload, hget⟩ := hs.load_save h hpk
    refine ⟨r, dropped, by rw [hfile]; exact hload, fun n e he => ?_⟩
    exact Roster.holds_of_get ((hget n).trans he)
  · exact (h.kept pk hpk e he hv).trans fun n e' he' => hs.holds he'

/-- What a reload adopts is on the file and verifies. -/
theorem Loaded.durable (h : Loaded files applied cfg r) (ha : m.adminPubkey = cfg.adminPubkey)
    (hp : m.rosterPath = cfg.rosterPath) : Durable { m with roster := r } files applied := by
  obtain ⟨heq, hkeeps⟩ := h
  unfold loadRoster at heq
  cases hkey : cfg.adminPubkey with
  | none =>
    rw [hkey] at heq ha
    cases heq
    exact ⟨fun n e he => (by cases he), fun pk hpk => (by cases ha.symm.trans hpk),
      fun pk hpk => (by cases ha.symm.trans hpk)⟩
  | some pk =>
    rw [hkey] at heq ha
    cases hload : Roster.load (fileAt files cfg.rosterPath) pk with
    | error err => simp [hload, Except.map] at heq
    | ok p =>
      obtain ⟨r', dropped⟩ := p
      obtain rfl : r' = r := by simpa [hload, Except.map] using heq
      refine ⟨fun n e he => ⟨pk, ha, (Roster.load_spec hload he).1⟩, ?_, ?_⟩
      · intro pk' hpk'
        obtain rfl : pk = pk' := Option.some.inj (ha.symm.trans hpk')
        exact ⟨r', dropped, by rw [hp]; exact hload, fun n e he => Roster.holds_of_get he⟩
      · intro pk' hpk' e he hv
        obtain rfl : pk = pk' := Option.some.inj (ha.symm.trans hpk')
        exact hkeeps e he (by rw [hkey]; exact hv)

end Durable

/-! ### The steps of a run -/

theorem inv_stepMerge {entry : SignedEntry} {pc : MergePc} (h : Inv d)
    (hget : d.calls.get? t = some (.merge entry pc)) (io : SaveResult)
    (hex : d.Exclusive (.step t io)) : Inv (d.stepMerge t io entry pc) := by
  have honly : (Call.merge entry pc).Begun → ∀ t' c', d.calls.get? t' = some c' → c'.Begun →
      t' = t := fun hb t' c' h' hb' => h.alone t' c' t _ h' hget hb' hb
  cases pc with
  | lock =>
    simp only [stepMerge]
    cases hs : d.inner.mergeSerial with
    | some t' => exact h
    | none =>
      -- no merge has begun, the lock being free, and no reload, by exclusion
      have hnone : ∀ t' c', d.calls.get? t' = some c' → ¬ c'.Begun := by
        intro t' c' h' hb
        cases c' with
        | merge e pc => exact absurd (h.serial t' e pc h' hb) (by simp [hs])
        | reload cfg pc =>
          exact hex _ hget (t', _) (OrdMap.mem_entries.2 h') hb trivial
      refine Inv.goto (fun t' c' h' hb => absurd hb (hnone t' c' h')) rfl trivial (fun _ _ _ => rfl) ?_
      obtain ⟨hdur, hder⟩ := h.rest hnone
      exact ⟨hdur.congr rfl rfl rfl, hder⟩
  | stage =>
    obtain ⟨hdur, hder⟩ := h.during t _ hget trivial
    exact Inv.goto (honly trivial) rfl trivial (fun _ _ _ => h.serial t _ _ hget trivial)
      ⟨hdur, hder, rfl⟩
  | verify staged =>
    obtain ⟨hdur, hder, rfl⟩ := h.during t _ hget trivial
    have hback : Inv (d.unlock t) :=
      Inv.finish (honly trivial) rfl ⟨hdur.congr rfl rfl rfl, hder⟩
    simp only [stepMerge]
    cases hpk : d.inner.adminPubkey with
    | none => exact hback
    | some pk =>
      cases hm : d.inner.roster.mergeEntry entry pk with
      | mk staged outcome =>
        cases outcome with
        | applied =>
          have hspec := Roster.mergeEntry_applied (congrArg Prod.snd hm)
          simp only [hm] at hspec ⊢
          exact Inv.goto (honly trivial) rfl trivial (fun _ _ _ => h.serial t _ _ hget trivial)
            ⟨hdur, hder, ⟨pk, hpk, hspec.1⟩, hspec.2.1, hspec.2.2⟩
        | superseded => simpa only [hm] using hback
        | rejected => simpa only [hm] using hback
  | path staged =>
    obtain ⟨hdur, hder, hs⟩ := h.during t _ hget trivial
    exact Inv.goto (honly trivial) rfl trivial (fun _ _ _ => h.serial t _ _ hget trivial)
      ⟨hdur, hder, hs, rfl⟩
  | save staged path =>
    obtain ⟨hdur, hder, hs, rfl⟩ := h.during t _ hget trivial
    cases io with
    | ok =>
      exact Inv.goto (honly trivial) rfl trivial (fun _ _ _ => h.serial t _ _ hget trivial)
        ⟨hdur.save hs, hs, fileAt_insert_self _ _ _⟩
    | failedBeforeRename => exact Inv.finish (honly trivial) rfl ⟨hdur.congr rfl rfl rfl, hder⟩
    | failedAfterRename =>
      exact Inv.finish (honly trivial) rfl ⟨(hdur.save hs).congr rfl rfl rfl, hder⟩
  | commit staged =>
    obtain ⟨hdur, hs, hfile⟩ := h.during t _ hget trivial
    refine Inv.goto (honly trivial) rfl trivial (fun _ _ _ => h.serial t _ _ hget trivial)
      ⟨hdur.commit hs hfile, ?_, trivial⟩
    exact ⟨entry, by rw [hs.eq]; exact Roster.get_put_self _ _, .inl rfl⟩
  | recompute pc =>
    obtain ⟨hdur, hholds, hup⟩ := h.during t _ hget trivial
    have hframe := recompute_frame d.inner pc
    have hserial : (d.inner.recompute pc).1.mergeSerial = some t :=
      hframe.2.2.2.trans (h.serial t _ _ hget trivial)
    have hholds' : (d.inner.recompute pc).1.roster.Holds entry := by rw [hframe.1]; exact hholds
    have hstep := hup.step
    simp only [stepMerge]
    cases hrest : (d.inner.recompute pc).2 with
    | some pc' =>
      rw [hrest] at hstep
      exact Inv.goto (honly trivial) rfl trivial (fun _ _ _ => hserial)
        ⟨hdur.recompute pc, hholds', hstep⟩
    | none =>
      rw [hrest] at hstep
      exact Inv.goto (honly trivial) rfl trivial (fun _ _ _ => hserial)
        ⟨hdur.recompute pc, hholds', hstep⟩
  | notify =>
    obtain ⟨hdur, hholds, hder⟩ := h.during t _ hget trivial
    exact Inv.finish (honly trivial) rfl ⟨(hdur.cons hholds).congr rfl rfl rfl, hder⟩

/-- **A merge is one step of the roster**: whatever the other calls do meanwhile, the commit merges
the entry into the roster as it is at that moment. -/
theorem roster_commit {entry : SignedEntry} {staged : Roster} (h : Inv d)
    (hget : d.calls.get? t = some (.merge entry (.commit staged))) (io : SaveResult) :
    ∃ pk, d.inner.adminPubkey = some pk ∧
      (d.step (.step t io)).inner.roster = (d.inner.roster.mergeEntry entry pk).1 := by
  obtain ⟨-, hs, -⟩ := h.during t _ hget trivial
  obtain ⟨pk, hpk, hv⟩ := hs.verified
  refine ⟨pk, hpk, ?_⟩
  have hcommit : (d.step (.step t io)).inner.roster = staged := by
    simp only [step, hget]
    rfl
  rw [hcommit, hs.eq, Roster.mergeEntry_fst, if_pos hv]
  obtain ⟨-, hle⟩ | ⟨hput, -⟩ := Lww.merge_cases SignedEntry.orderKey d.inner.roster entry
  · exact absurd hle (not_le_of_gt hs.above)
  · exact hput.symm

theorem inv_stepReload {cfg : Config} {pc : ReloadPc} (h : Inv d)
    (hget : d.calls.get? t = some (.reload cfg pc)) (io : SaveResult)
    (hex : d.Exclusive (.step t io)) : Inv (d.stepReload t cfg pc) := by
  have honly : (Call.reload cfg pc).Begun → ∀ t' c', d.calls.get? t' = some c' → c'.Begun →
      t' = t := fun hb t' c' h' hb' => h.alone t' c' t _ h' hget hb' hb
  cases pc with
  | load =>
    obtain ⟨hquiet, hkeeps⟩ := hex _ hget
    have hnone : ∀ t' c', d.calls.get? t' = some c' → ¬ c'.Begun :=
      fun t' c' h' => hquiet (t', c') (OrdMap.mem_entries.2 h')
    simp only [stepReload]
    cases hload : loadRoster d.files cfg with
    | error err =>
      exact Inv.finish (fun t' c' h' hb => absurd hb (hnone t' c' h')) rfl (h.rest hnone)
    | ok r =>
      refine Inv.goto (fun t' c' h' hb => absurd hb (hnone t' c' h')) rfl trivial
        (fun _ _ hc => by cases hc) ⟨hload, fun e he hv => ?_⟩
      exact hkeeps e he hv r (by simp [hload, Except.toOption])
  | adminKey r =>
    have hl : Loaded d.files d.applied cfg r := h.during t _ hget trivial
    exact Inv.goto (honly trivial) rfl trivial (fun _ _ hc => by cases hc) ⟨hl, rfl⟩
  | path r =>
    obtain ⟨hl, ha⟩ := h.during t _ hget trivial
    exact Inv.goto (honly trivial) rfl trivial (fun _ _ hc => by cases hc) ⟨hl, ha, rfl⟩
  | seeds r =>
    obtain ⟨hl, ha, hp⟩ := h.during t _ hget trivial
    exact Inv.goto (honly trivial) rfl trivial (fun _ _ hc => by cases hc) ⟨hl, ha, hp⟩
  | roster r =>
    obtain ⟨hl, ha, hp⟩ := h.during t _ hget trivial
    exact Inv.goto (honly trivial) rfl trivial (fun _ _ hc => by cases hc)
      ⟨hl.durable ha hp, trivial⟩
  | recompute pc =>
    obtain ⟨hdur, hup⟩ := h.during t _ hget trivial
    have hstep := hup.step
    simp only [stepReload]
    cases hrest : (d.inner.recompute pc).2 with
    | some pc' =>
      rw [hrest] at hstep
      exact Inv.goto (honly trivial) rfl trivial (fun _ _ hc => by cases hc)
        ⟨hdur.recompute pc, hstep⟩
    | none =>
      rw [hrest] at hstep
      exact Inv.goto (honly trivial) rfl trivial (fun _ _ hc => by cases hc)
        ⟨hdur.recompute pc, hstep⟩
  | notify =>
    obtain ⟨hdur, hder⟩ := h.during t _ hget trivial
    exact Inv.finish (honly trivial) rfl ⟨hdur.congr rfl rfl rfl, hder⟩

theorem inv_step (h : Inv d) {ev : Event} (hex : d.Exclusive ev) : Inv (d.step ev) := by
  cases ev with
  | mergeSigned t entry =>
    simp only [step]
    cases hget : d.calls.get? t with
    | none => exact h.start (fun hb => hb) hget
    | some c => exact h
  | applyReload t cfg =>
    simp only [step]
    cases hget : d.calls.get? t with
    | none => exact h.start (fun hb => hb) hget
    | some c => exact h
  | step t io =>
    simp only [step]
    cases hget : d.calls.get? t with
    | none => exact h
    | some c =>
      cases c with
      | merge entry pc => exact inv_stepMerge h hget io hex
      | reload cfg pc => exact inv_stepReload h hget io hex

/-- `Membership::load` leaves the state at rest. -/
theorem inv_start {cfg : Config} {r : Roster} (hload : loadRoster files cfg = .ok r) :
    Inv (start cfg files r) := by
  have hl : Loaded files [] cfg r := ⟨hload, fun e he => by cases he⟩
  refine ⟨?_, ?_, ?_, ?_⟩
  · intro t c t' c' h
    cases h
  · intro t entry pc h
    cases h
  · intro t c h
    cases h
  · intro _
    exact ⟨(hl.durable (m := (start cfg files r).inner) rfl rfl).congr rfl rfl rfl, rfl, rfl⟩

/-- What the loaded roster holds, the file holds. -/
theorem fileHolds_of_load {file : RosterFile} {pk : AdminPubKey} {r : Roster} {dropped : ℕ}
    {e : SignedEntry} (hload : Roster.load file pk = .ok (r, dropped)) (h : r.Holds e) :
    file.Holds pk e := by
  obtain ⟨e', he', h'⟩ := h
  obtain ⟨hv, es, rfl, hmem⟩ := Roster.load_spec hload he'
  exact ⟨es, rfl, e', hmem, r.keyed _ _ he', hv, h'⟩

/-- **No membership update is lost, as long as reloads run by themselves** and on a file that keeps
what was applied, as one that names the same file and key does.  When all calls have returned, every
applied entry that verifies under the current key is in the live roster and in the file, or
superseded there; the roster verifies; the effective set is the seeds overridden by the roster, and
the allow-list has its fingerprints. -/
theorem no_lost_update {cfg : Config} {r : Roster} (hload : loadRoster files cfg = .ok r)
    (hrun : (system.restrict Exclusive).Reach (start cfg files r) d)
    (hdone : ∀ t, d.calls.get? t = none) :
    (∀ pk, d.inner.adminPubkey = some pk → ∀ e ∈ d.applied, e.verify pk →
      d.inner.roster.Holds e ∧ (fileAt d.files d.inner.rosterPath).Holds pk e) ∧
    (∀ n e, d.inner.roster.get n = some e → ∃ pk, d.inner.adminPubkey = some pk ∧ e.verify pk) ∧
    (∀ n, d.inner.effective.get? n =
      peerFor d.inner.ourNodeId d.inner.seeds d.inner.roster n) ∧
    d.inner.allowlist = fingerprints d.inner.effective ∧
    ∀ cfg', cfg'.adminPubkey = d.inner.adminPubkey → cfg'.rosterPath = d.inner.rosterPath →
      FileKeeps d.files d.applied cfg' := by
  have hinv : Inv d := by
    refine hrun.invariant (inv_start hload) fun s ev s' _ hs hstep => ?_
    obtain ⟨hex, -, rfl⟩ := hstep
    exact inv_step hs hex
  obtain ⟨hdur, heff, hallow⟩ := hinv.rest fun t c h => by rw [hdone t] at h; cases h
  -- loading the file again gives every applied entry that verifies, or more
  have hfile : ∀ pk, d.inner.adminPubkey = some pk → ∃ r dropped,
      Roster.load (fileAt d.files d.inner.rosterPath) pk = .ok (r, dropped) ∧
        ∀ e ∈ d.applied, e.verify pk → r.Holds e := by
    intro pk hpk
    obtain ⟨r, dropped, hl, habove⟩ := hdur.onFile pk hpk
    exact ⟨r, dropped, hl, fun e he hv => (hdur.kept pk hpk e he hv).trans habove⟩
  refine ⟨fun pk hpk e he hv => ⟨hdur.kept pk hpk e he hv, ?_⟩, hdur.verified, fun n => ?_, hallow,
    ?_⟩
  · obtain ⟨r, dropped, hl, hholds⟩ := hfile pk hpk
    exact fileHolds_of_load hl (hholds e he hv)
  · rw [heff, get?_effectiveOf]
  · intro cfg' hkey hpath e he hv r' hr'
    rw [hkey] at hv
    obtain ⟨pk, hpk, hv⟩ := Option.any_eq_true _ _ |>.1 hv
    obtain ⟨r, dropped, hl, hholds⟩ := hfile pk hpk
    have hr : loadRoster d.files cfg' = .ok r := by
      simp only [loadRoster, hkey, hpk, hpath, hl]
      rfl
    rw [hr] at hr'
    cases hr'
    exact hholds e he hv

end Runs

section Example

attribute [local instance] Blake3.polynomial Roster.polynomialSignature

open Roster

/-- The configuration of node 5, under key 7. -/
def nodeFive : Config := ⟨5, some 7, "roster".toList, []⟩

/-- A roster file with node 1 added. -/
def withNodeOne : OrdMap Path RosterFile :=
  (OrdMap.empty : OrdMap Path RosterFile).insert "roster".toList (.rows [signedEntry 1 .add])

/-- What it loads as. -/
def rosterOne : Roster := mergeEntries .empty [signedEntry 1 .add] 7

theorem loadRoster_withNodeOne : loadRoster withNodeOne nodeFive = .ok rosterOne := by
  obtain ⟨dropped, h⟩ := load_rows [signedEntry 1 .add] 7
  simp only [loadRoster, nodeFive, withNodeOne, fileAt_insert_self, h, Except.map, rosterOne]

/-- The removal of node 1 is merged, from the first step of the call to the last. -/
def mergeRemoval : List Event :=
  .mergeSigned 1 (signedEntry 2 .remove) :: List.replicate 11 (.step 1 .ok)

/-- A reload reads the file, the removal is merged, and the reload goes on with what it read. -/
def removalDuringReload : List Event :=
  [.applyReload 0 nodeFive, .step 0 .ok] ++ mergeRemoval ++ List.replicate 9 (.step 0 .ok)

/-- The removal is merged, and then the configuration is reloaded. -/
def removalThenReload : List Event :=
  mergeRemoval ++ .applyReload 0 nodeFive :: List.replicate 10 (.step 0 .ok)

/-- The state of node 5 after the events. -/
def nodeFiveAfter (evs : List Event) : Daemon :=
  evs.foldl step (start nodeFive withNodeOne rosterOne)

theorem calls_of_isEmpty {d : Daemon} (h : d.calls.entries.isEmpty) (t : ℕ) :
    d.calls.get? t = none := by
  rw [OrdMap.get?, List.isEmpty_iff.1 h]
  rfl

theorem no_lost_update_removal_then_reload :
    (nodeFiveAfter removalThenReload).applied = [signedEntry 2 .remove] ∧
      (nodeFiveAfter removalThenReload).inner.roster.Holds (signedEntry 2 .remove) := by
  have hreach : (system.restrict Exclusive).Reach (start nodeFive withNodeOne rosterOne)
      (nodeFiveAfter removalThenReload) := by
    rw [system, Lts.restrict_ofFun]
    exact .of_foldl .init (by decide +kernel)
  have happlied : (nodeFiveAfter removalThenReload).applied = [signedEntry 2 .remove] := by
    decide +kernel
  refine ⟨happlied, ?_⟩
  exact ((no_lost_update loadRoster_withNodeOne hreach (calls_of_isEmpty (by decide +kernel))).1 7
    (by decide +kernel) _ (happlied ▸ List.mem_singleton_self _) (by decide +kernel)).1

/-- **A reload loses an applied removal**: it read the file before the removal was saved, and puts
the roster it read in the place of the one with the removal. -/
theorem reload_loses_applied_removal :
    loadRoster withNodeOne nodeFive = .ok rosterOne ∧
    ∃ d, system.Reach (start nodeFive withNodeOne rosterOne) d ∧ (∀ t, d.calls.get? t = none) ∧
      d.inner.adminPubkey = some 7 ∧ signedEntry 2 .remove ∈ d.applied ∧
      (signedEntry 2 .remove).verify 7 ∧ ¬ d.inner.roster.Holds (signedEntry 2 .remove) ∧
      (d.inner.effective.get? 1).isSome := by
  refine ⟨loadRoster_withNodeOne, nodeFiveAfter removalDuringReload, ?_,
    calls_of_isEmpty (by decide +kernel), by decide +kernel, by decide +kernel, by decide +kernel,
    by decide +kernel, by decide +kernel⟩
  exact .of_foldl .init (by decide +kernel)

end Example

end Daemon

end Members

end Replicore
