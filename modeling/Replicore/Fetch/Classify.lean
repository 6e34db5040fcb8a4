import Replicore.Fetch.Basic

/-!
# The verdict of a fetch

A fetch that fails is retried or given up for good, and the difference is one flag: "content
unavailable from every live peer" is permanent, "peers flaked" is not.  The loop over the candidates
remembers that one of them has answered "not found", and forgets that another has failed; so among
peers that do not have the content, one that flakes while it holds the content does not count
(`askCandidates_classified_iff`).

The verdict over a whole file adds no such mistake: the tasks may complete in any order, success
means that every chunk is present, and a permanent error is that of some chunk
(`fetchFileChunks_ok`, `fetchFileChunks_permanent`).
-/

namespace Replicore

open Bytes

/-! ### The candidates -/

section

variable {π α β σ : Type} {ask : π → Except FetchError (Option α)}
  {take : α → σ → Except FetchError β × σ}

/-- The candidate has what is asked for. -/
def Delivers (ask : π → Except FetchError (Option α)) (p : π) : Prop := ∃ a, ask p = .ok (some a)

/-- The candidate says that it does not have it. -/
def AnswersNotFound (ask : π → Except FetchError (Option α)) (p : π) : Prop := ask p = .ok none

/-- The candidate fails in any other way: it vanishes, or it lies. -/
def Flakes (ask : π → Except FetchError (Option α)) (p : π) : Prop := ∃ e, ask p = .error e

/-- Nobody delivers; some say that they do not have it and some fail. -/
def Mixed (ask : π → Except FetchError (Option α)) (candidates : List π) : Prop :=
  (∀ p ∈ candidates, ¬ Delivers ask p) ∧ (∃ p ∈ candidates, AnswersNotFound ask p) ∧
    ∃ p ∈ candidates, Flakes ask p

/-- The classification of failures: "unavailable" only if there was somebody to ask and everybody
has answered "not found"; and if the candidates were asked, none has delivered and one has failed,
the result is transient. -/
structure Classified (asked : Prop) (ask : π → Except FetchError (Option α)) (candidates : List π)
    (result : Except FetchError β) : Prop where
  permanent : result = .error .unavailable →
    candidates ≠ [] ∧ ∀ p ∈ candidates, AnswersNotFound ask p
  transient : asked → (∃ p ∈ candidates, Flakes ask p) → (∀ p ∈ candidates, ¬ Delivers ask p) →
    ∃ e, result = .error e ∧ e.isPermanent = false

theorem peer_cases (ask : π → Except FetchError (Option α)) (p : π) :
    Delivers ask p ∨ AnswersNotFound ask p ∨ Flakes ask p := by
  cases h : ask p with
  | error e => exact .inr (.inr ⟨e, h⟩)
  | ok r =>
    cases r with
    | none => exact .inr (.inl h)
    | some a => exact .inl ⟨a, h⟩

/-- Once a candidate delivers, what it has delivered is taken. -/
theorem tryPeers_of_delivers {ps : List π} (h : ∃ p ∈ ps, Delivers ask p) (anyNotFound : Bool)
    (s : σ) : ∃ p ∈ ps, ∃ a, ask p = .ok (some a) ∧
      tryPeers ask take anyNotFound ps s = take a s := by
  induction ps generalizing anyNotFound with
  | nil =>
    obtain ⟨p, hp, -⟩ := h
    cases hp
  | cons p ps ih =>
    have hrest : ¬ Delivers ask p → ∃ q ∈ ps, Delivers ask q := by
      intro hnot
      obtain ⟨q, hq, hdel⟩ := h
      rcases List.mem_cons.1 hq with rfl | hq
      · exact absurd hdel hnot
      · exact ⟨q, hq, hdel⟩
    rcases peer_cases ask p with ⟨a, ha⟩ | hnone | ⟨e, he⟩
    · exact ⟨p, List.mem_cons_self, a, ha, by simp only [tryPeers, ha]⟩
    · have hnot : ¬ Delivers ask p := by
        rintro ⟨a, ha⟩
        cases hnone.symm.trans ha
      obtain ⟨q, hq, a, ha, hrun⟩ := ih (hrest hnot) true
      refine ⟨q, List.mem_cons_of_mem _ hq, a, ha, ?_⟩
      rw [AnswersNotFound] at hnone
      simpa only [tryPeers, hnone] using hrun
    · have hnot : ¬ Delivers ask p := by
        rintro ⟨a, ha⟩
        cases he.symm.trans ha
      obtain ⟨q, hq, a, ha, hrun⟩ := ih (hrest hnot) anyNotFound
      refine ⟨q, List.mem_cons_of_mem _ hq, a, ha, ?_⟩
      simpa only [tryPeers, he] using hrun

open Classical in
/-- If nobody delivers, one "not found" decides. -/
theorem tryPeers_of_none {ps : List π} (h : ∀ p ∈ ps, ¬ Delivers ask p) (anyNotFound : Bool)
    (s : σ) : tryPeers ask take anyNotFound ps s =
      (.error (if anyNotFound = true ∨ ∃ p ∈ ps, AnswersNotFound ask p then .unavailable
        else .noUsablePeer), s) := by
  induction ps generalizing anyNotFound with
  | nil => simp [tryPeers]
  | cons p ps ih =>
    have hps : ∀ q ∈ ps, ¬ Delivers ask q := fun q hq => h q (List.mem_cons_of_mem _ hq)
    rcases peer_cases ask p with hdel | hnone | ⟨e, he⟩
    · exact absurd hdel (h p List.mem_cons_self)
    · have hnone' : ask p = .ok none := hnone
      simp only [tryPeers, hnone', ih hps]
      rw [if_pos (.inl trivial), if_pos (.inr ⟨p, List.mem_cons_self, hnone⟩)]
    · have hnot : ¬ AnswersNotFound ask p := fun hn => by cases he.symm.trans hn
      simp only [tryPeers, he, ih hps, List.mem_cons, exists_eq_or_imp, hnot, false_or]

open Classical in
theorem askCandidates_of_none {candidates : List π} (h : ∀ p ∈ candidates, ¬ Delivers ask p)
    (s : σ) : askCandidates ask take candidates s =
      (.error (if ∃ p ∈ candidates, AnswersNotFound ask p then .unavailable else .noUsablePeer),
        s) := by
  unfold askCandidates
  cases candidates with
  | nil => simp
  | cons p ps =>
    rw [if_neg (by simp), tryPeers_of_none h]
    simp

theorem askCandidates_of_delivers {candidates : List π} (h : ∃ p ∈ candidates, Delivers ask p)
    (s : σ) : ∃ p ∈ candidates, ∃ a, ask p = .ok (some a) ∧
      askCandidates ask take candidates s = take a s := by
  have hne : candidates.isEmpty = false := by
    obtain ⟨p, hp, -⟩ := h
    exact List.isEmpty_eq_false_iff.2 (List.ne_nil_of_mem hp)
  rw [askCandidates, hne]
  exact tryPeers_of_delivers h false s

/-- Failures of the candidates are classified as they should be, except where the answers are
mixed. -/
theorem askCandidates_classified_iff {candidates : List π}
    (htake : ∀ a s, (take a s).1 ≠ .error .unavailable) (s : σ) :
    Classified True ask candidates (askCandidates ask take candidates s).1 ↔
      ¬ Mixed ask candidates := by
  constructor
  · rintro ⟨-, htransient⟩ ⟨hnone, hnotFound, hflakes⟩
    obtain ⟨e, he, hperm⟩ := htransient trivial hflakes hnone
    rw [askCandidates_of_none hnone, if_pos hnotFound] at he
    cases he
    cases hperm
  · intro hmixed
    by_cases hdel : ∃ p ∈ candidates, Delivers ask p
    · obtain ⟨p, -, a, -, hrun⟩ := askCandidates_of_delivers hdel s
      rw [hrun]
      refine ⟨fun hun => absurd hun (htake a s), fun _ _ hnone => ?_⟩
      obtain ⟨q, hq, hq'⟩ := hdel
      exact absurd hq' (hnone q hq)
    · have hnone : ∀ p ∈ candidates, ¬ Delivers ask p := fun p hp hp' => hdel ⟨p, hp, hp'⟩
      rw [askCandidates_of_none hnone]
      split_ifs with hnotFound
      · have hall : ∀ p ∈ candidates, ¬ Flakes ask p := fun p hp hp' =>
          hmixed ⟨hnone, hnotFound, p, hp, hp'⟩
        refine ⟨fun _ => ⟨?_, fun p hp => ?_⟩, ?_⟩
        · obtain ⟨p, hp, -⟩ := hnotFound
          exact List.ne_nil_of_mem hp
        · exact ((peer_cases ask p).resolve_left (hnone p hp)).resolve_right (hall p hp)
        · rintro - ⟨p, hp, hp'⟩
          exact absurd hp' (hall p hp)
      · exact ⟨nofun, fun _ _ _ => ⟨_, rfl, rfl⟩⟩

/-- A result that is never "unavailable" where nobody was asked. -/
theorem classified_of_not_asked {candidates : List π} {asked : Prop}
    {result : Except FetchError β} (hasked : ¬ asked) (h : result ≠ .error .unavailable) :
    Classified asked ask candidates result :=
  ⟨fun hun => absurd hun h, fun ha => absurd ha hasked⟩

theorem classified_congr {asked asked' : Prop} (h : asked ↔ asked') {candidates : List π}
    {result : Except FetchError β} :
    Classified asked ask candidates result ↔ Classified asked' ask candidates result := by
  rw [propext h]

end

/-! ### Manifests and chunks -/

/-- The candidates are asked for a manifest: the local tables do not have it. -/
def AsksManifest (faults : StoreFaults) (contentHash : Hash) (st : Store) : Prop :=
  faults.load = none ∧ st.manifestFor contentHash = none

theorem obtainManifest_classified_iff (limits : FetchLimits) (faults : StoreFaults)
    (contentHash : Hash) (candidates : List (List (Option ManifestResp))) (st : Store) :
    Classified (AsksManifest faults contentHash st) (manifestFromPeer limits contentHash) candidates
        (obtainManifest limits faults contentHash candidates st).1 ↔
      ¬ (AsksManifest faults contentHash st ∧
        Mixed (manifestFromPeer limits contentHash) candidates) := by
  cases hload : faults.load with
  | some e =>
    have hasked : ¬ AsksManifest faults contentHash st := by simp [AsksManifest, hload]
    refine iff_of_true (classified_of_not_asked hasked ?_) fun h => hasked h.1
    simp [obtainManifest, hload]
  | none =>
    cases hlocal : st.manifestFor contentHash with
    | some m =>
      have hasked : ¬ AsksManifest faults contentHash st := by simp [AsksManifest, hlocal]
      refine iff_of_true (classified_of_not_asked hasked ?_) fun h => hasked h.1
      simp [obtainManifest, hload, hlocal]
    | none =>
      have hasked : AsksManifest faults contentHash st := ⟨hload, hlocal⟩
      simp only [hasked, true_and, obtainManifest, hload, hlocal]
      refine askCandidates_classified_iff (fun m st => ?_) st
      cases faults.put with
      | none => nofun
      | some e => nofun

theorem keepWorst_cases (firstErr : Option FetchError) (e : FetchError) :
    keepWorst firstErr e = some e ∨ ∃ prev, firstErr = some prev ∧ keepWorst firstErr e = firstErr := by
  cases firstErr with
  | none => exact .inl rfl
  | some prev =>
    simp only [keepWorst]
    split_ifs
    · exact .inl rfl
    · exact .inr ⟨prev, rfl, rfl⟩

/-- A chunk is missing unless it is present or its hash has been seen. -/
theorem mem_missingChunks (cas : Cas) (seen : List Hash) {chunks : List ChunkEntry} {c : ChunkEntry}
    (hc : c ∈ chunks) :
    c.hash ∈ seen ∨ c.hash ∈ cas ∨ ∃ m ∈ missingChunks cas seen chunks, m.hash = c.hash := by
  induction chunks generalizing seen with
  | nil => cases hc
  | cons x chunks ih =>
    simp only [missingChunks]
    rcases List.mem_cons.1 hc with rfl | hc
    · split_ifs with hseen hcas
      · exact .inl hseen
      · exact .inr (.inl hcas)
      · exact .inr (.inr ⟨c, List.mem_cons_self, rfl⟩)
    · split_ifs with hseen hcas
      · exact ih seen hc
      · rcases ih (x.hash :: seen) hc with hmem | hrest
        · rcases List.mem_cons.1 hmem with heq | hmem
          · exact .inr (.inl (heq ▸ hcas))
          · exact .inl hmem
        · exact .inr hrest
      · rcases ih (x.hash :: seen) hc with hmem | hmem | ⟨m, hm, heq⟩
        · rcases List.mem_cons.1 hmem with heq | hmem
          · exact .inr (.inr ⟨x, List.mem_cons_self, heq.symm⟩)
          · exact .inl hmem
        · exact .inr (.inl hmem)
        · exact .inr (.inr ⟨m, List.mem_cons_of_mem _ hm, heq⟩)

section

variable [Blake3]

theorem fetchOneChunk_classified_iff (limits : FetchLimits) (entry : ChunkEntry) (env : TaskEnv)
    (cas : Cas) :
    Classified (entry.len ≤ limits.maxChunkBytes) (chunkFromPeer entry) env.candidates
        (fetchOneChunk limits entry env cas).1 ↔
      ¬ (entry.len ≤ limits.maxChunkBytes ∧ Mixed (chunkFromPeer entry) env.candidates) := by
  unfold fetchOneChunk
  split_ifs with hlen
  · have hasked : ¬ entry.len ≤ limits.maxChunkBytes := not_le_of_gt hlen
    exact iff_of_true (classified_of_not_asked hasked nofun) fun h => hasked h.1
  · have hasked : entry.len ≤ limits.maxChunkBytes := not_lt.1 hlen
    rw [classified_congr (iff_of_true hasked trivial)]
    simp only [hasked, true_and]
    refine askCandidates_classified_iff (fun bytes cas => ?_) cas
    cases env.put with
    | lost => nofun
    | ran fault =>
      dsimp only
      cases cas.putVerified entry.hash bytes fault with
      | error e => nofun
      | ok cas' => nofun

/-! ### A whole file -/

theorem subset_putVerified {cas cas' : Cas} {h : Hash} {bytes : List Byte}
    {fault : Option CasError} (hput : cas.putVerified h bytes fault = .ok cas') :
    cas ⊆ cas' ∧ h ∈ cas' := by
  unfold Cas.putVerified at hput
  split_ifs at hput with hhash hmem
  · cases hput
    exact ⟨Finset.Subset.refl _, hmem⟩
  · cases fault with
    | some e => cases hput
    | none =>
      cases hput
      exact ⟨Finset.subset_insert h cas, Finset.mem_insert_self h cas⟩

/-- A chunk task only adds to the chunk store; if it succeeds its chunk is there. -/
theorem fetchOneChunk_cas (limits : FetchLimits) (entry : ChunkEntry) (env : TaskEnv) (cas : Cas) :
    cas ⊆ (fetchOneChunk limits entry env cas).2 ∧
      ((fetchOneChunk limits entry env cas).1 = .ok () →
        entry.hash ∈ (fetchOneChunk limits entry env cas).2) := by
  unfold fetchOneChunk
  split_ifs with hlen
  · exact ⟨Finset.Subset.refl _, nofun⟩
  · by_cases hdel : ∃ p ∈ env.candidates, Delivers (chunkFromPeer entry) p
    · obtain ⟨p, -, bytes, -, hrun⟩ := askCandidates_of_delivers hdel cas
      rw [hrun]
      cases env.put with
      | lost => exact ⟨Finset.Subset.refl _, nofun⟩
      | ran fault =>
        dsimp only
        cases hput : cas.putVerified entry.hash bytes fault with
        | error e => exact ⟨Finset.Subset.refl _, nofun⟩
        | ok cas' =>
          obtain ⟨hsub, hmem⟩ := subset_putVerified hput
          exact ⟨hsub, fun _ => hmem⟩
    · have hnone : ∀ p ∈ env.candidates, ¬ Delivers (chunkFromPeer entry) p := fun p hp hp' =>
        hdel ⟨p, hp, hp'⟩
      rw [askCandidates_of_none hnone]
      exact ⟨Finset.Subset.refl _, nofun⟩

/-- The task fails for good, whatever the chunk store holds when it runs. -/
def FailsPermanently (limits : FetchLimits) (task : ChunkEntry × TaskEnv) : Prop :=
  ∃ e : FetchError, e.isPermanent = true ∧
    ∀ cas, (fetchOneChunk limits task.1 task.2 cas).1 = .error e

/-- Whether a task fails for good does not depend on the chunk store. -/
theorem failsPermanently_of_error {limits : FetchLimits} {task : ChunkEntry × TaskEnv} {cas : Cas}
    {e : FetchError} (h : (fetchOneChunk limits task.1 task.2 cas).1 = .error e)
    (hperm : e.isPermanent = true) : FailsPermanently limits task := by
  refine ⟨e, hperm, ?_⟩
  unfold fetchOneChunk at h ⊢
  split_ifs at h ⊢ with hlen
  · exact fun _ => h
  · by_cases hdel : ∃ p ∈ task.2.candidates, Delivers (chunkFromPeer task.1) p
    · -- what a peer has delivered fails to be stored for transient reasons only
      obtain ⟨p, -, bytes, -, hrun⟩ := askCandidates_of_delivers hdel cas
      rw [hrun] at h
      exfalso
      cases hput : task.2.put with
      | lost =>
        simp only [hput] at h
        cases h
        cases hperm
      | ran fault =>
        simp only [hput] at h
        cases hres : cas.putVerified task.1.hash bytes fault with
        | error e' =>
          simp only [hres] at h
          cases h
          cases hperm
        | ok cas' =>
          simp only [hres] at h
          cases h
    · have hnone : ∀ p ∈ task.2.candidates, ¬ Delivers (chunkFromPeer task.1) p := fun p hp hp' =>
        hdel ⟨p, hp, hp'⟩
      intro cas'
      rw [askCandidates_of_none hnone] at h ⊢
      exact h

/-- What holds while the tasks are joined: the chunk store only grows; without an error every chunk
joined so far is present; and a permanent error is that of a task. -/
structure Joined (limits : FetchLimits) (cas : Cas) (tasks : List (ChunkEntry × TaskEnv))
    (s : Option FetchError × Cas) : Prop where
  grows : cas ⊆ s.2
  present : s.1 = none → ∀ t ∈ tasks, t.1.hash ∈ s.2
  permanent : ∀ e, s.1 = some e → e.isPermanent = true → ∃ t ∈ tasks, FailsPermanently limits t

theorem Joined.step {limits : FetchLimits} {cas : Cas} {tasks : List (ChunkEntry × TaskEnv)}
    {s : Option FetchError × Cas} (h : Joined limits cas tasks s) (t : ChunkEntry × TaskEnv) :
    Joined limits cas (tasks ++ [t]) (joinNext limits s t) := by
  obtain ⟨hsub, hmem⟩ := fetchOneChunk_cas limits t.1 t.2 s.2
  have hold : ∀ e, s.1 = some e → e.isPermanent = true →
      ∃ x ∈ tasks ++ [t], FailsPermanently limits x := by
    intro e he hperm
    obtain ⟨x, hx, hfail⟩ := h.permanent e he hperm
    exact ⟨x, List.mem_append_left _ hx, hfail⟩
  simp only [joinNext]
  split_ifs with hlost
  · refine ⟨h.grows.trans hsub, fun hnone => ?_, fun e he hperm => ?_⟩
    · cases hs : s.1 <;> simp [hs] at hnone
    · cases hs : s.1 with
      | none =>
        simp only [hs, Option.none_or, Option.some.injEq] at he
        subst he
        cases hperm
      | some prev =>
        simp only [hs, Option.some_or, Option.some.injEq] at he
        subst he
        exact hold prev hs hperm
  · cases hrun : (fetchOneChunk limits t.1 t.2 s.2).1 with
    | ok u =>
      refine ⟨h.grows.trans hsub, fun hnone x hx => ?_, hold⟩
      rcases List.mem_append.1 hx with hx | hx
      · exact hsub (h.present hnone x hx)
      · rw [List.mem_singleton.1 hx]
        exact hmem hrun
    | error e =>
      refine ⟨h.grows.trans hsub, fun hnone => ?_, fun e' he' hperm => ?_⟩
      · rcases keepWorst_cases s.1 e with hk | ⟨prev, hs, hk⟩
        · cases hk.symm.trans hnone
        · cases (hs.symm.trans hk.symm).trans hnone
      · rcases keepWorst_cases s.1 e with hk | ⟨prev, hs, hk⟩
        · obtain rfl := Option.some.inj (hk.symm.trans he')
          exact ⟨t, by simp, failsPermanently_of_error hrun hperm⟩
        · exact hold e' (hk.symm.trans he') hperm

theorem Joined.foldl {limits : FetchLimits} {cas : Cas} {done : List (ChunkEntry × TaskEnv)}
    {s : Option FetchError × Cas} (h : Joined limits cas done s)
    (tasks : List (ChunkEntry × TaskEnv)) :
    Joined limits cas (done ++ tasks) (tasks.foldl (joinNext limits) s) := by
  induction tasks generalizing done s with
  | nil => simpa using h
  | cons t tasks ih => simpa using ih (h.step t)

theorem joined_all (limits : FetchLimits) (cas : Cas) (tasks : List (ChunkEntry × TaskEnv)) :
    Joined limits cas tasks (tasks.foldl (joinNext limits) (none, cas)) := by
  have hnone : Joined limits cas [] (none, cas) := ⟨Finset.Subset.refl _, by simp, by simp⟩
  simpa using hnone.foldl tasks

theorem fetchFileChunks_ok {limits : FetchLimits} {manifest : Manifest} {cas : Cas}
    {order : Completion (missingChunks cas [] manifest.chunks)}
    (h : (fetchFileChunks limits manifest cas order).1 = .ok ()) :
    ∀ c ∈ manifest.chunks, c.hash ∈ (fetchFileChunks limits manifest cas order).2 := by
  have hall := joined_all limits cas order.tasks
  simp only [fetchFileChunks] at h ⊢
  cases hs : (order.tasks.foldl (joinNext limits) (none, cas)).1 with
  | some e =>
    rw [hs] at h
    cases h
  | none =>
    intro c hc
    rcases mem_missingChunks cas [] hc with hseen | hcas | ⟨m, hm, heq⟩
    · cases hseen
    · exact hall.grows hcas
    · obtain ⟨t, ht, rfl⟩ := List.mem_map.1 (order.perm.mem_iff.2 hm)
      rw [← heq]
      exact hall.present hs t ht

theorem fetchFileChunks_permanent {limits : FetchLimits} {manifest : Manifest} {cas : Cas}
    {order : Completion (missingChunks cas [] manifest.chunks)} {e : FetchError}
    (h : (fetchFileChunks limits manifest cas order).1 = .error e) (hperm : e.isPermanent = true) :
    ∃ t ∈ order.tasks, FailsPermanently limits t := by
  have hall := joined_all limits cas order.tasks
  simp only [fetchFileChunks] at h
  cases hs : (order.tasks.foldl (joinNext limits) (none, cas)).1 with
  | none =>
    rw [hs] at h
    cases h
  | some e' =>
    rw [hs] at h
    cases h
    exact hall.permanent e hs hperm

/-- **Fetch failures are classified.**  For every list of candidates and whatever each of them
answers, the failures of `obtainManifest` and of `fetchOneChunk` are classified if and only if the
candidates were not asked or their answers are not mixed; and for every manifest and every order in
which its tasks complete, `fetchFileChunks` succeeds only with every chunk present, and fails for
good only if a chunk does. -/
theorem fetch_classified_iff (limits : FetchLimits) :
    (∀ faults contentHash candidates st,
      Classified (AsksManifest faults contentHash st) (manifestFromPeer limits contentHash) candidates
          (obtainManifest limits faults contentHash candidates st).1 ↔
        ¬ (AsksManifest faults contentHash st ∧
          Mixed (manifestFromPeer limits contentHash) candidates)) ∧
    (∀ entry env cas,
      Classified (entry.len ≤ limits.maxChunkBytes) (chunkFromPeer entry) env.candidates
          (fetchOneChunk limits entry env cas).1 ↔
        ¬ (entry.len ≤ limits.maxChunkBytes ∧ Mixed (chunkFromPeer entry) env.candidates)) ∧
    ∀ manifest cas (order : Completion (missingChunks cas [] manifest.chunks)),
      ((fetchFileChunks limits manifest cas order).1 = .ok () →
        ∀ c ∈ manifest.chunks, c.hash ∈ (fetchFileChunks limits manifest cas order).2) ∧
      ∀ e, (fetchFileChunks limits manifest cas order).1 = .error e → e.isPermanent = true →
        ∃ t ∈ order.tasks, FailsPermanently limits t :=
  ⟨obtainManifest_classified_iff limits, fetchOneChunk_classified_iff limits,
    fun _ _ _ => ⟨fetchFileChunks_ok, fun _ => fetchFileChunks_permanent⟩⟩

end

section Example

attribute [local instance] Blake3.polynomial

/-- Two candidates: one does not have the chunk, the other is gone when it is asked. -/
def oneNotFoundOneGone : TaskEnv where
  candidates := [some ⟨false, 0, []⟩, none]
  put := .ran none
  lost := false

/-- A chunk that one peer does not have and another, which flakes, may have is given up for good. -/
theorem flaky_peer_is_permanent :
    ¬ ∀ (limits : FetchLimits) (entry : ChunkEntry) (env : TaskEnv) (cas : Cas),
      Classified (entry.len ≤ limits.maxChunkBytes) (chunkFromPeer entry) env.candidates
        (fetchOneChunk limits entry env cas).1 := by
  intro hall
  have hrun : (fetchOneChunk ⟨4096, 4096⟩ ⟨7, 1⟩ oneNotFoundOneGone ∅).1 = .error .unavailable := rfl
  obtain ⟨-, hnotFound⟩ := (hall ⟨4096, 4096⟩ ⟨7, 1⟩ oneNotFoundOneGone ∅).permanent hrun
  have hgone := hnotFound none (by simp [oneNotFoundOneGone])
  cases hgone

end Example

end Replicore
