import Mathlib.Data.Fintype.EquivFin
import Replicore.Lib.Lts
import Replicore.Lib.OrdMap

/-!
# The pause gate

Operator pauses and the free-space guard share one flag (`pause`, `resume`, `guard_free_space` and
the prober of `spawn_policy_tasks` in `net.rs`).  Every access to a flag is one atomic step, and the
steps of the operator, of any number of transfers and of the prober interleave freely.  What a
free-space check finds is an input of the step.

The prober resumes whenever the guard flag is set and space is back, whoever paused.  An operator
pause holds in every state of a run if it never meets a set guard flag, and otherwise the prober
alone comes to lift it (`operator_pause_holds`).

The guard pauses only if its flag was clear, and an operator resume clears the pause flag alone: a
transfer that then finds a shortfall goes on to `await_unpaused` of a running engine.  When that
cannot happen is `guard_parks_short`.
-/

namespace Replicore

namespace PauseGate

/-- Where an iteration of `guard_free_space` stands. -/
inductive GuardPc
  /-- `free_space_ok(incoming)`. -/
  | check
  /-- `guard_paused.swap(true)`. -/
  | swap
  /-- `is_paused()`. -/
  | read
  /-- `pause()`. -/
  | pause
  /-- `await_unpaused()`. -/
  | await
  deriving DecidableEq

/-- Where a tick of the prober stands. -/
inductive ProberPc
  | idle
  /-- `guard_paused.load()`. -/
  | load
  /-- `free_space_ok(1 << 20)`. -/
  | measure
  /-- `guard_paused.store(false)`. -/
  | clear
  /-- `resume()`. -/
  | resume
  deriving DecidableEq

/-- Operator commands. -/
inductive Command
  | pause
  | resume
  deriving DecidableEq

/-- The flags and the tasks that use them. -/
structure Engine where
  paused : Bool := false
  guardPaused : Bool := false
  freespaceTrips : ℕ := 0
  /-- The transfers inside the guard. -/
  transfers : OrdMap ℕ GuardPc := .empty
  prober : ProberPc := .idle
  /-- History: the last command of the operator. -/
  lastCommand : Option Command := none

/-- What can happen.  `spaceOk` is what a free-space check finds, if the step makes one. -/
inductive Event
  | operator (cmd : Command)
  /-- A transfer enters the guard. -/
  | transfer (t : ℕ)
  /-- A transfer takes its next step. -/
  | guard (t : ℕ) (spaceOk : Bool)
  /-- The interval of the prober elapses. -/
  | tick
  /-- The prober takes its next step. -/
  | probe (spaceOk : Bool)

namespace Engine

/-- The transfer `t` goes on at `pc`. -/
def goto (e : Engine) (t : ℕ) (pc : GuardPc) : Engine :=
  { e with transfers := e.transfers.insert t pc }

/-- One step of a transfer in the guard. -/
def guardStep (e : Engine) (t : ℕ) (spaceOk : Bool) : GuardPc → Engine
  | .check => if spaceOk then { e with transfers := e.transfers.erase t } else e.goto t .swap
  | .swap => { e with guardPaused := true }.goto t (if e.guardPaused then .await else .read)
  | .read => e.goto t (if e.paused then .await else .pause)
  | .pause =>
    { e with freespaceTrips := e.freespaceTrips + 1, paused := true }.goto t .await
  | .await => if e.paused then e else e.goto t .check

/-- One step of the prober. -/
def probeStep (e : Engine) (spaceOk : Bool) : Engine :=
  match e.prober with
  | .idle => e
  | .load => { e with prober := if e.guardPaused then .measure else .idle }
  | .measure => { e with prober := if spaceOk then .clear else .idle }
  | .clear => { e with guardPaused := false, prober := .resume }
  | .resume => { e with paused := false, prober := .idle }

/-- One event. -/
def step (e : Engine) : Event → Engine
  | .operator .pause => { e with paused := true, lastCommand := some .pause }
  | .operator .resume => { e with paused := false, lastCommand := some .resume }
  | .transfer t =>
    match e.transfers.get? t with
    | none => e.goto t .check
    | some _ => e
  | .guard t spaceOk =>
    match e.transfers.get? t with
    | some pc => e.guardStep t spaceOk pc
    | none => e
  | .tick => if e.prober = .idle then { e with prober := .load } else e
  | .probe spaceOk => e.probeStep spaceOk

/-- Every order of the steps. -/
def system : Lts Engine Event := .ofFun (fun _ _ => True) step

/-- An operator pause is in force only on a paused engine. -/
def OperatorPauseHolds (e : Engine) : Prop := e.lastCommand = some .pause → e.paused = true

/-- The operator does not pause while the guard flag is set, nor while the prober stands between
clearing it and resuming; and no transfer swaps the flag while an operator pause is in force. -/
def SparesOperator (e : Engine) : Event → Prop
  | .operator .pause => e.guardPaused = false ∧ e.prober ≠ .resume
  | .guard t _ => e.transfers.get? t = some .swap → e.lastCommand ≠ some .pause
  | _ => True

instance SparesOperator.decidable (e : Engine) : ∀ ev, Decidable (e.SparesOperator ev)
  | .operator .pause => inferInstanceAs (Decidable (_ ∧ _))
  | .guard _ _ => inferInstanceAs (Decidable (_ → _))
  | .operator .resume | .transfer _ | .tick | .probe _ => .isTrue trivial

variable {e : Engine}

/-- A transfer never clears the pause flag, nor speaks for the operator. -/
theorem guardStep_paused (t : ℕ) (spaceOk : Bool) (pc : GuardPc) :
    (e.guardStep t spaceOk pc).lastCommand = e.lastCommand ∧
      (e.paused = true → (e.guardStep t spaceOk pc).paused = true) := by
  cases pc with
  | check => simp only [guardStep]; split_ifs <;> exact ⟨rfl, id⟩
  | swap => exact ⟨rfl, id⟩
  | read => exact ⟨rfl, id⟩
  | pause => exact ⟨rfl, fun _ => rfl⟩
  | await => simp only [guardStep]; split_ifs <;> exact ⟨rfl, id⟩

/-- The prober clears the pause flag in its last step only. -/
theorem probeStep_paused (spaceOk : Bool) (h : e.prober ≠ .resume) :
    (e.probeStep spaceOk).lastCommand = e.lastCommand ∧
      (e.probeStep spaceOk).paused = e.paused := by
  unfold probeStep
  cases hpc : e.prober with
  | resume => exact absurd hpc h
  | _ => exact ⟨rfl, rfl⟩

/-- The guard flag is set by the swap, and a transfer never clears it. -/
theorem guardStep_guardPaused (t : ℕ) (spaceOk : Bool) {pc : GuardPc} (h : pc ≠ .swap) :
    (e.guardStep t spaceOk pc).guardPaused = e.guardPaused := by
  cases pc with
  | swap => exact absurd rfl h
  | pause => rfl
  | _ => simp only [guardStep]; split_ifs <;> rfl

theorem guardStep_prober (t : ℕ) (spaceOk : Bool) (pc : GuardPc) :
    (e.guardStep t spaceOk pc).prober = e.prober := by
  cases pc with
  | swap => rfl
  | pause => rfl
  | _ => simp only [guardStep]; split_ifs <;> rfl

/-- An operator pause in force stands on a paused engine with the guard flag clear, and no tick of
the prober is on its way to a resume. -/
structure PauseInv (e : Engine) : Prop where
  holds : e.OperatorPauseHolds
  clear : e.lastCommand = some .pause → e.guardPaused = false
  rests : e.lastCommand = some .pause → e.prober ≠ .resume
  /-- Only the prober clears the guard flag, in the step after these two. -/
  flagged : e.prober = .measure ∨ e.prober = .clear → e.guardPaused = true

namespace PauseInv

theorem init : PauseInv {} :=
  ⟨fun hlast => (by cases hlast), fun hlast => (by cases hlast), fun hlast => (by cases hlast),
    fun hnext => by simp at hnext⟩

theorem guardStep (h : e.PauseInv) {t : ℕ} {pc : GuardPc}
    (hspares : pc = .swap → e.lastCommand ≠ some .pause) (spaceOk : Bool) :
    (e.guardStep t spaceOk pc).PauseInv := by
  have hpaused := guardStep_paused (e := e) t spaceOk pc
  have hprober := guardStep_prober (e := e) t spaceOk pc
  refine ⟨fun hlast => hpaused.2 (h.holds (hpaused.1 ▸ hlast)), fun hlast => ?_,
    fun hlast => hprober ▸ h.rests (hpaused.1 ▸ hlast), fun hpc => ?_⟩
  · -- the flag is set by a swap only, and that is not under an operator pause
    have hswap : pc ≠ .swap := fun hpc => hspares hpc (hpaused.1 ▸ hlast)
    exact (guardStep_guardPaused t spaceOk hswap).trans (h.clear (hpaused.1 ▸ hlast))
  · by_cases hswap : pc = .swap
    · subst hswap
      rfl
    · exact (guardStep_guardPaused t spaceOk hswap).trans (h.flagged (hprober ▸ hpc))

theorem probeStep (h : e.PauseInv) (spaceOk : Bool) : (e.probeStep spaceOk).PauseInv := by
  unfold Engine.probeStep
  cases hpc : e.prober with
  | idle => exact h
  | load =>
    refine ⟨h.holds, h.clear, fun _ => ?_, fun hnext => ?_⟩
    · dsimp only; split_ifs <;> decide
    · by_contra hflag
      simp [hflag] at hnext
  | measure =>
    refine ⟨h.holds, h.clear, fun _ => ?_, fun _ => h.flagged (.inl hpc)⟩
    dsimp only; split_ifs <;> decide
  | clear =>
    refine ⟨h.holds, fun _ => rfl, fun hlast => ?_, fun hnext => by simp at hnext⟩
    -- the flag was set, so the operator has not paused
    have hclear := h.clear hlast
    rw [h.flagged (.inr hpc)] at hclear
    cases hclear
  | resume =>
    exact ⟨fun hlast => absurd hpc (h.rests hlast), h.clear, fun _ hpc => (by cases hpc),
      fun hnext => by simp at hnext⟩

theorem step (h : e.PauseInv) {ev : Event} (hspares : e.SparesOperator ev) :
    (e.step ev).PauseInv := by
  cases ev with
  | operator cmd =>
    cases cmd with
    | pause => exact ⟨fun _ => rfl, fun _ => hspares.1, fun _ => hspares.2, h.flagged⟩
    | resume =>
      exact ⟨fun hlast => (by cases hlast), fun hlast => (by cases hlast),
        fun hlast => (by cases hlast), h.flagged⟩
  | transfer t =>
    simp only [Engine.step]
    split
    · exact ⟨h.holds, h.clear, h.rests, h.flagged⟩
    · exact h
  | guard t spaceOk =>
    simp only [Engine.step]
    split
    · rename_i pc hpc
      exact h.guardStep (fun hswap => hspares (hswap ▸ hpc)) spaceOk
    · exact h
  | tick =>
    simp only [Engine.step]
    split_ifs
    · exact ⟨h.holds, h.clear, fun _ hpc => (by cases hpc), fun hnext => by simp at hnext⟩
    · exact h
  | probe spaceOk => exact h.probeStep spaceOk

end PauseInv

/-- The event is a step of the prober. -/
def Event.OfProber : Event → Prop
  | .tick | .probe _ => True
  | _ => False

/-- What is left of a tick that finds the guard flag set and space back. -/
def restOfTick : ProberPc → List Event
  | .idle => [.tick, .probe true, .probe true, .probe true, .probe true]
  | .load => [.probe true, .probe true, .probe true, .probe true]
  | .measure => [.probe true, .probe true, .probe true]
  | .clear => [.probe true, .probe true]
  | .resume => [.probe true]

/-- With the guard flag set, or between clearing it and resuming, the prober alone comes to resume
over an operator pause. -/
theorem prober_lifts (hlast : e.lastCommand = some .pause)
    (h : e.guardPaused = true ∨ e.prober = .resume) :
    ∃ evs : List Event, (∀ ev ∈ evs, Event.OfProber ev) ∧
      ¬ (evs.foldl Engine.step e).OperatorPauseHolds := by
  refine ⟨restOfTick e.prober, ?_, fun hholds => ?_⟩
  · cases e.prober <;> simp [restOfTick, Event.OfProber]
  · -- a tick that has yet to look at the flag finds it set
    have hload : e.prober = .idle ∨ e.prober = .load → e.guardPaused = true := by
      rcases h with hset | hpc
      · exact fun _ => hset
      · simp [hpc]
    revert hholds
    cases hpc : e.prober <;>
      simp_all [restOfTick, Engine.step, Engine.probeStep, OperatorPauseHolds]

/-- **An operator pause holds, unless it meets the guard flag.**  In every run in which the operator
does not pause while the guard flag is set or the prober is about to resume, and no transfer swaps
the flag while an operator pause is in force, the engine is paused whenever the operator's last
command was to pause.  And whatever step goes against that, the prober alone leads on from it to an
engine that runs in spite of the operator. -/
theorem operator_pause_holds (e : Engine) :
    ((system.restrict SparesOperator).Reach {} e → e.OperatorPauseHolds) ∧
      ∀ ev, ¬ e.SparesOperator ev → ∃ evs : List Event, (∀ ev' ∈ evs, Event.OfProber ev') ∧
        ¬ (evs.foldl step (e.step ev)).OperatorPauseHolds := by
  constructor
  · intro hreach
    have hinv : e.PauseInv := hreach.invariant PauseInv.init fun s ev s' _ hs hstep => by
      obtain ⟨hspares, -, rfl⟩ := hstep
      exact hs.step hspares
    exact hinv.holds
  · intro ev hev
    cases ev with
    | operator cmd =>
      cases cmd with
      | pause =>
        refine prober_lifts rfl ?_
        rcases not_and_or.1 hev with hset | hpc
        · exact .inl (Bool.eq_true_of_not_eq_false hset)
        · exact .inr (not_not.1 hpc)
      | resume => exact absurd trivial hev
    | guard t spaceOk =>
      obtain ⟨hswap, hlast⟩ : e.transfers.get? t = some .swap ∧ e.lastCommand = some .pause := by
        simpa [SparesOperator] using hev
      refine prober_lifts ?_ (.inl ?_) <;> simp [Engine.step, hswap, guardStep, goto, hlast]
    | transfer t => exact absurd trivial hev
    | tick => exact absurd trivial hev
    | probe spaceOk => exact absurd trivial hev

/-- The operator pauses; a transfer finds too little space, and the prober finds it back. -/
def shortfallDuringPause : List Event :=
  [.operator .pause, .transfer 0, .guard 0 false, .guard 0 false, .guard 0 false, .tick, .probe true,
    .probe true, .probe true, .probe true]

/-- **The prober resumes over an operator pause**, since the guard flag is set on a paused engine
too. -/
theorem prober_resumes_operator_pause :
    ∃ e, system.Reach {} e ∧ e.lastCommand = some .pause ∧ e.paused = false :=
  ⟨shortfallDuringPause.foldl step {}, .of_foldl .init (by decide), by decide, by decide⟩

/-- The guard pauses and the prober resumes; then the operator pauses, and a whole tick of the
prober leaves that pause alone. -/
def pauseAfterShortfall : List Event :=
  shortfallDuringPause.tail ++ [.operator .pause, .transfer 1, .tick, .probe true]

theorem operator_pause_holds_after_shortfall :
    (pauseAfterShortfall.foldl step {}).lastCommand = some .pause ∧
      (pauseAfterShortfall.foldl step {}).OperatorPauseHolds := by
  refine ⟨by decide, (operator_pause_holds _).1 ?_⟩
  rw [system, Lts.restrict_ofFun]
  exact .of_foldl .init (by decide)

/-! ## The free-space guard -/

/-- The step clears the pause flag. -/
def Resumes (e : Engine) : Event → Prop
  | .operator .resume => True
  | .probe _ => e.prober = .resume
  | _ => False

/-- The transfer `t` is parked: it stands at `await_unpaused` of a paused engine. -/
def Parked (e : Engine) (t : ℕ) : Prop := e.transfers.get? t = some .await ∧ e.paused = true

/-- A transfer that the step brings to `await_unpaused`, that is to the end of an iteration that
found a shortfall, is parked, and stays so until some step resumes. -/
def ParksShort (e : Engine) (ev : Event) : Prop :=
  ∀ t, e.transfers.get? t ≠ some .await → (e.step ev).transfers.get? t = some .await →
    ∀ evs, Lts.AllOk (fun s l => ¬ s.Resumes l) step (e.step ev) evs →
      (evs.foldl step (e.step ev)).Parked t

/-- A swap of the guard flag does not find it set on a running engine. -/
def SwapsPaused (e : Engine) : Event → Prop
  | .guard t _ => e.transfers.get? t = some .swap → e.guardPaused = true → e.paused = true
  | _ => True

/-- Some transfer has set the guard flag and has yet to look whether the engine is paused, or to
pause it. -/
def Pausing (e : Engine) : Prop :=
  ∃ t, e.transfers.get? t = some .read ∨ e.transfers.get? t = some .pause

/-- No resume, of the operator or of the prober, comes while the guard flag is set, and no transfer
swaps the flag of a running engine while another one is about to pause it. -/
def SparesGuard (e : Engine) : Event → Prop
  | .operator .resume => e.guardPaused = false
  | .probe _ => e.prober = .resume → e.guardPaused = false
  | .guard t _ =>
    e.transfers.get? t = some .swap → e.guardPaused = true → e.paused = true ∨ ¬ e.Pausing
  | _ => True

/-- While the guard flag is set the engine is paused, or some transfer is about to see to it. -/
def GuardHeld (e : Engine) : Prop := e.guardPaused = true → e.paused = true ∨ e.Pausing

theorem get?_goto (t t' : ℕ) (pc : GuardPc) :
    (e.goto t pc).transfers.get? t' = if t = t' then some pc else e.transfers.get? t' := by
  simp only [goto, OrdMap.get?_insert]

theorem get?_guardStep {t t' : ℕ} (hne : t ≠ t') (spaceOk : Bool) (pc : GuardPc) :
    (e.guardStep t spaceOk pc).transfers.get? t' = e.transfers.get? t' := by
  cases pc <;> simp only [guardStep] <;>
    (try split_ifs) <;> simp [get?_goto, OrdMap.get?_erase, hne]

theorem probeStep_transfers (e : Engine) (spaceOk : Bool) :
    (e.probeStep spaceOk).transfers = e.transfers := by
  unfold probeStep
  cases e.prober <;> rfl

theorem Parked.step {t : ℕ} (h : e.Parked t) {ev : Event} (hev : ¬ e.Resumes ev) :
    (e.step ev).Parked t := by
  obtain ⟨hat, hpaused⟩ := h
  cases ev with
  | operator cmd =>
    cases cmd with
    | pause => exact ⟨hat, rfl⟩
    | resume => exact absurd trivial hev
  | transfer t' =>
    simp only [Engine.step]
    split
    · rename_i hnone
      have hne : t' ≠ t := by rintro rfl; simp [hat] at hnone
      exact ⟨by rw [get?_goto, if_neg hne]; exact hat, hpaused⟩
    · exact ⟨hat, hpaused⟩
  | guard t' spaceOk =>
    simp only [Engine.step]
    split
    · rename_i pc hpc
      have hkeep := (guardStep_paused (e := e) t' spaceOk pc).2 hpaused
      refine ⟨?_, hkeep⟩
      by_cases hne : t' = t
      · -- the parked transfer itself looks at the pause flag again
        subst hne
        cases hat.symm.trans hpc
        simpa [guardStep, hpaused] using hat
      · exact (get?_guardStep hne spaceOk pc).trans hat
    · exact ⟨hat, hpaused⟩
  | tick =>
    simp only [Engine.step]
    split_ifs <;> exact ⟨hat, hpaused⟩
  | probe spaceOk =>
    exact ⟨(probeStep_transfers e spaceOk).symm ▸ hat,
      (probeStep_paused spaceOk hev).2.trans hpaused⟩

theorem Parked.foldl {t : ℕ} (h : e.Parked t) {evs : List Event}
    (hevs : Lts.AllOk (fun s l => ¬ s.Resumes l) Engine.step e evs) :
    (evs.foldl Engine.step e).Parked t := by
  induction evs generalizing e with
  | nil => exact h
  | cons ev evs ih => exact ih (h.step hevs.1) hevs.2

/-- What brings a transfer to `await_unpaused`. -/
theorem arrives {t : ℕ} {ev : Event} (hbefore : e.transfers.get? t ≠ some .await)
    (hafter : (e.step ev).transfers.get? t = some .await) :
    ∃ spaceOk, ev = .guard t spaceOk ∧
      (e.transfers.get? t = some .swap ∧ e.guardPaused = true ∨
        e.transfers.get? t = some .read ∧ e.paused = true ∨ e.transfers.get? t = some .pause) := by
  cases ev with
  | operator cmd => cases cmd <;> exact absurd hafter hbefore
  | transfer t' =>
    simp only [Engine.step] at hafter
    split at hafter
    · rw [get?_goto] at hafter
      split_ifs at hafter with ht
      · cases hafter
      · exact absurd hafter hbefore
    · exact absurd hafter hbefore
  | guard t' spaceOk =>
    simp only [Engine.step] at hafter
    split at hafter
    · rename_i pc hpc
      by_cases hne : t' = t
      · subst hne
        refine ⟨spaceOk, rfl, ?_⟩
        cases pc with
        | check =>
          simp only [guardStep] at hafter
          split_ifs at hafter <;> simp [get?_goto] at hafter
        | swap => simp_all [guardStep, goto]
        | read => simp_all [guardStep, goto]
        | pause => exact .inr (.inr hpc)
        | await => exact absurd hpc hbefore
      · exact absurd ((get?_guardStep hne spaceOk pc).symm.trans hafter) hbefore
    · exact absurd hafter hbefore
  | tick =>
    simp only [Engine.step] at hafter
    split_ifs at hafter <;> exact absurd hafter hbefore
  | probe spaceOk => exact absurd ((probeStep_transfers e spaceOk) ▸ hafter) hbefore

/-- A transfer that finds a shortfall parks until a later resume, unless it finds the guard flag
set on a running engine. -/
theorem parksShort_iff {ev : Event} : e.ParksShort ev ↔ e.SwapsPaused ev := by
  constructor
  · intro hparks
    cases ev with
    | guard t spaceOk =>
      intro hswap hguard
      have hpaused := (hparks t (by simp [hswap])
        (by simp [Engine.step, hswap, guardStep, hguard, get?_goto]) [] trivial).2
      simpa [Engine.step, hswap, guardStep, goto] using hpaused
    | _ => exact trivial
  · intro hswaps t hbefore hafter evs hevs
    obtain ⟨spaceOk, rfl, hfrom⟩ := arrives hbefore hafter
    refine Parked.foldl ⟨hafter, ?_⟩ hevs
    rcases hfrom with ⟨hswap, hguard⟩ | ⟨hread, hpaused⟩ | hpause
    · simpa [Engine.step, hswap, guardStep, goto] using hswaps hswap hguard
    · simpa [Engine.step, hread, guardStep, goto] using hpaused
    · simp [Engine.step, hpause, guardStep, goto]

theorem swapsPaused_of_held {ev : Event} (h : e.GuardHeld) (hspares : e.SparesGuard ev) :
    e.SwapsPaused ev := by
  cases ev with
  | guard t spaceOk =>
    intro hswap hguard
    rcases hspares hswap hguard with hpaused | hnone
    · exact hpaused
    · exact (h hguard).resolve_right hnone
  | _ => exact trivial

theorem Pausing.of_goto {t : ℕ} {pc : GuardPc} (h : e.Pausing)
    (ht : e.transfers.get? t ≠ some .read ∧ e.transfers.get? t ≠ some .pause) :
    (e.goto t pc).Pausing := by
  obtain ⟨t', h'⟩ := h
  have hne : t ≠ t' := by rintro rfl; simp_all
  exact ⟨t', by simpa [get?_goto, hne] using h'⟩

/-- The steps of a transfer that is not itself about to pause leave those alone that are. -/
theorem Pausing.guardStep {t : ℕ} {pc : GuardPc} (h : e.Pausing)
    (hpc : e.transfers.get? t = some pc) (hread : pc ≠ .read) (hpause : pc ≠ .pause)
    (spaceOk : Bool) : (e.guardStep t spaceOk pc).Pausing := by
  obtain ⟨t', h'⟩ := h
  have hne : t ≠ t' := by rintro rfl; simp_all
  exact ⟨t', by rwa [get?_guardStep hne]⟩

/-- A step of a transfer keeps the engine paused, or about to be, while the guard flag is set. -/
theorem GuardHeld.guardStep (h : e.GuardHeld) {t : ℕ} {pc : GuardPc}
    (hpc : e.transfers.get? t = some pc) (spaceOk : Bool) :
    (e.guardStep t spaceOk pc).GuardHeld := by
  -- a step that neither sets the flag nor decides about the pause
  have hother (hread : pc ≠ .read) (hpause : pc ≠ .pause) (hset : e.guardPaused = true) :
      (e.guardStep t spaceOk pc).paused = true ∨ (e.guardStep t spaceOk pc).Pausing :=
    (h hset).imp (guardStep_paused t spaceOk pc).2 fun hp => hp.guardStep hpc hread hpause spaceOk
  intro hguard
  cases pc with
  | check =>
    refine hother nofun nofun ?_
    simp only [Engine.guardStep] at hguard
    split_ifs at hguard <;> exact hguard
  | swap =>
    by_cases hset : e.guardPaused = true
    · exact hother nofun nofun hset
    · exact .inr ⟨t, .inl (by simp [Engine.guardStep, get?_goto, hset])⟩
  | read =>
    by_cases hpaused : e.paused = true
    · exact .inl hpaused
    · exact .inr ⟨t, .inr (by simp [Engine.guardStep, get?_goto, hpaused])⟩
  | pause => exact .inl rfl
  | await =>
    refine hother nofun nofun ?_
    simp only [Engine.guardStep] at hguard
    split_ifs at hguard <;> exact hguard

theorem GuardHeld.step (h : e.GuardHeld) {ev : Event} (hspares : e.SparesGuard ev) :
    (e.step ev).GuardHeld := by
  cases ev with
  | operator cmd =>
    cases cmd with
    | pause => exact fun _ => .inl rfl
    | resume =>
      have hclear : e.guardPaused = false := hspares
      exact fun hguard => by simp [Engine.step, hclear] at hguard
  | transfer t =>
    simp only [Engine.step]
    split
    · rename_i hnone
      exact fun hguard => (h hguard).imp_right fun hp => hp.of_goto (by simp [hnone])
    · exact h
  | guard t spaceOk =>
    simp only [Engine.step]
    split
    · exact h.guardStep ‹_› spaceOk
    · exact h
  | tick =>
    simp only [Engine.step]
    split_ifs <;> exact h
  | probe spaceOk =>
    intro hguard
    have hkept : e.guardPaused = true := by
      simp only [Engine.step, probeStep] at hguard
      cases hpc : e.prober <;> simp_all
    have hpc : e.prober ≠ .resume := fun hpc => by simp [hspares hpc] at hkept
    refine (h hkept).imp (probeStep_paused spaceOk hpc).2.trans ?_
    rintro ⟨t, ht⟩
    exact ⟨t, (probeStep_transfers e spaceOk).symm ▸ ht⟩

/-- The event is a step of a transfer. -/
def Event.OfTransfer : Event → Prop
  | .transfer _ => True
  | .guard _ _ => True
  | _ => False

/-- A transfer that enters the guard of a running engine with the guard flag set, and finds a
shortfall, comes to the swap. -/
theorem short_transfer (hguard : e.guardPaused = true) (hpaused : e.paused = false) :
    ∃ evs : List Event, (∀ ev ∈ evs, Event.OfTransfer ev) ∧ ¬ Lts.AllOk SwapsPaused step e evs := by
  obtain ⟨t, ht⟩ := Infinite.exists_notMem_finset e.transfers.keys.toFinset
  have hnone : e.transfers.get? t = none := by simpa [OrdMap.mem_keys] using ht
  refine ⟨[.transfer t, .guard t false, .guard t false], by simp [Event.OfTransfer], ?_⟩
  intro hswaps
  have hbad := hswaps.2.2.1 (by simp [Engine.step, hnone, goto, guardStep])
    (by simpa [Engine.step, hnone, goto, guardStep] using hguard)
  simp [Engine.step, hnone, goto, guardStep, hpaused] at hbad

/-- From a step that goes against `SparesGuard`, transfers alone come to swap the flag of a running
engine. -/
theorem breaks_of_not_spares {ev : Event} (h : ¬ e.SparesGuard ev) :
    ∃ evs, (∀ ev' ∈ evs, Event.OfTransfer ev') ∧ ¬ Lts.AllOk SwapsPaused step e (ev :: evs) := by
  cases ev with
  | operator cmd =>
    cases cmd with
    | pause => exact absurd trivial h
    | resume =>
      obtain ⟨evs, hof, hbreaks⟩ :=
        short_transfer (e := e.step (.operator .resume)) (Bool.eq_true_of_not_eq_false h) rfl
      exact ⟨evs, hof, fun hok => hbreaks hok.2⟩
  | probe spaceOk =>
    obtain ⟨hpc, hset⟩ : e.prober = .resume ∧ e.guardPaused = true := by
      simpa [SparesGuard] using h
    obtain ⟨evs, hof, hbreaks⟩ := short_transfer (e := e.step (.probe spaceOk))
      (by simpa [Engine.step, probeStep, hpc] using hset) (by simp [Engine.step, probeStep, hpc])
    exact ⟨evs, hof, fun hok => hbreaks hok.2⟩
  | guard t spaceOk =>
    refine ⟨[], by simp, fun hok => h fun hswap hset => .inl (hok.1 hswap hset)⟩
  | transfer t => exact absurd trivial h
  | tick => exact absurd trivial h

theorem GuardHeld.allOk (h : e.GuardHeld) {evs : List Event}
    (hspares : Lts.AllOk SparesGuard Engine.step e evs) :
    Lts.AllOk SwapsPaused Engine.step e evs := by
  induction evs generalizing e with
  | nil => trivial
  | cons ev evs ih => exact ⟨swapsPaused_of_held h hspares.1, ih (h.step hspares.1) hspares.2⟩

/-- **The guard parks a short transfer, unless a resume comes while the guard flag is set.**  In a
run every transfer that comes to `await_unpaused` after a shortfall is parked there until a later
resume exactly if no swap finds the guard flag set on a running engine.  None does if no resume
clears the pause under the guard flag and no transfer swaps the flag while another is about to
pause; and whatever goes against that, the steps of transfers alone lead on from it to one that is
not parked. -/
theorem guard_parks_short (evs : List Event) :
    (Lts.AllOk ParksShort step {} evs ↔ Lts.AllOk SwapsPaused step {} evs) ∧
      (Lts.AllOk SparesGuard step {} evs → Lts.AllOk ParksShort step {} evs) ∧
      ∀ ev, ¬ (evs.foldl step {}).SparesGuard ev →
        ∃ evs', (∀ ev' ∈ evs', Event.OfTransfer ev') ∧
          ¬ Lts.AllOk ParksShort step {} (evs ++ ev :: evs') := by
  have hiff {e : Engine} {evs : List Event} :
      Lts.AllOk ParksShort step e evs ↔ Lts.AllOk SwapsPaused step e evs :=
    ⟨Lts.AllOk.imp fun _ _ => parksShort_iff.1, Lts.AllOk.imp fun _ _ => parksShort_iff.2⟩
  have hheld : GuardHeld {} := fun hset => by cases hset
  refine ⟨hiff, fun hspares => hiff.2 (hheld.allOk hspares), fun ev hev => ?_⟩
  obtain ⟨evs', hof, hbreaks⟩ := breaks_of_not_spares hev
  exact ⟨evs', hof, fun hparks => hbreaks (hiff.1 hparks.of_append)⟩

/-- A shortfall pauses the engine, the operator resumes, and the transfer measures again. -/
def resumeUnderGuard : List Event :=
  [.transfer 0, .guard 0 false, .guard 0 false, .guard 0 false, .guard 0 false, .operator .resume,
    .guard 0 false, .guard 0 false, .guard 0 false]

/-- The transfer finds the engine running, measures and swaps. -/
def shortTurn : List Event := [.guard 0 false, .guard 0 false, .guard 0 false]

/-- **The guard spins after an operator resume**: the guard flag is still set, so the transfer does
not pause again, and its next three steps bring it back to the same place of a running engine. -/
theorem guard_spins_after_resume :
    ¬ Lts.AllOk ParksShort step {} resumeUnderGuard ∧
      (resumeUnderGuard.foldl step {}).paused = false ∧
      (resumeUnderGuard.foldl step {}).transfers.get? 0 = some .await ∧
      shortTurn.foldl step (resumeUnderGuard.foldl step {}) = resumeUnderGuard.foldl step {} := by
  refine ⟨fun hparks => ?_, by decide, by decide, rfl⟩
  -- the swap is the last of the nine steps
  have hswaps := parksShort_iff.1 hparks.2.2.2.2.2.2.2.2.1
  exact absurd (hswaps (by decide) (by decide)) (by decide)

/-- A shortfall pauses the engine and the prober resumes it. -/
theorem guard_parks_short_prober :
    Lts.AllOk ParksShort step {} [.transfer 0, .guard 0 false, .guard 0 false, .guard 0 false,
      .guard 0 false, .tick, .probe true, .probe true, .probe true, .probe true] := by
  refine (guard_parks_short _).2.1 ⟨trivial, fun hswap => absurd hswap (by decide),
    fun _ hset => absurd hset (by decide), fun hswap => absurd hswap (by decide),
    fun hswap => absurd hswap (by decide), trivial, fun hpc => absurd hpc (by decide),
    fun hpc => absurd hpc (by decide), fun hpc => absurd hpc (by decide), fun _ => by decide, trivial⟩

end Engine

end PauseGate

end Replicore
