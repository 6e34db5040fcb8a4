import Replicore.Lib.Lts
import Replicore.Lib.OrdMap

/-!
# Wake-ups at the pause gate

`await_unpaused` loads the pause flag, creates a `notified` future and awaits it; `resume` stores
the flag and then notifies (`net.rs`).  Each of these is one atomic step, and the steps of any
number of callers and of resumes interleave freely.  `notify_waiters` wakes the futures created
before the call: a future remembers how many calls there had been at its creation, and is ready
once there has been another.

A caller that has loaded a set flag and has yet to create its future is missed by a notify in
between.  No wake-up is lost exactly as long as no last pending resume notifies there with the flag
clear (`no_lost_wakeup`).
-/

namespace Replicore

namespace PauseGate

/-- Where a turn of the loop of `await_unpaused` stands. -/
inductive CallerPc
  /-- `paused.load()`. -/
  | load
  /-- `resume_notify.notified()`. -/
  | create
  /-- `.await` of a future created after `calls` calls of `notify_waiters`. -/
  | await (calls : ℕ)
  deriving DecidableEq

/-- The flag, its notifier and the calls in progress. -/
structure Gate where
  paused : Bool := false
  /-- The calls of `notify_waiters` so far. -/
  notifyCalls : ℕ := 0
  /-- The calls of `resume` that have stored the flag and have yet to notify. -/
  resuming : ℕ := 0
  /-- The calls of `await_unpaused`. -/
  callers : OrdMap ℕ CallerPc := .empty

/-- The atomic steps. -/
inductive GateStep
  /-- `pause`: the flag is stored. -/
  | pause
  /-- `resume`: the flag is stored. -/
  | store
  /-- `resume`: `notify_waiters()`. -/
  | notify
  /-- `await_unpaused` is called. -/
  | call (c : ℕ)
  /-- The caller `c` takes its next step. -/
  | caller (c : ℕ)
  /-- The future of the call `c` is dropped. -/
  | drop (c : ℕ)

/-- The step is one of a caller. -/
def GateStep.OfCaller : GateStep → Prop
  | .call _ | .caller _ | .drop _ => True
  | _ => False

namespace Gate

/-- The caller `c` goes on at `pc`. -/
def goto (g : Gate) (c : ℕ) (pc : CallerPc) : Gate :=
  { g with callers := g.callers.insert c pc }

/-- One step of the caller `c`. -/
def callerStep (g : Gate) (c : ℕ) : CallerPc → Gate
  | .load => if g.paused then g.goto c .create else { g with callers := g.callers.erase c }
  | .create => g.goto c (.await g.notifyCalls)
  | .await calls => if calls < g.notifyCalls then g.goto c .load else g

/-- One step. -/
def step (g : Gate) : GateStep → Gate
  | .pause => { g with paused := true }
  | .store => { g with paused := false, resuming := g.resuming + 1 }
  | .notify => { g with notifyCalls := g.notifyCalls + 1, resuming := g.resuming - 1 }
  | .call c =>
    match g.callers.get? c with
    | none => g.goto c .load
    | some _ => g
  | .caller c =>
    match g.callers.get? c with
    | some pc => g.callerStep c pc
    | none => g
  | .drop c => { g with callers := g.callers.erase c }

/-- Only a resume that has stored the flag notifies. -/
def Enabled (g : Gate) : GateStep → Prop
  | .notify => 0 < g.resuming
  | _ => True

/-- Every order of the steps. -/
def system : Lts Gate GateStep := .ofFun Enabled step

/-- The caller `c` awaits a future that is not ready. -/
def Waits (g : Gate) (c : ℕ) : Prop :=
  ∃ calls, g.callers.get? c = some (.await calls) ∧ g.notifyCalls ≤ calls

/-- Every call of `pause` and `resume` has finished, the flag is clear, and some caller is
parked. -/
def LostWakeup (g : Gate) : Prop := g.resuming = 0 ∧ g.paused = false ∧ ∃ c, g.Waits c

/-- The last pending resume, if it leaves the flag clear, does not notify while a caller has loaded
the flag and has yet to create its future. -/
def NotifyCovers (g : Gate) : GateStep → Prop
  | .notify => g.paused = false → g.resuming = 1 → ∀ c, g.callers.get? c ≠ some .create
  | _ => True

/-- With the flag clear and no resume pending no caller waits, nor is about to. -/
def Covered (g : Gate) : Prop :=
  g.resuming = 0 → g.paused = false → ∀ c, g.callers.get? c ≠ some .create ∧ ¬ g.Waits c

/-- No future remembers more calls than there have been. -/
def FuturesPast (g : Gate) : Prop :=
  ∀ c calls, g.callers.get? c = some (.await calls) → calls ≤ g.notifyCalls

variable {g : Gate}

theorem get?_goto (c c' : ℕ) (pc : CallerPc) :
    (g.goto c pc).callers.get? c' = if c = c' then some pc else g.callers.get? c' := by
  simp only [goto, OrdMap.get?_insert]

/-- A step of a caller, or of a call that begins or is dropped, leaves the flag, the notifier and
the resumes alone. -/
theorem callerStep_gate (c : ℕ) (pc : CallerPc) :
    (g.callerStep c pc).paused = g.paused ∧ (g.callerStep c pc).resuming = g.resuming ∧
      (g.callerStep c pc).notifyCalls = g.notifyCalls := by
  cases pc <;> simp only [callerStep] <;> (try split_ifs) <;> exact ⟨rfl, rfl, rfl⟩

/-- Where a step of the caller `c` leaves the callers: the others where they were, itself at
`create` only if it loaded a set flag, and at `await` only with the calls there have been so
far. -/
theorem get?_callerStep {c c' : ℕ} {pc pc' : CallerPc} (hpc : g.callers.get? c = some pc)
    (h : (g.callerStep c pc).callers.get? c' = some pc') :
    g.callers.get? c' = some pc' ∨ pc' = .load ∨ (pc' = .create ∧ g.paused = true) ∨
      (g.callers.get? c' = some .create ∧ pc' = .await g.notifyCalls) := by
  by_cases hc : c = c'
  · subst hc
    cases pc with
    | load =>
      simp only [callerStep] at h
      split_ifs at h with hpaused
      · simp only [get?_goto, if_true, Option.some.injEq] at h
        exact .inr (.inr (.inl ⟨h.symm, hpaused⟩))
      · simp at h
    | create =>
      simp only [callerStep, get?_goto, if_true, Option.some.injEq] at h
      exact .inr (.inr (.inr ⟨hpc, h.symm⟩))
    | await calls =>
      simp only [callerStep] at h
      split_ifs at h
      · simp only [get?_goto, if_true, Option.some.injEq] at h
        exact .inr (.inl h.symm)
      · exact .inl h
  · refine .inl ?_
    cases pc <;> simp only [callerStep] at h <;> (try split_ifs at h) <;>
      simpa [get?_goto, OrdMap.get?_erase, hc] using h

/-- What the steps of callers change: no flag, and of the callers what `get?_callerStep` says. -/
theorem step_callers {l : GateStep} (hl : l.OfCaller) :
    ((g.step l).paused = g.paused ∧ (g.step l).resuming = g.resuming ∧
        (g.step l).notifyCalls = g.notifyCalls) ∧
      ∀ c pc, (g.step l).callers.get? c = some pc →
        g.callers.get? c = some pc ∨ pc = .load ∨ (pc = .create ∧ g.paused = true) ∨
          (g.callers.get? c = some .create ∧ pc = .await g.notifyCalls) := by
  cases l with
  | call c' =>
    simp only [step]
    split
    · refine ⟨⟨rfl, rfl, rfl⟩, fun c pc hc => ?_⟩
      rw [get?_goto] at hc
      split_ifs at hc
      · exact .inr (.inl (Option.some.inj hc).symm)
      · exact .inl hc
    · exact ⟨⟨rfl, rfl, rfl⟩, fun c pc hc => .inl hc⟩
  | caller c' =>
    simp only [step]
    split
    · rename_i pc' hpc'
      exact ⟨callerStep_gate c' pc', fun c pc hc => get?_callerStep hpc' hc⟩
    · exact ⟨⟨rfl, rfl, rfl⟩, fun c pc hc => .inl hc⟩
  | drop c' =>
    refine ⟨⟨rfl, rfl, rfl⟩, fun c pc hc => ?_⟩
    simp only [step, OrdMap.get?_erase] at hc
    split_ifs at hc
    exact .inl hc
  | pause => exact hl.elim
  | store => exact hl.elim
  | notify => exact hl.elim

theorem FuturesPast.step_caller (h : g.FuturesPast) {l : GateStep} (hl : l.OfCaller) :
    (g.step l).FuturesPast := by
  obtain ⟨⟨-, -, hcalls⟩, hcallers⟩ := step_callers (g := g) hl
  intro c calls hc
  rw [hcalls]
  obtain hold | hload | ⟨hcreate, -⟩ | ⟨-, hawait⟩ := hcallers c _ hc
  · exact h c calls hold
  · cases hload
  · cases hcreate
  · cases hawait
    exact le_rfl

theorem FuturesPast.step (h : g.FuturesPast) (l : GateStep) : (g.step l).FuturesPast := by
  cases l with
  | pause => exact h
  | store => exact h
  | notify => exact fun c calls hc => (h c calls hc).trans (Nat.le_succ _)
  | call c => exact h.step_caller trivial
  | caller c => exact h.step_caller trivial
  | drop c => exact h.step_caller trivial

theorem Covered.step_caller (h : g.Covered) {l : GateStep} (hl : l.OfCaller) :
    (g.step l).Covered := by
  obtain ⟨⟨hflag, hresumes, hcalls⟩, hcallers⟩ := step_callers (g := g) hl
  intro hresuming hpaused c
  rw [hresumes] at hresuming
  rw [hflag] at hpaused
  obtain ⟨hcreate, hwaits⟩ := h hresuming hpaused c
  refine ⟨fun hc => ?_, ?_⟩
  · obtain hold | hload | ⟨-, hset⟩ | ⟨-, hawait⟩ := hcallers c _ hc
    · exact hcreate hold
    · cases hload
    · simp [hpaused] at hset
    · cases hawait
  · rintro ⟨calls, hc, hle⟩
    obtain hold | hload | ⟨hnow, -⟩ | ⟨hwas, -⟩ := hcallers c _ hc
    · exact hwaits ⟨calls, hold, hcalls ▸ hle⟩
    · cases hload
    · cases hnow
    · exact hcreate hwas

/-- The one step that can leave a caller uncovered is a notify. -/
theorem Covered.step (h : g.Covered) (hpast : g.FuturesPast) {l : GateStep} (henabled : g.Enabled l)
    (hcovers : g.NotifyCovers l) : (g.step l).Covered := by
  cases l with
  | pause => exact fun _ hpaused => nomatch hpaused
  | store => exact fun hresuming => absurd hresuming (Nat.succ_ne_zero _)
  | notify =>
    intro hresuming hpaused c
    have hlast : g.resuming = 1 := by
      have hpos : 0 < g.resuming := henabled
      have hnone : g.resuming - 1 = 0 := hresuming
      omega
    refine ⟨hcovers hpaused hlast c, ?_⟩
    -- every future there is was created before this call
    rintro ⟨calls, hc, hle⟩
    have hle' : g.notifyCalls + 1 ≤ calls := hle
    exact absurd (hpast c calls hc) (by omega)
  | call c => exact h.step_caller trivial
  | caller c => exact h.step_caller trivial
  | drop c => exact h.step_caller trivial

/-- **A wake-up is lost exactly if a notify comes between a caller's load and its future.**  In
every run in which no last pending resume that leaves the flag clear notifies while a caller has
loaded the flag and has yet to create its future, no state is reached in which every pause and
resume has finished, the flag is clear and a caller is parked; and after a notify that does so the
next step of that caller reaches one. -/
theorem no_lost_wakeup (g : Gate) :
    ((system.restrict NotifyCovers).Reach {} g → ¬ g.LostWakeup) ∧
      ∀ l, system.Reach {} g → g.Enabled l → ¬ g.NotifyCovers l →
        ∃ c, ((g.step l).step (.caller c)).LostWakeup := by
  constructor
  · intro hreach
    have hinit : FuturesPast {} ∧ Covered {} := by
      constructor
      · intro c calls hc
        cases hc
      · intro _ _ c
        refine ⟨nofun, ?_⟩
        rintro ⟨calls, hc, -⟩
        cases hc
    have hinv : g.FuturesPast ∧ g.Covered :=
      hreach.invariant (I := fun s => s.FuturesPast ∧ s.Covered) hinit fun s l s' _ hs hstep => by
        obtain ⟨hcovers, henabled, rfl⟩ := hstep
        exact ⟨hs.1.step l, hs.2.step hs.1 henabled hcovers⟩
    rintro ⟨hresuming, hpaused, c, hwaits⟩
    exact (hinv.2 hresuming hpaused c).2 hwaits
  · intro l _ _ hmisses
    cases l with
    | notify =>
      obtain ⟨hpaused, hlast, c, hcreate⟩ :
          g.paused = false ∧ g.resuming = 1 ∧ ∃ c, g.callers.get? c = some .create := by
        simpa [NotifyCovers] using hmisses
      have hstep : (g.step .notify).step (.caller c) =
          (g.step .notify).goto c (.await (g.notifyCalls + 1)) := by
        simp [step, hcreate, callerStep]
      refine ⟨c, hstep ▸ ⟨?_, hpaused, c, g.notifyCalls + 1, ?_, le_rfl⟩⟩
      · simp [step, goto, hlast]
      · simp [get?_goto]
    | _ => exact absurd trivial hmisses

/-- A caller loads the flag of a paused gate, a resume stores and notifies, and the caller goes on
to create its future. -/
def resumeBeforeFuture : List GateStep :=
  [.pause, .call 0, .caller 0, .store, .notify, .caller 0]

/-- **A resume between a caller's load and its future leaves it parked.** -/
theorem resume_before_future_lost : ∃ g, system.Reach {} g ∧ g.LostWakeup :=
  ⟨resumeBeforeFuture.foldl step {},
    .of_foldl .init ⟨trivial, trivial, trivial, trivial, Nat.one_pos, trivial, trivial⟩,
    by decide, by decide, 0, 1, by decide, by decide⟩

/-- A caller whose future is there is woken. -/
theorem no_lost_wakeup_parked :
    ¬ LostWakeup ([GateStep.pause, .call 0, .caller 0, .caller 0, .store, .notify].foldl step {}) := by
  refine (no_lost_wakeup _).1 ?_
  rw [system, Lts.restrict_ofFun]
  refine .of_foldl .init ⟨⟨trivial, trivial⟩, ⟨trivial, trivial⟩, ⟨trivial, trivial⟩,
    ⟨trivial, trivial⟩, ⟨trivial, trivial⟩, ⟨?_, Nat.one_pos⟩, trivial⟩
  intro _ _ c hc
  obtain rfl | hne := eq_or_ne c 0
  · exact absurd hc (by decide)
  · simp [step, goto, callerStep, OrdMap.get?_insert, hne.symm] at hc

end Gate

end PauseGate

end Replicore
