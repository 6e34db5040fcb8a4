import Replicore.Lib.Lts
import Replicore.Lib.OrdMap

/-!
# Priority lanes

`Limiter::acquire` of `qos.rs`.  A priority acquisition counts itself in `priority_waiting` while it
waits for the buckets, and notifies when it is through; a bulk acquisition loads the counter, and as
long as it is not zero creates a `notified` future and awaits it.  The atomic steps of any number of
acquisitions interleave freely, and an acquisition may be dropped where it awaits.  Whether a bucket
lets a transfer pass at once or makes it sleep is an input of the step.

The counter counts the priority acquisitions in progress as long as none of them is dropped; and no
bulk acquisition is parked with none in progress, unless moreover the last of them notifies between
the load of a bulk acquisition and its future (`no_bulk_starved`).
-/

namespace Replicore

/-- Which queue a chunk payload rides. -/
inductive Lane
  | priority
  | bulk
  deriving DecidableEq

/-- Where a call of `acquire` stands. -/
inductive AcquirePc
  /-- `priority_waiting.fetch_add(1)`. -/
  | add
  /-- `priority_waiting.load()`. -/
  | load
  /-- `notify.notified()`. -/
  | create
  /-- `.await` of a future created after `calls` calls of `notify_waiters`. -/
  | await (calls : ℕ)
  /-- `global.acquire(n)`, and the sleep in it. -/
  | global (lane : Lane)
  | globalSleep (lane : Lane)
  /-- `bucket.acquire(n)`, and the sleep in it. -/
  | peer (lane : Lane)
  | peerSleep (lane : Lane)
  /-- `priority_waiting.fetch_sub(1)`. -/
  | sub
  /-- `notify.notify_waiters()`. -/
  | notify
  deriving DecidableEq

/-- The first step of a call. -/
def Lane.start : Lane → AcquirePc
  | .priority => .add
  | .bulk => .load

namespace AcquirePc

/-- A priority acquisition between `fetch_add` and `fetch_sub`. -/
def raised : AcquirePc → Bool
  | .global .priority | .globalSleep .priority | .peer .priority | .peerSleep .priority | .sub => true
  | _ => false

/-- Here the future may be dropped: it awaits, or has not been polled yet. -/
def atAwait : AcquirePc → Bool
  | .add | .load | .await _ | .globalSleep _ | .peerSleep _ => true
  | _ => false

end AcquirePc

/-- The counter, the notifier and the calls of `acquire` that are not over. -/
structure Limiter where
  priorityWaiting : ℕ := 0
  /-- The calls of `notify_waiters` so far. -/
  notifyCalls : ℕ := 0
  acquisitions : OrdMap ℕ AcquirePc := .empty

/-- The atomic steps. -/
inductive LimiterStep
  /-- `acquire` is called. -/
  | acquire (c : ℕ) (lane : Lane)
  /-- The call `c` takes its next step; `sleeps` is what a bucket would have it do. -/
  | turn (c : ℕ) (sleeps : Bool)
  /-- The future of the call `c` is dropped. -/
  | drop (c : ℕ)

namespace Limiter

/-- The call `c` goes on at `pc`. -/
def goto (l : Limiter) (c : ℕ) (pc : AcquirePc) : Limiter :=
  { l with acquisitions := l.acquisitions.insert c pc }

/-- The call `c` is over. -/
def finish (l : Limiter) (c : ℕ) : Limiter := { l with acquisitions := l.acquisitions.erase c }

/-- The buckets have let the call pass. -/
def pass (l : Limiter) (c : ℕ) : Lane → Limiter
  | .priority => l.goto c .sub
  | .bulk => l.finish c

/-- One step of the call `c`. -/
def turn (l : Limiter) (c : ℕ) (sleeps : Bool) : AcquirePc → Limiter
  | .add => { l with priorityWaiting := l.priorityWaiting + 1 }.goto c (.global .priority)
  | .load => l.goto c (if 0 < l.priorityWaiting then .create else .global .bulk)
  | .create => l.goto c (.await l.notifyCalls)
  | .await calls => if calls < l.notifyCalls then l.goto c .load else l
  | .global lane => l.goto c (if sleeps then .globalSleep lane else .peer lane)
  | .globalSleep lane => l.goto c (.peer lane)
  | .peer lane => if sleeps then l.goto c (.peerSleep lane) else l.pass c lane
  | .peerSleep lane => l.pass c lane
  | .sub => { l with priorityWaiting := l.priorityWaiting - 1 }.goto c .notify
  | .notify => { l with notifyCalls := l.notifyCalls + 1 }.finish c

/-- One step. -/
def step (l : Limiter) : LimiterStep → Limiter
  | .acquire c lane =>
    match l.acquisitions.get? c with
    | none => l.goto c lane.start
    | some _ => l
  | .turn c sleeps =>
    match l.acquisitions.get? c with
    | some pc => l.turn c sleeps pc
    | none => l
  | .drop c => l.finish c

/-- A future is dropped only where it awaits. -/
def Enabled (l : Limiter) : LimiterStep → Prop
  | .drop c => ∀ pc, l.acquisitions.get? c = some pc → pc.atAwait
  | _ => True

/-- Every order of the steps. -/
def system : Lts Limiter LimiterStep := .ofFun Enabled step

/-- The priority acquisitions in progress. -/
def inProgress (l : Limiter) : ℕ := l.acquisitions.countVals AcquirePc.raised

/-- No call is about to notify. -/
def NoNotify (l : Limiter) : Prop := ∀ c, l.acquisitions.get? c ≠ some .notify

/-- The bulk acquisition `c` awaits a future that is not ready. -/
def Parked (l : Limiter) (c : ℕ) : Prop :=
  ∃ calls, l.acquisitions.get? c = some (.await calls) ∧ l.notifyCalls ≤ calls

/-- No call has a step to take: each awaits a future that is not ready. -/
def NoPending (l : Limiter) : Prop := ∀ c sleeps, l.step (.turn c sleeps) = l

/-- A bulk acquisition is parked although no priority acquisition is in progress, nor about to
notify. -/
def Starved (l : Limiter) : Prop := l.inProgress = 0 ∧ l.NoNotify ∧ ∃ c, l.Parked c

/-- No priority acquisition in progress is dropped, and the last one does not notify while a bulk
acquisition has loaded the counter and has yet to create its future. -/
def Spares (l : Limiter) : LimiterStep → Prop
  | .drop c => ∀ pc, l.acquisitions.get? c = some pc → pc.raised = false
  | .turn c _ => l.acquisitions.get? c = some .notify → l.inProgress = 0 → (l.finish c).NoNotify →
      ∀ c', l.acquisitions.get? c' ≠ some .create
  | _ => True

variable {l l' : Limiter} {c : ℕ} {pc pc' : AcquirePc}

/-! ### What a turn does -/

/-- What one turn of the call `c`, which stands at `pc`, makes of the limiter. -/
inductive Turned (l : Limiter) (c : ℕ) (pc : AcquirePc) : Limiter → Prop
  /-- The future is not ready. -/
  | stays : Turned l c pc l
  /-- It goes on, to a future only from `create`. -/
  | goes (pc' : AcquirePc) (hraised : pc'.raised = pc.raised) (hnotify : pc ≠ .notify)
      (hcreate : pc' = .create → 0 < l.priorityWaiting)
      (hawait : ∀ calls, pc' = .await calls → pc = .create ∧ calls = l.notifyCalls) :
      Turned l c pc (l.goto c pc')
  /-- A bulk acquisition is through. -/
  | ends (hraised : pc.raised = false) (hnotify : pc ≠ .notify) : Turned l c pc (l.finish c)
  | raises (hpc : pc = .add) :
      Turned l c pc ({ l with priorityWaiting := l.priorityWaiting + 1 }.goto c (.global .priority))
  | lowers (hpc : pc = .sub) :
      Turned l c pc ({ l with priorityWaiting := l.priorityWaiting - 1 }.goto c .notify)
  | notifies (hpc : pc = .notify) :
      Turned l c pc ({ l with notifyCalls := l.notifyCalls + 1 }.finish c)

theorem turned_pass (lane : Lane) (hraised : pc.raised = decide (lane = .priority))
    (hnotify : pc ≠ .notify) : Turned l c pc (l.pass c lane) := by
  cases lane with
  | priority => exact .goes .sub hraised.symm hnotify nofun nofun
  | bulk => exact .ends hraised hnotify

theorem turned (l : Limiter) (c : ℕ) (sleeps : Bool) (pc : AcquirePc) :
    Turned l c pc (l.turn c sleeps pc) := by
  cases pc with
  | add => exact .raises rfl
  | load =>
    simp only [turn]
    split_ifs with hwaiting
    · exact .goes .create rfl nofun (fun _ => hwaiting) nofun
    · exact .goes (.global .bulk) rfl nofun nofun nofun
  | create =>
    refine .goes (.await l.notifyCalls) rfl nofun nofun ?_
    rintro _ ⟨⟩
    exact ⟨rfl, rfl⟩
  | await calls =>
    simp only [turn]
    split_ifs
    · exact .goes .load rfl nofun nofun nofun
    · exact .stays
  | global lane =>
    simp only [turn]
    split_ifs
    · exact .goes (.globalSleep lane) (by cases lane <;> rfl) nofun nofun nofun
    · exact .goes (.peer lane) (by cases lane <;> rfl) nofun nofun nofun
  | globalSleep lane => exact .goes (.peer lane) (by cases lane <;> rfl) nofun nofun nofun
  | peer lane =>
    simp only [turn]
    split_ifs
    · exact .goes (.peerSleep lane) (by cases lane <;> rfl) nofun nofun nofun
    · exact turned_pass lane (by cases lane <;> rfl) nofun
  | peerSleep lane => exact turned_pass lane (by cases lane <;> rfl) nofun
  | sub => exact .lowers rfl
  | notify => exact .notifies rfl

theorem get?_goto (c c' : ℕ) (pc : AcquirePc) :
    (l.goto c pc).acquisitions.get? c' = if c = c' then some pc else l.acquisitions.get? c' := by
  simp only [goto, OrdMap.get?_insert]

theorem get?_finish (c c' : ℕ) :
    (l.finish c).acquisitions.get? c' = if c = c' then none else l.acquisitions.get? c' := by
  simp only [finish, OrdMap.get?_erase]

theorem step_turn (hpc : l.acquisitions.get? c = some pc) (sleeps : Bool) :
    l.step (.turn c sleeps) = l.turn c sleeps pc := by
  simp only [step, hpc]

/-! ### The counter -/

theorem inProgress_goto (l : Limiter) (c : ℕ) (pc' : AcquirePc) : (l.goto c pc').inProgress +
    OrdMap.countOne AcquirePc.raised (l.acquisitions.get? c) = l.inProgress + pc'.raised.toNat :=
  OrdMap.countVals_insert _ _ _ _

theorem inProgress_finish (l : Limiter) (c : ℕ) : l.inProgress =
    (l.finish c).inProgress + OrdMap.countOne AcquirePc.raised (l.acquisitions.get? c) :=
  OrdMap.countVals_erase _ _ _

theorem countOne_some : OrdMap.countOne AcquirePc.raised (some pc) = pc.raised.toNat := rfl

theorem raised_le_inProgress (hpc : l.acquisitions.get? c = some pc) :
    pc.raised.toNat ≤ l.inProgress := by
  have hfinish := inProgress_finish l c
  rw [hpc, countOne_some] at hfinish
  omega

/-- A turn moves the counter and the number of acquisitions in progress together. -/
theorem Turned.counter (h : Turned l c pc l') (hpc : l.acquisitions.get? c = some pc)
    (hle : l.inProgress ≤ l.priorityWaiting) :
    l'.priorityWaiting + l.inProgress = l.priorityWaiting + l'.inProgress := by
  have hgoto := inProgress_goto l c
  have hfinish := inProgress_finish l c
  have hone := raised_le_inProgress hpc
  rw [hpc, countOne_some] at hgoto hfinish
  cases h with
  | stays => rfl
  | goes pc' hraised =>
    have hsame := hgoto pc'
    rw [hraised] at hsame
    show l.priorityWaiting + l.inProgress = l.priorityWaiting + _
    rw [Nat.add_right_cancel hsame]
  | ends hraised =>
    rw [hraised] at hfinish
    show l.priorityWaiting + l.inProgress = l.priorityWaiting + _
    rw [hfinish]
    rfl
  | raises hadd =>
    subst hadd
    have hmore : (l.goto c (.global .priority)).inProgress = l.inProgress + 1 := hgoto _
    show l.priorityWaiting + 1 + l.inProgress = l.priorityWaiting + (l.goto c _).inProgress
    omega
  | lowers hsub =>
    subst hsub
    have hless : (l.goto c .notify).inProgress + 1 = l.inProgress := hgoto _
    show l.priorityWaiting - 1 + l.inProgress = l.priorityWaiting + (l.goto c _).inProgress
    omega
  | notifies hnotify =>
    subst hnotify
    show l.priorityWaiting + l.inProgress = l.priorityWaiting + (l.finish c).inProgress
    rw [hfinish]
    rfl

/-- A call that begins has not counted itself. -/
theorem inProgress_acquire (l : Limiter) (c : ℕ) (lane : Lane) :
    (l.step (.acquire c lane)).priorityWaiting = l.priorityWaiting ∧
      (l.step (.acquire c lane)).inProgress = l.inProgress := by
  simp only [step]
  split
  · rename_i hnone
    have hgoto := inProgress_goto l c lane.start
    rw [hnone] at hgoto
    refine ⟨rfl, hgoto.trans ?_⟩
    cases lane <;> rfl
  · exact ⟨rfl, rfl⟩

theorem inProgress_le_step (e : LimiterStep) (hle : l.inProgress ≤ l.priorityWaiting) :
    (l.step e).inProgress ≤ (l.step e).priorityWaiting := by
  cases e with
  | acquire c lane =>
    obtain ⟨hcounter, hcount⟩ := inProgress_acquire l c lane
    rwa [hcounter, hcount]
  | turn c sleeps =>
    cases hpc : l.acquisitions.get? c with
    | none => simpa only [step, hpc] using hle
    | some pc =>
      rw [step_turn hpc]
      have hcounter := (turned l c sleeps pc).counter hpc hle
      omega
  | drop c =>
    have hfinish := inProgress_finish l c
    show (l.finish c).inProgress ≤ l.priorityWaiting
    omega

theorem counted_step {e : LimiterStep} (hspares : l.Spares e)
    (hcounted : l.priorityWaiting = l.inProgress) :
    (l.step e).priorityWaiting = (l.step e).inProgress := by
  cases e with
  | acquire c lane =>
    obtain ⟨hcounter, hcount⟩ := inProgress_acquire l c lane
    rwa [hcounter, hcount]
  | turn c sleeps =>
    cases hpc : l.acquisitions.get? c with
    | none => simpa only [step, hpc] using hcounted
    | some pc =>
      rw [step_turn hpc]
      have hcounter := (turned l c sleeps pc).counter hpc hcounted.ge
      omega
  | drop c =>
    have hfinish := inProgress_finish l c
    show l.priorityWaiting = (l.finish c).inProgress
    cases hpc : l.acquisitions.get? c with
    | none =>
      rw [hpc] at hfinish
      exact hcounted.trans hfinish
    | some pc =>
      rw [hpc, countOne_some, hspares pc hpc] at hfinish
      exact hcounted.trans hfinish

/-- Dropping a priority acquisition in progress leaves the counter raised. -/
theorem counter_drop (hle : l.inProgress ≤ l.priorityWaiting)
    (hpc : l.acquisitions.get? c = some pc) (hraised : pc.raised = true) :
    (l.step (.drop c)).inProgress < (l.step (.drop c)).priorityWaiting := by
  have hfinish := inProgress_finish l c
  rw [hpc, countOne_some, hraised] at hfinish
  have hone : l.inProgress = (l.finish c).inProgress + 1 := hfinish
  show (l.finish c).inProgress < l.priorityWaiting
  omega

/-! ### The futures -/

/-- No future remembers more calls of `notify_waiters` than there have been. -/
def FuturesPast (l : Limiter) : Prop :=
  ∀ c calls, l.acquisitions.get? c = some (.await calls) → calls ≤ l.notifyCalls

/-- With no priority acquisition in progress nor about to notify no bulk acquisition is parked, nor
about to be. -/
def Covered (l : Limiter) : Prop :=
  l.inProgress = 0 → l.NoNotify → ∀ c, l.acquisitions.get? c ≠ some .create ∧ ¬ l.Parked c

theorem FuturesPast.goto (h : l.FuturesPast) (hawait : ∀ calls, pc' = .await calls →
    calls = l.notifyCalls) : (l.goto c pc').FuturesPast := by
  intro c' calls hc'
  rw [get?_goto] at hc'
  split_ifs at hc'
  · exact (hawait calls (Option.some.inj hc')).le
  · exact h c' calls hc'

theorem FuturesPast.finish (h : l.FuturesPast) : (l.finish c).FuturesPast := by
  intro c' calls hc'
  rw [get?_finish] at hc'
  split_ifs at hc'
  exact h c' calls hc'

theorem FuturesPast.turned (h : l.FuturesPast) (hturn : Turned l c pc l') : l'.FuturesPast := by
  cases hturn with
  | stays => exact h
  | goes pc' _ _ _ hawait => exact h.goto fun calls hcalls => (hawait calls hcalls).2
  | ends => exact h.finish
  | raises => exact goto (l := { l with priorityWaiting := l.priorityWaiting + 1 }) h nofun
  | lowers => exact goto (l := { l with priorityWaiting := l.priorityWaiting - 1 }) h nofun
  | notifies =>
    refine finish (l := { l with notifyCalls := l.notifyCalls + 1 }) ?_
    exact fun c' calls hc' => (h c' calls hc').trans (Nat.le_succ _)

theorem FuturesPast.step (h : l.FuturesPast) (e : LimiterStep) : (l.step e).FuturesPast := by
  cases e with
  | acquire c lane =>
    simp only [Limiter.step]
    split
    · exact h.goto fun calls hcalls => by cases lane <;> cases hcalls
    · exact h
  | turn c sleeps =>
    simp only [Limiter.step]
    split
    · exact h.turned (Limiter.turned _ _ _ _)
    · exact h
  | drop c => exact h.finish

/-- The calls other than `c` are not about to notify if none is afterwards. -/
theorem NoNotify.of_goto (h : (l.goto c pc').NoNotify)
    (hc : l.acquisitions.get? c ≠ some .notify) : l.NoNotify := by
  intro c' hc'
  have hsame := h c'
  rw [get?_goto] at hsame
  split_ifs at hsame with heq
  · exact hc (heq ▸ hc')
  · exact hsame hc'

theorem NoNotify.of_finish (h : (l.finish c).NoNotify)
    (hc : l.acquisitions.get? c ≠ some .notify) : l.NoNotify := by
  intro c' hc'
  have hsame := h c'
  rw [get?_finish] at hsame
  split_ifs at hsame with heq
  · exact hc (heq ▸ hc')
  · exact hsame hc'

theorem Covered.goto (h : l.Covered) (hcount : (l.goto c pc').inProgress = l.inProgress)
    (hc : l.acquisitions.get? c ≠ some .notify) (hcreate : pc' = .create → 0 < l.inProgress)
    (hawait : ∀ calls, pc' = .await calls → l.acquisitions.get? c = some .create) :
    (l.goto c pc').Covered := by
  intro hzero hnone c'
  have hzero' : l.inProgress = 0 := hcount.symm.trans hzero
  have hcovered := h hzero' (hnone.of_goto hc)
  by_cases heq : c = c'
  · subst heq
    have hself : (l.goto c pc').acquisitions.get? c = some pc' := by rw [get?_goto, if_pos rfl]
    refine ⟨fun hnow => ?_, ?_⟩
    · exact absurd hzero' (hcreate (Option.some.inj (hself.symm.trans hnow))).ne'
    · rintro ⟨calls, hnow, -⟩
      exact (hcovered c).1 (hawait calls (Option.some.inj (hself.symm.trans hnow)))
  · have hother : (l.goto c pc').acquisitions.get? c' = l.acquisitions.get? c' := by
      rw [get?_goto, if_neg heq]
    refine ⟨hother ▸ (hcovered c').1, ?_⟩
    rintro ⟨calls, hnow, hle⟩
    exact (hcovered c').2 ⟨calls, hother ▸ hnow, hle⟩

theorem Covered.finish (h : l.Covered) (hcount : (l.finish c).inProgress = l.inProgress)
    (hc : l.acquisitions.get? c ≠ some .notify) : (l.finish c).Covered := by
  intro hzero hnone c'
  have hcovered := h (hcount.symm.trans hzero) (hnone.of_finish hc) c'
  refine ⟨fun hnow => ?_, ?_⟩
  · rw [get?_finish] at hnow
    split_ifs at hnow
    exact hcovered.1 hnow
  · rintro ⟨calls, hnow, hle⟩
    rw [get?_finish] at hnow
    split_ifs at hnow
    exact hcovered.2 ⟨calls, hnow, hle⟩

/-- With the counter right, the one turn that can leave a bulk acquisition uncovered is the notify
of the last priority acquisition. -/
theorem Covered.turned (h : l.Covered) (hcounted : l.priorityWaiting = l.inProgress)
    (hpast : l.FuturesPast) (hpc : l.acquisitions.get? c = some pc)
    (hspares : pc = .notify → l.inProgress = 0 → (l.finish c).NoNotify →
      ∀ c', l.acquisitions.get? c' ≠ some .create)
    (hturn : Turned l c pc l') : l'.Covered := by
  have hcount := hturn.counter hpc hcounted.ge
  cases hturn with
  | stays => exact h
  | goes pc' _ hnotify hcreate hawait =>
    refine h.goto (Nat.add_left_cancel hcount).symm ?_ ?_ ?_
    · exact fun hnow => hnotify (Option.some.inj (hpc.symm.trans hnow))
    · exact fun hpc' => hcounted ▸ hcreate hpc'
    · exact fun calls hpc' => (hawait calls hpc').1 ▸ hpc
  | ends _ hnotify =>
    refine h.finish (Nat.add_left_cancel hcount).symm ?_
    exact fun hnow => hnotify (Option.some.inj (hpc.symm.trans hnow))
  | raises hadd =>
    -- the call itself is in progress now
    intro hzero
    let l' : Limiter := { l with priorityWaiting := l.priorityWaiting + 1 }.goto c (.global .priority)
    have hnext : l'.acquisitions.get? c = some (.global .priority) := by rw [get?_goto, if_pos rfl]
    have hself := raised_le_inProgress hnext
    exact absurd hself (by rw [hzero]; exact Nat.not_succ_le_zero 0)
  | lowers hsub =>
    intro _ hnone
    exact absurd (by rw [get?_goto, if_pos rfl]) (hnone c)
  | notifies hnotify =>
    intro hzero hnone c'
    have hsame : (l.finish c).inProgress = l.inProgress := (Nat.add_left_cancel hcount).symm
    have hcreate := hspares hnotify (hsame.symm.trans hzero) hnone c'
    refine ⟨fun hnow => ?_, ?_⟩
    · have hnow' : (l.finish c).acquisitions.get? c' = some .create := hnow
      rw [get?_finish] at hnow'
      split_ifs at hnow'
      exact hcreate hnow'
    · -- every future there is was created before this call
      rintro ⟨calls, hnow, hle⟩
      have hnow' : (l.finish c).acquisitions.get? c' = some (.await calls) := hnow
      have hle' : l.notifyCalls + 1 ≤ calls := hle
      rw [get?_finish] at hnow'
      split_ifs at hnow'
      exact absurd (hpast c' calls hnow') (by omega)

theorem Covered.step (h : l.Covered) (hcounted : l.priorityWaiting = l.inProgress)
    (hpast : l.FuturesPast) {e : LimiterStep} (henabled : l.Enabled e) (hspares : l.Spares e) :
    (l.step e).Covered := by
  cases e with
  | acquire c lane =>
    have hcount := (inProgress_acquire l c lane).2
    simp only [Limiter.step] at hcount ⊢
    split
    · rename_i hnone
      rw [hnone] at hcount
      refine h.goto hcount (by rw [hnone]; nofun) ?_ ?_
      · exact fun hstart => by cases lane <;> cases hstart
      · exact fun calls hstart => by cases lane <;> cases hstart
    · exact h
  | turn c sleeps =>
    cases hpc : l.acquisitions.get? c with
    | none => simpa only [Limiter.step, hpc] using h
    | some pc =>
      rw [step_turn hpc]
      refine h.turned hcounted hpast hpc ?_ (Limiter.turned l c sleeps pc)
      exact fun hnotify => hspares (hnotify ▸ hpc)
  | drop c =>
    cases hpc : l.acquisitions.get? c with
    | none =>
      refine h.finish ?_ (by rw [hpc]; nofun)
      have hfinish := inProgress_finish l c
      rw [hpc] at hfinish
      exact hfinish.symm
    | some pc =>
      refine h.finish ?_ fun hnow => ?_
      · have hfinish := inProgress_finish l c
        rw [hpc, countOne_some, hspares pc hpc] at hfinish
        exact hfinish.symm
      · exact absurd (henabled .notify hnow) nofun

/-- What every run whose steps spare the waiting bulk acquisitions keeps. -/
structure Sound (l : Limiter) : Prop where
  counted : l.priorityWaiting = l.inProgress
  past : l.FuturesPast
  covered : l.Covered

theorem Sound.reach (hreach : (system.restrict Spares).Reach {} l) : l.Sound := by
  refine hreach.invariant ⟨rfl, nofun, fun _ _ c => ⟨nofun, ?_⟩⟩ ?_
  · rintro ⟨calls, hc, -⟩
    cases hc
  · rintro l e _ - ⟨hcounted, hpast, hcovered⟩ ⟨hspares, henabled, rfl⟩
    exact ⟨counted_step hspares hcounted, hpast.step e, hcovered.step hcounted hpast henabled hspares⟩

theorem inProgress_le_reach (hreach : system.Reach {} l) : l.inProgress ≤ l.priorityWaiting :=
  hreach.invariant (Nat.zero_le 0) fun _ e _ _ hle hstep => hstep.2 ▸ inProgress_le_step e hle

/-- A bulk acquisition that creates its future after the last notify is parked. -/
theorem Starved.of_create (hzero : l.inProgress = 0) (hnone : l.NoNotify)
    (hcreate : l.acquisitions.get? c = some .create) (sleeps : Bool) :
    (l.step (.turn c sleeps)).Starved := by
  rw [step_turn hcreate]
  have hgoto := inProgress_goto l c (.await l.notifyCalls)
  rw [hcreate] at hgoto
  refine ⟨hgoto.trans hzero, fun c' hnow => ?_, c, l.notifyCalls, ?_, le_rfl⟩
  · simp only [turn, get?_goto] at hnow
    split_ifs at hnow
    · cases hnow
    · exact hnone c' hnow
  · simp only [turn, get?_goto, if_true]

/-- **Bulk acquisitions starve exactly if a priority acquisition is dropped, or notifies too
early.** In every run in which no priority acquisition in progress is dropped, and the last one
does not notify between the load of a bulk acquisition and its future, the counter is the number of
priority acquisitions in progress, and when there is none, nor one about to notify, no bulk
acquisition is parked.  Any other step spoils the counter, or leaves a bulk acquisition that its
next turn parks. -/
theorem no_bulk_starved (l : Limiter) :
    ((system.restrict Spares).Reach {} l → l.priorityWaiting = l.inProgress ∧ ¬ l.Starved) ∧
      ∀ e, system.Reach {} l → l.Enabled e → ¬ l.Spares e →
        (l.step e).priorityWaiting ≠ (l.step e).inProgress ∨
          ∃ c, ∀ sleeps, ((l.step e).step (.turn c sleeps)).Starved := by
  constructor
  · intro hreach
    obtain ⟨hcounted, -, hcovered⟩ := Sound.reach hreach
    refine ⟨hcounted, ?_⟩
    rintro ⟨hzero, hnone, c, hparked⟩
    exact (hcovered hzero hnone c).2 hparked
  · intro e hreach _ hmisses
    have hle := inProgress_le_reach hreach
    cases e with
    | acquire c lane => exact absurd trivial hmisses
    | turn c sleeps =>
      right
      obtain ⟨hpc, hzero, hnone, c', hcreate⟩ : l.acquisitions.get? c = some .notify ∧
          l.inProgress = 0 ∧ (l.finish c).NoNotify ∧
          ∃ c', l.acquisitions.get? c' = some .create := by
        simpa [Spares] using hmisses
      have hne : c ≠ c' := by
        rintro rfl
        cases hpc.symm.trans hcreate
      have hfinish := inProgress_finish l c
      rw [hpc] at hfinish
      rw [step_turn hpc]
      refine ⟨c', Starved.of_create ?_ hnone ?_⟩
      · exact hfinish.symm.trans hzero
      · show (l.finish c).acquisitions.get? c' = some .create
        rw [get?_finish, if_neg hne, hcreate]
    | drop c =>
      left
      obtain ⟨pc, hpc, hraised⟩ : ∃ pc, l.acquisitions.get? c = some pc ∧ pc.raised = true := by
        simpa [Spares] using hmisses
      exact (counter_drop hle hpc hraised).ne'

/-- A priority acquisition is dropped in its sleep, and a bulk acquisition comes after it. -/
def droppedPriority : List LimiterStep :=
  [.acquire 0 .priority, .turn 0 false, .turn 0 true, .drop 0,
    .acquire 1 .bulk, .turn 1 false, .turn 1 false]

/-- A bulk acquisition loads the counter, the priority acquisition ends, and only then the future is
created. -/
def notifyBeforeFuture : List LimiterStep :=
  [.acquire 0 .priority, .turn 0 false, .acquire 1 .bulk, .turn 1 false,
    .turn 0 false, .turn 0 false, .turn 0 false, .turn 0 false, .turn 1 false]

/-- **A dropped priority acquisition leaves the counter raised for good**, and a notify before the
future is lost: both park a bulk acquisition with nothing in progress and no step pending. -/
theorem bulk_starved :
    (∃ l, system.Reach {} l ∧ l.NoPending ∧ l.inProgress = 0 ∧ l.priorityWaiting = 1 ∧ l.Parked 1) ∧
      ∃ l, system.Reach {} l ∧ l.NoPending ∧ l.inProgress = 0 ∧ l.Parked 1 := by
  have hpending : ∀ w n, NoPending
      ⟨w, n, OrdMap.empty.insert 1 (.await n)⟩ := by
    intro w n c sleeps
    by_cases hc : 1 = c
    · subst hc
      simp [step, turn]
    · simp [step, OrdMap.get?_insert, hc]
  constructor
  · refine ⟨droppedPriority.foldl step {}, .of_foldl .init ?_, hpending 1 0, by decide, by decide,
      0, by decide, by decide⟩
    exact ⟨trivial, trivial, trivial, fun pc hpc => by cases hpc; rfl, trivial, trivial, trivial,
      trivial⟩
  · refine ⟨notifyBeforeFuture.foldl step {}, .of_foldl .init ?_, hpending 0 1, by decide, 1,
      by decide, by decide⟩
    exact ⟨trivial, trivial, trivial, trivial, trivial, trivial, trivial, trivial, trivial, trivial⟩

/-- A bulk acquisition that awaits its future when the priority acquisition ends. -/
def futureBeforeNotify : List LimiterStep :=
  [.acquire 0 .priority, .turn 0 false, .acquire 1 .bulk, .turn 1 false, .turn 1 false,
    .turn 0 false, .turn 0 false, .turn 0 false, .turn 0 false]

/-- It is woken; and the drop of a sleeping priority acquisition is where the other run goes
wrong. -/
theorem no_bulk_starved_woken :
    let woken := futureBeforeNotify.foldl step {}
    let asleep := (droppedPriority.take 3).foldl step {}
    (woken.priorityWaiting = woken.inProgress ∧ ¬ woken.Starved ∧
        woken.acquisitions.get? 1 = some (.await 0) ∧ woken.notifyCalls = 1) ∧
      asleep.acquisitions.get? 0 = some (.globalSleep .priority) ∧ ¬ asleep.Spares (.drop 0) ∧
        ((asleep.step (.drop 0)).priorityWaiting ≠ (asleep.step (.drop 0)).inProgress ∨
          ∃ c, ∀ sleeps, ((asleep.step (.drop 0)).step (.turn c sleeps)).Starved) := by
  intro woken asleep
  constructor
  · obtain ⟨hcounted, hawake⟩ := (no_bulk_starved woken).1 (by
        rw [system, Lts.restrict_ofFun]
        refine .of_foldl .init ⟨⟨trivial, trivial⟩, ⟨?_, trivial⟩, ⟨trivial, trivial⟩,
          ⟨?_, trivial⟩, ⟨?_, trivial⟩, ⟨?_, trivial⟩, ⟨?_, trivial⟩, ⟨?_, trivial⟩,
          ⟨?_, trivial⟩, trivial⟩
        all_goals intro hnotify
        iterate 6 cases hnotify
        intro _ _ c hcreate
        have hmem : (c, AcquirePc.create) ∈ [(0, .notify), (1, .await 0)] :=
          OrdMap.mem_entries.2 hcreate
        simp at hmem)
    exact ⟨hcounted, hawake, by decide, by decide⟩
  · have hmisses : ¬ asleep.Spares (.drop 0) := by
      intro hspares
      cases hspares _ rfl
    refine ⟨by decide, hmisses, (no_bulk_starved asleep).2 (.drop 0) ?_ ?_ hmisses⟩
    · exact .of_foldl .init ⟨trivial, trivial, trivial, trivial⟩
    · intro pc hpc
      cases hpc
      rfl

end Limiter

end Replicore
