import Mathlib.Logic.Function.Basic
import Replicore.Engine.Echo
import Replicore.Ingest.Walk
import Replicore.Lib.Debounce
import Replicore.Store.OpLog

/-!
# The ingest task

The loop of `ingest.rs` with all three handlers, the map of pending writes and the suppression set
with its times.  Events of the watcher and the scanner come through one channel; the task handles
one at a time, and on a tick it takes what is ripe out of the map, path by path.  Between any two
steps of it time passes, and the disk, the store and the suppression set change under it.

An absolute path is a value of a type `P`, and `relativize` is a field of the configuration.

* `State.step` : one step of the task or of its surroundings;
* `Inv` : the map holds what is owed and nothing else, and a flush under way covers what was ripe;
* `looks_at_rest` : a path is looked at only once it has been at rest for the quiescence time, at
  most once for each burst of writes, and no write is forgotten.
-/

namespace Replicore

open Debounce

namespace Ingest

/-! ### The suppression set with its times -/

/-- The suppression set: what is expected at a path, and when that was registered. -/
abbrev TimedSuppressor := OrdMap Path (Suppression × ℕ)

namespace TimedSuppressor

/-- Called before a remote write is staged. -/
def registerWrite (m : TimedSuppressor) (rel : Path) (hash : Hash) (now : ℕ) : TimedSuppressor :=
  OrdMap.insert m rel (.write hash, now)

/-- Called before a remote delete unlinks the path. -/
def registerDelete (m : TimedSuppressor) (rel : Path) (now : ℕ) : TimedSuppressor :=
  OrdMap.insert m rel (.delete, now)

/-- Should an observed write be swallowed?  Consumes the entry on match. -/
def checkWrite (m : TimedSuppressor) (rel : Path) (hash : Hash) : Bool × TimedSuppressor :=
  if (m.get? rel).map Prod.fst = some (.write hash) then (true, m.erase rel) else (false, m)

/-- Should an observed disappearance be swallowed?  Consumes the entry on match. -/
def checkDelete (m : TimedSuppressor) (rel : Path) : Bool × TimedSuppressor :=
  if (m.get? rel).map Prod.fst = some .delete then (true, m.erase rel) else (false, m)

/-- Reap the entries that are `ttl` old. -/
def sweep (m : TimedSuppressor) (ttl now : ℕ) : TimedSuppressor :=
  ⟨m.entries.filter fun e => now - e.2.2 < ttl, m.sorted.sublist List.filter_sublist⟩

/-- What is expected, without the times. -/
def kinds (m : TimedSuppressor) : Suppressor := OrdMap.mapVals Prod.fst m

theorem get?_kinds (m : TimedSuppressor) (rel : Path) :
    m.kinds.get? rel = (m.get? rel).map Prod.fst := OrdMap.get?_mapVals Prod.fst m rel

theorem kinds_erase (m : TimedSuppressor) (rel : Path) :
    kinds (OrdMap.erase m rel) = OrdMap.erase m.kinds rel := by
  refine OrdMap.ext_get? fun p => ?_
  rw [get?_kinds, OrdMap.get?_erase, OrdMap.get?_erase, get?_kinds]
  split_ifs
  · rfl
  · rfl

/-- The checks do not look at the times. -/
theorem checkWrite_kinds (m : TimedSuppressor) (rel : Path) (hash : Hash) :
    ((m.checkWrite rel hash).1, (m.checkWrite rel hash).2.kinds) =
      m.kinds.checkWrite rel hash := by
  unfold checkWrite Suppressor.checkWrite
  rw [get?_kinds]
  split_ifs
  · rw [kinds_erase]
  · rfl

theorem checkDelete_kinds (m : TimedSuppressor) (rel : Path) :
    ((m.checkDelete rel).1, (m.checkDelete rel).2.kinds) = m.kinds.checkDelete rel := by
  unfold checkDelete Suppressor.checkDelete
  rw [get?_kinds]
  split_ifs
  · rw [kinds_erase]
  · rfl

theorem get?_sweep {m : TimedSuppressor} {ttl now : ℕ} {rel : Path} {x : Suppression × ℕ} :
    (m.sweep ttl now).get? rel = some x ↔ m.get? rel = some x ∧ now - x.2 < ttl := by
  rw [← OrdMap.mem_entries, ← OrdMap.mem_entries, sweep, List.mem_filter, decide_eq_true_eq]

end TimedSuppressor

/-! ### A look at the disk -/

/-- Why a look fails. -/
inductive IoError
  | notFound
  | other
  deriving DecidableEq

/-- What the calls of a look answer at the moment. -/
structure Reads (P : Type) where
  /-- `Meta::capture` under the owner policy. -/
  capture : P → Except IoError (Option Meta)
  /-- The length that `symlink_metadata` gives. -/
  len : P → Except IoError U64
  /-- `chunk_file_into_cas`. -/
  chunk : P → Except IoError Manifest
  /-- `symlink_metadata` of the share and the relative path succeeds. -/
  pathExists : Path → Bool

/-- What one pass over a node yields. -/
inductive Seen
  | tooBig (len : U64)
  | node (o : Observed)

variable {P : Type}

/-- The blocking part of `handle_write`; `none` is a node that is not replicated. -/
def observe (maxFileBytes : U64) (d : Reads P) (abs : P) : Except IoError (Option Seen) := do
  match ← d.capture abs with
  | none => return none
  | some m =>
    match m.kind with
    | .regular =>
      let len ← d.len abs
      if maxFileBytes < len then return some (.tooBig len)
      let manifest ← d.chunk abs
      return some (.node (.file manifest m))
    | .symlink =>
      match m.symlinkTarget with
      | some target => return some (.node (.symlink m target))
      | none => throw .other
    | .fifo | .charDev | .blockDev => return some (.node (.special m))

/-! ### The task -/

/-- What the task uses of the configuration; times are in milliseconds. -/
structure Cfg (P : Type) where
  nodeId : NodeId
  quiesceMs : ℕ
  scanIntervalSecs : ℕ
  maxFileBytes : U64
  /-- The share-relative text of an absolute path, if it has one. -/
  relativize : P → Option Path

/-- How long a path has to be at rest. -/
def Cfg.quiesce (cfg : Cfg P) : ℕ := max cfg.quiesceMs 1

/-- How long a suppression entry lives. -/
def Cfg.sweepTtl (cfg : Cfg P) : ℕ := (max cfg.scanIntervalSecs 1 * 2 + 30) * 1000

/-- The task and what it works on. -/
structure State (P : Type) where
  now : ℕ := 0
  disk : Reads P
  store : Store := {}
  suppress : TimedSuppressor := .empty
  /-- Path, and when its quiescence ends. -/
  pending : OrdMap Path (P × ℕ) := .empty
  /-- A flush under way: when it began, and what is still to be handled of what was ripe. -/
  flush : Option (ℕ × List (Path × P)) := none
  /-- History: write events received, looks taken, and pending writes given up. -/
  log : List (Mark Path P) := []

/-- A step of the task, or of its surroundings. -/
inductive Act (P : Type)
  | recv (event : LocalEvent P)
  /-- A tick; the ripe paths come out of a hash map, in any order. -/
  | tick (ripe : List (Path × P))
  /-- The next ripe path is handled. -/
  | next
  /-- The flush is over, and the suppression set is swept. -/
  | sweep
  | elapse (ms : ℕ)
  /-- Something else changes the disk, the store or the suppression set. -/
  | outside (disk : Reads P) (store : Store) (suppress : TimedSuppressor)

namespace State

variable [Blake3] (cfg : Cfg P)

/-- Look at the path, and hand what is seen to the store unless it was expected. -/
def handleWrite (s : State P) (rel : Path) (abs : P) : State P :=
  match observe cfg.maxFileBytes s.disk abs with
  | .ok (some (.node o)) =>
    let (hit, suppress) := s.suppress.checkWrite rel (o.contentHash.getD 0)
    if hit then { s with suppress }
    else
      { s with
        suppress
        store := s.store.exec cfg.nodeId (.appendLocal (observedChange rel (some o))) }
  -- not replicated, too big, vanished, or the look failed
  | _ => s

/-- A path that was reported as gone: look again, and tombstone it unless that was expected. -/
def handleDelete (s : State P) (rel : Path) : State P :=
  if s.disk.pathExists rel then s
  else
    let s := { s with pending := s.pending.erase rel, log := .cancelled rel s.now :: s.log }
    let (hit, suppress) := s.suppress.checkDelete rel
    if hit then { s with suppress }
    else
      { s with
        suppress, store := s.store.exec cfg.nodeId (.appendLocal (observedChange rel none)) }

/-- A move: one op that keeps the identity, unless it was expected. -/
def handleRename (s : State P) (source : Path) (dest : P) : State P :=
  match cfg.relativize dest with
  | none => s
  | some dest =>
    let s := { s with pending := s.pending.erase source, log := .cancelled source s.now :: s.log }
    let (hit, suppress) := s.suppress.checkDelete source
    if hit then { s with suppress }
    else
      { s with suppress, store := s.store.exec cfg.nodeId (.appendLocalRename source dest) }

/-- An event from the channel. -/
def recv (s : State P) : LocalEvent P → State P
  | .write abs =>
    match cfg.relativize abs with
    | some rel =>
      { s with
        pending := s.pending.insert rel (abs, s.now + cfg.quiesce)
        log := .touched rel abs s.now :: s.log }
    | none => s
  | .delete rel => s.handleDelete cfg rel
  | .rename source dest => s.handleRename cfg source dest

/-- One step. -/
def step (s : State P) : Act P → State P
  | .recv event => s.recv cfg event
  | .tick ripe => { s with flush := some (s.now, ripe) }
  | .next =>
    match s.flush with
    | some (began, (rel, abs) :: ripe) =>
      State.handleWrite cfg
        { s with
          flush := some (began, ripe), pending := s.pending.erase rel
          log := .fired rel abs s.now :: s.log } rel abs
    | _ => s
  | .sweep => { s with flush := none, suppress := s.suppress.sweep cfg.sweepTtl s.now }
  | .elapse ms => { s with now := s.now + ms }
  | .outside disk store suppress => { s with disk, store, suppress }

end State

/-- The task takes the next event or tick when it is done with the last one. -/
def Allowed (s : State P) : Act P → Prop
  | .recv _ => s.flush = none
  | .tick ripe => s.flush = none ∧ ripe.Perm (due s.pending s.now)
  | .next => ∃ began x ripe, s.flush = some (began, x :: ripe)
  | .sweep => ∃ began, s.flush = some (began, [])
  | .elapse _ | .outside _ _ _ => True

/-- The runs of the task. -/
def system [Blake3] (cfg : Cfg P) : Lts (State P) (Act P) := .ofFun Allowed (State.step cfg)

/-- The task before its first event. -/
structure Starts (s : State P) : Prop where
  pending : s.pending = .empty
  flush : s.flush = none
  log : s.log = []

/-! ### What the handlers leave alone -/

section Frame

variable [Blake3] (cfg : Cfg P) (s : State P)

theorem handleWrite_frame (rel : Path) (abs : P) :
    (s.handleWrite cfg rel abs).pending = s.pending ∧
      (s.handleWrite cfg rel abs).flush = s.flush ∧ (s.handleWrite cfg rel abs).log = s.log ∧
      (s.handleWrite cfg rel abs).now = s.now ∧ (s.handleWrite cfg rel abs).disk = s.disk := by
  unfold State.handleWrite
  split
  · dsimp only
    split_ifs <;> exact ⟨rfl, rfl, rfl, rfl, rfl⟩
  · exact ⟨rfl, rfl, rfl, rfl, rfl⟩

theorem handleDelete_frame (rel : Path) :
    (s.handleDelete cfg rel).flush = s.flush ∧ (s.handleDelete cfg rel).now = s.now ∧
      (s.handleDelete cfg rel).disk = s.disk ∧
      ((s.handleDelete cfg rel).pending = s.pending ∧ (s.handleDelete cfg rel).log = s.log ∨
        s.disk.pathExists rel = false ∧ (s.handleDelete cfg rel).pending = s.pending.erase rel ∧
          (s.handleDelete cfg rel).log = .cancelled rel s.now :: s.log) := by
  unfold State.handleDelete
  split_ifs with h
  · exact ⟨rfl, rfl, rfl, .inl ⟨rfl, rfl⟩⟩
  · dsimp only
    have hgone : s.disk.pathExists rel = false := by simpa using h
    split_ifs <;> exact ⟨rfl, rfl, rfl, .inr ⟨hgone, rfl, rfl⟩⟩

theorem handleRename_frame (source : Path) (dest : P) :
    (s.handleRename cfg source dest).flush = s.flush ∧
      (s.handleRename cfg source dest).now = s.now ∧
      (s.handleRename cfg source dest).disk = s.disk ∧
      ((s.handleRename cfg source dest).pending = s.pending ∧
          (s.handleRename cfg source dest).log = s.log ∨
        (s.handleRename cfg source dest).pending = s.pending.erase source ∧
          (s.handleRename cfg source dest).log = .cancelled source s.now :: s.log) := by
  unfold State.handleRename
  split
  · exact ⟨rfl, rfl, rfl, .inl ⟨rfl, rfl⟩⟩
  · dsimp only
    split_ifs <;> exact ⟨rfl, rfl, rfl, .inr ⟨rfl, rfl⟩⟩

end Frame

/-! ### The invariant -/

section Runs

variable {s s' : State P}

/-- What every run keeps: the map holds what is owed, every look was taken at rest, and a flush
under way has still to handle exactly what was ripe when it began and is in the map. -/
structure Inv (q : ℕ) (s : State P) : Prop where
  exact : Exact q s.pending s.log
  rested : Rested q s.log
  began : ∀ began ripe, s.flush = some (began, ripe) → began ≤ s.now
  nodup : ∀ began ripe, s.flush = some (began, ripe) → (ripe.map Prod.fst).Nodup
  ripe : ∀ began ripe, s.flush = some (began, ripe) → ∀ rel abs,
    (rel, abs) ∈ ripe ↔ (rel, abs) ∈ due s.pending began

theorem Starts.inv (h : Starts s) (q : ℕ) : Inv q s where
  exact := by
    rw [h.pending, h.log]
    exact exact_empty
  rested := by
    rw [h.log]
    trivial
  began b r hb := by
    rw [h.flush] at hb
    cases hb
  nodup b r hb := by
    rw [h.flush] at hb
    cases hb
  ripe b r hb := by
    rw [h.flush] at hb
    cases hb

/-- A step that is no part of a flush, and leaves the map and the history alone. -/
theorem Inv.of_idle {q : ℕ} (h : Inv q s) (hp : s'.pending = s.pending) (hl : s'.log = s.log)
    (hf : s'.flush = s.flush) (hn : s.now ≤ s'.now) : Inv q s' where
  exact := by
    rw [hp, hl]
    exact h.exact
  rested := by
    rw [hl]
    exact h.rested
  began b r hb := (h.began b r (hf ▸ hb)).trans hn
  nodup b r hb := h.nodup b r (hf ▸ hb)
  ripe b r hb := by
    rw [hp]
    exact h.ripe b r (hf ▸ hb)

/-- A change of the map and the history between two flushes. -/
theorem Inv.of_event {q : ℕ} (hexact : Exact q s'.pending s'.log) (hrested : Rested q s'.log)
    (hf : s'.flush = none) : Inv q s' where
  exact := hexact
  rested := hrested
  began b r hb := by
    rw [hf] at hb
    cases hb
  nodup b r hb := by
    rw [hf] at hb
    cases hb
  ripe b r hb := by
    rw [hf] at hb
    cases hb

variable [Blake3] {cfg : Cfg P}

theorem Inv.recv (h : Inv cfg.quiesce s) (hf : s.flush = none) (event : LocalEvent P) :
    Inv cfg.quiesce (s.recv cfg event) := by
  cases event with
  | write abs =>
    simp only [State.recv]
    split
    · exact .of_event (h.exact.touch _ abs s.now) h.rested hf
    · exact h
  | delete rel =>
    obtain ⟨hflush, hnow, -, ⟨hp, hl⟩ | ⟨-, hp, hl⟩⟩ := handleDelete_frame cfg s rel
    · exact h.of_idle hp hl hflush hnow.ge
    · refine .of_event ?_ ?_ (hflush.trans hf)
      · simp only [State.recv, hp, hl]
        exact h.exact.cancel rel s.now
      · simp only [State.recv, hl]
        exact h.rested
  | rename source dest =>
    obtain ⟨hflush, hnow, -, ⟨hp, hl⟩ | ⟨hp, hl⟩⟩ := handleRename_frame cfg s source dest
    · exact h.of_idle hp hl hflush hnow.ge
    · refine .of_event ?_ ?_ (hflush.trans hf)
      · simp only [State.recv, hp, hl]
        exact h.exact.cancel source s.now
      · simp only [State.recv, hl]
        exact h.rested

/-- The next ripe path was owed, and had been at rest when the flush began. -/
theorem Inv.next (h : Inv cfg.quiesce s) {began : ℕ} {rel : Path} {abs : P}
    {ripe : List (Path × P)} (hf : s.flush = some (began, (rel, abs) :: ripe)) :
    Inv cfg.quiesce (s.step cfg .next) := by
  obtain ⟨d, hget, hd⟩ := mem_due.1 ((h.ripe began _ hf rel abs).1 List.mem_cons_self)
  obtain ⟨t, howed, rfl⟩ := h.exact.owed_of_get? hget
  have hbegan := h.began began _ hf
  have hnodup := h.nodup began _ hf
  rw [List.map_cons, List.nodup_cons] at hnodup
  simp only [State.step, hf]
  obtain ⟨hp, hflush, hl, hnow, -⟩ := handleWrite_frame cfg
    { s with
      flush := some (began, ripe), pending := s.pending.erase rel
      log := .fired rel abs s.now :: s.log } rel abs
  refine ⟨?_, ?_, fun b r hb => ?_, fun b r hb => ?_, fun b r hb rel' abs' => ?_⟩
  · rw [hp, hl]
    exact h.exact.fire rel abs s.now
  · rw [hl]
    exact ⟨⟨t, howed, by omega⟩, h.rested⟩
  · rw [hflush] at hb
    cases hb
    rw [hnow]
    exact hbegan
  · rw [hflush] at hb
    cases hb
    exact hnodup.2
  · rw [hflush] at hb
    cases hb
    rw [hp]
    have hripe := h.ripe began _ hf rel' abs'
    rw [mem_due, OrdMap.get?_erase]
    obtain rfl | hne := eq_or_ne rel rel'
    · -- the keys of what is ripe are distinct, so nothing else of this path is left
      have hnot : (rel, abs') ∉ ripe := fun hmem => hnodup.1 (List.mem_map.2 ⟨_, hmem, rfl⟩)
      simp [hnot]
    · rw [if_neg hne, ← mem_due, ← hripe, List.mem_cons, Prod.mk.injEq]
      simp [hne.symm]

theorem Inv.step (h : Inv cfg.quiesce s) {act : Act P} (hok : Allowed s act) :
    Inv cfg.quiesce (s.step cfg act) := by
  cases act with
  | recv event => exact h.recv hok event
  | tick ripe =>
    obtain ⟨-, hperm⟩ := hok
    refine ⟨h.exact, h.rested, fun b r hb => ?_, fun b r hb => ?_, fun b r hb rel abs => ?_⟩
    · cases hb
      exact le_rfl
    · cases hb
      exact (hperm.map _).nodup_iff.2 (nodup_due s.pending s.now)
    · cases hb
      exact hperm.mem_iff
  | next =>
    obtain ⟨began, ⟨rel, abs⟩, ripe, hf⟩ := hok
    exact h.next hf
  | sweep => exact .of_event h.exact h.rested rfl
  | elapse ms => exact h.of_idle rfl rfl rfl (Nat.le_add_right _ _)
  | outside disk store suppress => exact h.of_idle rfl rfl rfl le_rfl

theorem inv_reach {s₀ : State P} (h₀ : Starts s₀) (h : (system cfg).Reach s₀ s) :
    Inv cfg.quiesce s := by
  refine h.invariant (h₀.inv _) fun s act s' _ hs hstep => ?_
  obtain ⟨hok, rfl⟩ := hstep
  exact hs.step hok

/-- **Writes are looked at when they have come to rest, and none is forgotten.**  In every run of
the task, whatever else happens to the disk, the store and the suppression set: the map of pending
writes is exactly what the history owes; every look was taken at a path that was owed one, by the
name of its last write event, at least the quiescence time after it; so a path is looked at no more
often than it was written; a received write is pending unless a look was taken or the write was
given up since; and when a flush is over, nothing is left that was at rest when it began. -/
theorem looks_at_rest {s₀ : State P} (h₀ : Starts s₀) (h : (system cfg).Reach s₀ s) :
    (∀ rel, s.pending.get? rel = (owed rel s.log).map fun x => (x.1, x.2 + cfg.quiesce)) ∧
      Rested cfg.quiesce s.log ∧
      (∀ rel, countFired rel s.log ≤ countTouched rel s.log) ∧
      (∀ post pre rel abs t, s.log = post ++ .touched rel abs t :: pre →
        (s.pending.get? rel).isSome ∨
          ∃ n ∈ post, (∃ abs' t', n = .fired rel abs' t') ∨ ∃ t', n = .cancelled rel t') ∧
      ∀ began, s.flush = some (began, []) → ∀ rel abs t, owed rel s.log = some (abs, t) →
        began < t + cfg.quiesce := by
  have hinv := inv_reach h₀ h
  refine ⟨hinv.exact, hinv.rested, fun rel => ?_, fun post pre rel abs t hlog => ?_,
    fun began hf rel abs t howed => ?_⟩
  · have hcount := hinv.rested.count_fired_le rel
    omega
  · rw [hinv.exact rel, hlog, Option.isSome_map]
    exact owed_or_settled rel abs t post pre
  · by_contra hle
    have hdue : (rel, abs) ∈ due s.pending began :=
      mem_due.2 ⟨_, hinv.exact.get?_of_owed howed, by omega⟩
    exact absurd ((hinv.ripe began [] hf rel abs).2 hdue) List.not_mem_nil

end Runs

section Example

attribute [local instance] Blake3.polynomial

instance [DecidableEq P] (s : State P) : ∀ act, Decidable (Allowed s act)
  | .recv _ => inferInstanceAs (Decidable (s.flush = none))
  | .tick ripe => inferInstanceAs (Decidable (s.flush = none ∧ ripe.Perm (due s.pending s.now)))
  | .next =>
    match h : s.flush with
    | some (began, x :: ripe) => .isTrue ⟨began, x, ripe, h⟩
    | some (_, []) => .isFalse fun ⟨_, _, _, heq⟩ => by rw [h] at heq; cases heq
    | none => .isFalse fun ⟨_, _, _, heq⟩ => by rw [h] at heq; cases heq
  | .sweep =>
    match h : s.flush with
    | some (began, []) => .isTrue ⟨began, h⟩
    | some (_, _ :: _) => .isFalse fun ⟨_, heq⟩ => by rw [h] at heq; cases heq
    | none => .isFalse fun ⟨_, heq⟩ => by rw [h] at heq; cases heq
  | .elapse _ | .outside _ _ _ => .isTrue trivial

/-- A pipe. -/
def pipe : Meta where
  kind := .fifo
  mode := 0o644
  uid := 0
  gid := 0
  mtimeS := 0
  mtimeNs := 0
  symlinkTarget := none
  rdev := 0
  xattrs := []

/-- A share with one pipe in it. -/
def onePipe : State Path where
  disk := {
    capture p := if p = ['p'] then .ok (some pipe) else .error .notFound
    len _ := .error .notFound
    chunk _ := .error .notFound
    pathExists p := decide (p = ['p']) }

/-- A node whose absolute paths are relative already. -/
def plainCfg : Cfg Path where
  nodeId := 1
  quiesceMs := 30
  scanIntervalSecs := 1
  maxFileBytes := 1024
  relativize := some

/-- Two writes within the quiescence time, and a flush after it. -/
def burst : List (Act Path) :=
  [.recv (.write ['p']), .elapse 20, .recv (.write ['p']), .elapse 20, .tick [], .sweep, .elapse 20,
    .tick [(['p'], ['p'])], .next]

theorem looks_at_rest_burst :
    countTouched ['p'] (burst.foldl (State.step plainCfg) onePipe).log = 2 ∧
      countFired ['p'] (burst.foldl (State.step plainCfg) onePipe).log = 1 ∧
      Rested 30 (burst.foldl (State.step plainCfg) onePipe).log := by
  have hreach : (system plainCfg).Reach onePipe (burst.foldl (State.step plainCfg) onePipe) :=
    .of_foldl .init (by decide +kernel)
  exact ⟨by decide +kernel, by decide +kernel, (looks_at_rest ⟨rfl, rfl, rfl⟩ hreach).2.1⟩

end Example

end Ingest

end Replicore
