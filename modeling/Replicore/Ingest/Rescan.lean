import Replicore.Ingest.Pipeline
import Replicore.Ingest.Walk
import Replicore.Store.NormalForm

/-!
# The rescan is authoritative

A pass of the scanner reports every replicated node that it finds, and after that every live row
whose path is not among them.  The ingest takes these events in with whatever else comes through the
channel.  Here the disk stays as it is, and nothing else writes to the store or to the suppression
set; the watcher may still report writes and deletes, at any moment and of any path.

One look at a path is enough, unless the suppression set expects just what is there: then that entry
is used up, and the next look counts (`Looked`).  So after two passes the index says what is on the
disk, whatever it said before, and the task has nothing more to do, whatever is reported
(`rescan_authoritative`).  A path at which something stands that is not replicated keeps its row.

The absolute path of a file is given by its part below the share, as bytes.
-/

namespace Replicore

open Bytes Debounce

namespace Ingest

open RemoteApply (seen seenRow)
open Disk (Name)

/-! ### Paths below the share -/

/-- What the scanner sends: the file with these names, and a path. -/
def sent : LocalEvent (List Name) → LocalEvent (List Byte)
  | .write names => .write (belowShare names)
  | .delete rel => .delete rel
  | .rename source names => .rename source (belowShare names)

/-- The live rows, as `live_files` returns them. -/
def liveFiles (st : Store) : List Path :=
  (st.allFiles.filter fun r => !r.tombstone).map FileRow.path

theorem mem_liveFiles {st : Store} {p : Path} :
    p ∈ liveFiles st ↔ ∃ r, st.loadRow p = some r ∧ r.tombstone = false := by
  simp only [liveFiles, List.mem_map, List.mem_filter, Bool.not_eq_true', Store.loadRow,
    Option.map_eq_some_iff]
  constructor
  · rintro ⟨r, ⟨hr, ht⟩, rfl⟩
    exact ⟨r, ⟨r.toRow, Store.mem_allFiles.1 hr, rfl⟩, ht⟩
  · rintro ⟨r, ⟨row, hrow, rfl⟩, ht⟩
    exact ⟨_, ⟨Store.mem_allFiles.2 hrow, ht⟩, rfl⟩

/-! ### What stands at a path -/

section Rescan

variable [Blake3] {cfg : Cfg (List Byte)} {s s' : State (List Byte)} {p : Path}
  {x : Option Observed}

/-- A look at the path sees this node, or there is nothing. -/
def Stands (cfg : Cfg (List Byte)) (d : Reads (List Byte)) (p : Path) : Option Observed → Prop
  | some o => d.pathExists p = true ∧ observe cfg.maxFileBytes d (utf8 p) = .ok (some (.node o))
  | none => d.pathExists p = false ∧
      ∀ o, observe cfg.maxFileBytes d (utf8 p) ≠ .ok (some (.node o))

/-- The suppression set expects what stands at the path. -/
def Expects (m : TimedSuppressor) (p : Path) (x : Option Observed) : Prop :=
  (checkObserved m.kinds p x).1 = true

/-- The row says what stands at the path. -/
def Agrees (s : State (List Byte)) (p : Path) (x : Option Observed) : Prop :=
  seenRow (s.store.loadRow p) = seen x

/-- The task takes in what it has seen at the path. -/
def State.takeIn (cfg : Cfg (List Byte)) (s : State (List Byte)) (p : Path) (x : Option Observed) :
    State (List Byte) :=
  let (hit, suppress) := match x with
    | some o => s.suppress.checkWrite p (o.contentHash.getD 0)
    | none => s.suppress.checkDelete p
  if hit then { s with suppress }
  else { s with suppress, store := s.store.exec cfg.nodeId (.appendLocal (observedChange p x)) }

theorem handleWrite_cases (cfg : Cfg (List Byte)) (s : State (List Byte)) (rel : Path)
    (below : List Byte) :
    (∃ o, observe cfg.maxFileBytes s.disk below = .ok (some (.node o)) ∧
      s.handleWrite cfg rel below = s.takeIn cfg rel (some o)) ∨
    (∀ o, observe cfg.maxFileBytes s.disk below ≠ .ok (some (.node o))) ∧
      s.handleWrite cfg rel below = s := by
  unfold State.handleWrite
  split
  · rename_i o ho
    exact .inl ⟨o, ho, rfl⟩
  · rename_i hne
    exact .inr ⟨hne, rfl⟩

theorem handleDelete_eq (s : State (List Byte)) (rel : Path) :
    s.handleDelete cfg rel = if s.disk.pathExists rel then s else
      State.takeIn cfg { s with
        pending := s.pending.erase rel, log := .cancelled rel s.now :: s.log } rel none := rfl

/-- The check of what was seen: the entry is used up if it expects just that. -/
theorem takeIn_cases (cfg : Cfg (List Byte)) (s : State (List Byte)) (p : Path)
    (x : Option Observed) :
    (Expects s.suppress p x ∧ s.takeIn cfg p x = { s with suppress := s.suppress.erase p }) ∨
    (¬ Expects s.suppress p x ∧ s.takeIn cfg p x =
      { s with store := s.store.exec cfg.nodeId (.appendLocal (observedChange p x)) }) := by
  cases x with
  | none =>
    have hkinds := congrArg Prod.fst (TimedSuppressor.checkDelete_kinds s.suppress p)
    simp only [Expects, checkObserved, ← hkinds, State.takeIn, TimedSuppressor.checkDelete]
    by_cases h : (s.suppress.get? p).map Prod.fst = some .delete
    · exact .inl ⟨by simp [h], by simp [h]⟩
    · exact .inr ⟨by simp [h], by simp [h]⟩
  | some o =>
    have hkinds := congrArg Prod.fst
      (TimedSuppressor.checkWrite_kinds s.suppress p (o.contentHash.getD 0))
    simp only [Expects, checkObserved, ← hkinds, State.takeIn, TimedSuppressor.checkWrite]
    by_cases h : (s.suppress.get? p).map Prod.fst = some (.write (o.contentHash.getD 0))
    · exact .inl ⟨by simp [h], by simp [h]⟩
    · exact .inr ⟨by simp [h], by simp [h]⟩

omit [Blake3] in
theorem capture_of_observe {maxFileBytes : U64} {d : Reads (List Byte)} {below : List Byte}
    {seen : Option Seen} (h : observe maxFileBytes d below = .ok seen) :
    ∃ m, d.capture below = .ok m := by
  unfold observe at h
  cases hcap : d.capture below with
  | error e =>
    rw [hcap] at h
    cases h
  | ok m => exact ⟨m, rfl⟩

/-! ### Runs on a disk that stays as it is -/

/-- Nothing but the task writes to the store or the suppression set, and no move is reported. -/
def Undisturbed : Act (List Byte) → Prop
  | .outside _ _ _ | .recv (.rename _ _) => False
  | _ => True

/-- What the calls answer belongs together. -/
structure Coherent {E : Type} (d : Reads (List Byte)) (t : Tree E) : Prop where
  /-- `capture` begins with the call that tells whether the path exists. -/
  captured : ∀ p m, d.capture (utf8 p) = .ok m → d.pathExists p = true
  /-- What the walk finds exists. -/
  listed : ∀ names ftype, (names, ftype) ∈ t.nodes [] → ∀ p, relStr names = some p →
    d.pathExists p = true

/-- Pending writes are kept under the text of their path. -/
def Named (s : State (List Byte)) : Prop :=
  ∀ rel below d, s.pending.get? rel = some (below, d) → below = utf8 rel ∧ rel ≠ []

/-- What the states of every run of the node have in common. -/
structure Sound (cfg : Cfg (List Byte)) (s : State (List Byte)) : Prop where
  inv : Inv cfg.quiesce s
  named : Named s
  relativize : cfg.relativize = relativize

omit [Blake3] in
theorem Named.erase (h : Named s) (rel : Path) {pending : OrdMap Path (List Byte × ℕ)}
    (hp : pending = s.pending.erase rel) :
    ∀ rel below d, pending.get? rel = some (below, d) → below = utf8 rel ∧ rel ≠ [] := by
  intro rel' below d hget
  rw [hp, OrdMap.get?_erase] at hget
  split_ifs at hget
  exact h rel' below d hget

theorem Sound.step (h : Sound cfg s) {act : Act (List Byte)} (hok : Allowed s act) :
    Sound cfg (s.step cfg act) where
  inv := h.inv.step hok
  relativize := h.relativize
  named := by
    cases act with
    | recv event =>
      cases event with
      | write below =>
        simp only [State.step, State.recv, h.relativize]
        split
        · rename_i rel hrel
          intro rel' below' d hget
          rw [OrdMap.get?_insert] at hget
          split_ifs at hget with heq
          · cases hget
            exact heq ▸ relativize_eq_some.1 hrel
          · exact h.named rel' below' d hget
        · exact h.named
      | delete rel =>
        obtain ⟨-, -, -, ⟨hp, -⟩ | ⟨-, hp, -⟩⟩ := handleDelete_frame cfg s rel
        · intro rel' below d hget
          exact h.named rel' below d (hp ▸ hget)
        · exact h.named.erase rel hp
      | rename source dest =>
        obtain ⟨-, -, -, ⟨hp, -⟩ | ⟨hp, -⟩⟩ := handleRename_frame cfg s source dest
        · intro rel' below d hget
          exact h.named rel' below d (hp ▸ hget)
        · exact h.named.erase source hp
    | next =>
      obtain ⟨began, ⟨rel, below⟩, ripe, hf⟩ := hok
      simp only [State.step, hf]
      exact h.named.erase rel (handleWrite_frame cfg _ rel below).1
    | tick ripe => exact h.named
    | sweep => exact h.named
    | elapse ms => exact h.named
    | outside disk store suppress => exact h.named

/-- What is taken in at a path is what stands there. -/
def Took (cfg : Cfg (List Byte)) (s s' : State (List Byte)) (p : Path) (x : Option Observed) :
    Prop :=
  (Expects s.suppress p x ∧ s'.store = s.store ∧ s'.suppress = s.suppress.erase p) ∨
    (¬ Expects s.suppress p x ∧ s'.suppress = s.suppress ∧
      s'.store = s.store.exec cfg.nodeId (.appendLocal (observedChange p x)))

/-- Taking in, in a state with the same store and suppression set. -/
theorem took_takeIn (cfg : Cfg (List Byte)) {s t : State (List Byte)} (hstore : t.store = s.store)
    (hsuppress : t.suppress = s.suppress) (p : Path) (x : Option Observed) :
    Took cfg s (t.takeIn cfg p x) p x ∧ (t.takeIn cfg p x).disk = t.disk ∧
      (t.takeIn cfg p x).log = t.log := by
  obtain ⟨hexp, heq⟩ | ⟨hexp, heq⟩ := takeIn_cases cfg t p x
  · rw [heq]
    exact ⟨.inl ⟨hsuppress ▸ hexp, hstore, congrArg (·.erase p) hsuppress⟩, rfl, rfl⟩
  · rw [heq]
    exact ⟨.inr ⟨hsuppress ▸ hexp, hsuppress,
      congrArg (·.exec cfg.nodeId (.appendLocal (observedChange p x))) hstore⟩, rfl, rfl⟩

/-- The mark that a look leaves which took in what stands at the path. -/
def LookMark (p : Path) (x : Option Observed) (m : Mark Path (List Byte)) : Prop :=
  match x with
  | some _ => ∃ below t, m = .fired p below t
  | none => ∃ t, m = .cancelled p t

section

omit [Blake3]

variable {q : Path} {y : Option Observed}

theorem LookMark.not_touched {rel : Path} {below : List Byte} {t : ℕ}
    (h : LookMark p x (.touched rel below t)) : False := by
  cases x with
  | none =>
    obtain ⟨_, heq⟩ := h
    cases heq
  | some o =>
    obtain ⟨_, _, heq⟩ := h
    cases heq

theorem LookMark.of_fired {rel : Path} {below : List Byte} {t : ℕ}
    (h : LookMark p x (.fired rel below t)) : rel = p ∧ ∃ o, x = some o := by
  cases x with
  | none =>
    obtain ⟨_, heq⟩ := h
    cases heq
  | some o =>
    obtain ⟨_, _, heq⟩ := h
    cases heq
    exact ⟨rfl, o, rfl⟩

theorem LookMark.of_cancelled {rel : Path} {t : ℕ} (h : LookMark p x (.cancelled rel t)) :
    rel = p := by
  cases x with
  | none =>
    obtain ⟨_, heq⟩ := h
    cases heq
    rfl
  | some o =>
    obtain ⟨_, _, heq⟩ := h
    cases heq

/-- A mark is of a look at one path. -/
theorem LookMark.path_eq {m : Mark Path (List Byte)} (h : LookMark q y m) (h' : LookMark p x m) :
    q = p := by
  cases m with
  | touched rel below t => exact h.not_touched.elim
  | fired rel below t => exact h.of_fired.1.symm.trans h'.of_fired.1
  | cancelled rel t => exact h.of_cancelled.symm.trans h'.of_cancelled

end

/-- What a step does to the store and the suppression set, and the marks it leaves: nothing is taken
in, and the marks are of writes received and of looks that saw no node; or one path is looked at,
and what stands there is taken in. -/
theorem step_effect {E : Type} {t : Tree E} (h : Sound cfg s) (hc : Coherent s.disk t)
    {act : Act (List Byte)} (hok : Allowed s act) (hact : Undisturbed act) :
    (s.step cfg act).disk = s.disk ∧ ∃ marks, (s.step cfg act).log = marks ++ s.log ∧
      (((s.step cfg act).store = s.store ∧
        (∀ q e, (s.step cfg act).suppress.get? q = some e → s.suppress.get? q = some e) ∧
        ∀ m ∈ marks, (∃ rel below t, m = .touched rel below t) ∨
          ∃ rel below t, m = .fired rel below t ∧
            ∀ o, observe cfg.maxFileBytes s.disk (utf8 rel) ≠ .ok (some (.node o))) ∨
      ∃ q y m, Stands cfg s.disk q y ∧ Took cfg s (s.step cfg act) q y ∧ marks = [m] ∧
        LookMark q y m ∧ (y = none ∨ (s.pending.get? q).isSome)) := by
  have hquiet : ∀ (s₁ s₂ : State (List Byte)), s₂.suppress = s₁.suppress → ∀ q e,
      s₂.suppress.get? q = some e → s₁.suppress.get? q = some e := fun s₁ s₂ heq q e he => heq ▸ he
  cases act with
  | recv event =>
    cases event with
    | write below =>
      simp only [State.step, State.recv]
      split
      · exact ⟨rfl, [_], rfl, .inl ⟨rfl, hquiet _ _ rfl, fun m hm =>
          .inl ⟨_, _, _, List.mem_singleton.1 hm⟩⟩⟩
      · exact ⟨rfl, [], rfl, .inl ⟨rfl, hquiet _ _ rfl, fun m hm => by cases hm⟩⟩
    | delete rel =>
      simp only [State.step, State.recv, handleDelete_eq]
      split_ifs with hex
      · exact ⟨rfl, [], rfl, .inl ⟨rfl, hquiet _ _ rfl, fun m hm => by cases hm⟩⟩
      · have hstands : Stands cfg s.disk rel none := by
          refine ⟨by simpa using hex, fun o ho => hex ?_⟩
          obtain ⟨m, hm⟩ := capture_of_observe ho
          exact hc.captured rel m hm
        obtain ⟨htook, hdisk, hlog⟩ := took_takeIn cfg
          (t := { s with pending := s.pending.erase rel, log := .cancelled rel s.now :: s.log })
          rfl rfl rel none
        exact ⟨hdisk, [_], hlog, .inr ⟨rel, none, _, hstands, htook, rfl, ⟨_, rfl⟩, .inl rfl⟩⟩
    | rename source dest => exact absurd hact id
  | tick ripe => exact ⟨rfl, [], rfl, .inl ⟨rfl, hquiet _ _ rfl, fun m hm => by cases hm⟩⟩
  | next =>
    obtain ⟨began, ⟨rel, below⟩, ripe, hf⟩ := hok
    obtain ⟨d, hget, -⟩ := mem_due.1 ((h.inv.ripe began _ hf rel below).1 List.mem_cons_self)
    obtain ⟨rfl, -⟩ := h.named rel below d hget
    have hpending : (s.pending.get? rel).isSome := by rw [hget, Option.isSome_some]
    simp only [State.step, hf]
    obtain ⟨o, ho, heq⟩ | ⟨hno, heq⟩ := handleWrite_cases cfg
      { s with
        flush := some (began, ripe), pending := s.pending.erase rel
        log := .fired rel (utf8 rel) s.now :: s.log } rel (utf8 rel)
    · have hstands : Stands cfg s.disk rel (some o) := by
        obtain ⟨m, hm⟩ := capture_of_observe ho
        exact ⟨hc.captured rel m hm, ho⟩
      rw [heq]
      obtain ⟨htook, hdisk, hlog⟩ := took_takeIn cfg
        (t := { s with
          flush := some (began, ripe), pending := s.pending.erase rel
          log := .fired rel (utf8 rel) s.now :: s.log }) rfl rfl rel (some o)
      exact ⟨hdisk, [_], hlog,
        .inr ⟨rel, some o, _, hstands, htook, rfl, ⟨_, _, rfl⟩, .inr hpending⟩⟩
    · rw [heq]
      exact ⟨rfl, [_], rfl, .inl ⟨rfl, hquiet _ _ rfl, fun m hm =>
        .inr ⟨rel, _, _, List.mem_singleton.1 hm, hno⟩⟩⟩
  | sweep =>
    exact ⟨rfl, [], rfl, .inl ⟨rfl, fun q e he => (TimedSuppressor.get?_sweep.1 he).1,
      fun m hm => by cases hm⟩⟩
  | elapse ms => exact ⟨rfl, [], rfl, .inl ⟨rfl, hquiet _ _ rfl, fun m hm => by cases hm⟩⟩
  | outside disk store suppress => exact absurd hact id

/-! ### What stands at a path, the row and the suppression set -/

omit [Blake3] in
/-- Only one thing stands at a path. -/
theorem Stands.unique {d : Reads (List Byte)} {y : Option Observed} (h : Stands cfg d p x)
    (h' : Stands cfg d p y) : x = y := by
  cases x with
  | none =>
    cases y with
    | none => rfl
    | some o => exact absurd (h'.1.symm.trans h.1) (by decide)
  | some o =>
    cases y with
    | none => exact absurd (h'.1.symm.trans h.1) (by decide)
    | some o' =>
      have heq := h.2.symm.trans h'.2
      cases heq
      rfl

/-- What is taken in at a path is the business of its row only. -/
theorem loadRow_append_of_ne {nodeId : NodeId} {st : Store} {q : Path} {y : Option Observed}
    (hne : q ≠ p) :
    (st.exec nodeId (.appendLocal (observedChange q y))).loadRow p = st.loadRow p := by
  have hpath : (observedChange q y).path = q := by cases y <;> rfl
  cases hrun : st.appendLocal nodeId (observedChange q y) with
  | error e => simp [Store.exec, Store.commit, hrun]
  | ok r =>
    obtain ⟨o, st'⟩ := r
    have hexec : st.exec nodeId (.appendLocal (observedChange q y)) = st' := by
      simp [Store.exec, Store.commit, hrun]
    rw [hexec]
    obtain ⟨-, rfl, -⟩ | ⟨-, -, -, hfiles, -⟩ := Store.appendLocal_cases hrun
    · rfl
    · rw [Store.loadRow, Store.loadRow, hfiles, hpath, OrdMap.get?_insert_of_ne _ _ hne]

theorem append_of_agrees {nodeId : NodeId} {st : Store} (h : seenRow (st.loadRow p) = seen x) :
    st.exec nodeId (.appendLocal (observedChange p x)) = st := by
  simp [Store.exec, Store.commit, RemoteApply.appendLocal_of_matches h]

/-- After a change is taken in, the row says what stands there. -/
theorem agrees_append (nodeId : NodeId) (st : Store) (p : Path) (x : Option Observed) :
    seenRow ((st.exec nodeId (.appendLocal (observedChange p x))).loadRow p) = seen x := by
  by_cases h : seenRow (st.loadRow p) = seen x
  · rw [append_of_agrees h]
    exact h
  · obtain ⟨op, st', hrun, hrow⟩ := RemoteApply.appendLocal_of_differs nodeId h
    simp only [Store.exec, hrun, Store.commit]
    exact RemoteApply.seenRow_of_rowIs hrow

/-- Whether what stands at a path is expected depends on the entry for it. -/
theorem expects_iff {m : TimedSuppressor} :
    Expects m p x ↔ ∃ e, m.get? p = some e ∧
      e.1 = match x with
        | some o => .write (o.contentHash.getD 0)
        | none => .delete := by
  unfold Expects
  cases x with
  | none =>
    simp only [checkObserved, Suppressor.checkDelete, TimedSuppressor.get?_kinds,
      Option.map_eq_some_iff]
    split_ifs with h
    · simpa using h
    · simpa using h
  | some o =>
    simp only [checkObserved, Suppressor.checkWrite, TimedSuppressor.get?_kinds,
      Option.map_eq_some_iff]
    split_ifs with h
    · simpa using h
    · simpa using h

theorem not_expects_of_subset {m m' : TimedSuppressor}
    (hsub : ∀ q e, m'.get? q = some e → m.get? q = some e) (h : ¬ Expects m p x) :
    ¬ Expects m' p x := by
  rw [expects_iff] at h ⊢
  rintro ⟨e, he, hkind⟩
  exact h ⟨e, hsub p e he, hkind⟩

/-- An entry that expected what was seen is used up. -/
theorem not_expects_erase (m : TimedSuppressor) (p : Path) (x : Option Observed) :
    ¬ Expects (OrdMap.erase m p) p x := by
  rw [expects_iff, OrdMap.get?_erase_self]
  rintro ⟨e, he, -⟩
  cases he

section Steps

variable {E : Type} {t : Tree E} {act : Act (List Byte)}

/-- A row that says what stands at its path stays as it is. -/
theorem Agrees.step (ha : Agrees s p x) (h : Sound cfg s) (hc : Coherent s.disk t)
    (hx : Stands cfg s.disk p x) (hok : Allowed s act) (hact : Undisturbed act) :
    Agrees (s.step cfg act) p x := by
  obtain ⟨-, marks, -, ⟨hstore, -, -⟩ | ⟨q, y, m, hq, htook, -, -⟩⟩ := step_effect h hc hok hact
  · rw [Agrees, hstore]
    exact ha
  · obtain ⟨-, hstore, -⟩ | ⟨-, -, hstore⟩ := htook
    · rw [Agrees, hstore]
      exact ha
    · rw [Agrees, hstore]
      obtain rfl | hne := eq_or_ne q p
      · rw [hx.unique hq] at ha ⊢
        exact agrees_append cfg.nodeId s.store q y
      · rw [loadRow_append_of_ne hne]
        exact ha

/-- The suppression set only shrinks. -/
theorem not_expects_step (he : ¬ Expects s.suppress p x) (h : Sound cfg s)
    (hc : Coherent s.disk t) (hok : Allowed s act) (hact : Undisturbed act) :
    ¬ Expects (s.step cfg act).suppress p x := by
  obtain ⟨-, marks, -, ⟨-, hsub, -⟩ | ⟨q, y, m, -, htook, -, -⟩⟩ := step_effect h hc hok hact
  · exact not_expects_of_subset hsub he
  · obtain ⟨-, -, hsup⟩ | ⟨-, hsup, -⟩ := htook
    · rw [hsup]
      refine not_expects_of_subset (fun q' e he' => ?_) he
      rw [OrdMap.get?_erase] at he'
      split_ifs at he'
      exact he'
    · rw [hsup]
      exact he

/-- A look that takes in what stands at the path uses up the entry, or sets the row right. -/
theorem looked_step (h : Sound cfg s) (hc : Coherent s.disk t) (hx : Stands cfg s.disk p x)
    (hok : Allowed s act) (hact : Undisturbed act) {marks : List (Mark Path (List Byte))}
    (hlog : (s.step cfg act).log = marks ++ s.log) {m : Mark Path (List Byte)} (hm : m ∈ marks)
    (hlook : LookMark p x m) :
    Agrees (s.step cfg act) p x ∨
      Expects s.suppress p x ∧ ¬ Expects (s.step cfg act).suppress p x := by
  obtain ⟨-, marks', hlog', heff⟩ := step_effect h hc hok hact
  have hmarks : marks = marks' := List.append_cancel_right (hlog.symm.trans hlog')
  subst hmarks
  obtain ⟨-, -, hidle⟩ | ⟨q, y, m', hq, htook, hsingle, hlook', -⟩ := heff
  · -- the marks of a step that takes nothing in are not of a look at what stands there
    obtain ⟨rel, below, t, rfl⟩ | ⟨rel, below, t, rfl, hno⟩ := hidle m hm
    · exact hlook.not_touched.elim
    · obtain ⟨hrel, o, rfl⟩ := hlook.of_fired
      exact absurd hx.2 (hrel ▸ hno o)
  · rw [hsingle, List.mem_singleton] at hm
    subst hm
    have hqp : q = p := hlook'.path_eq hlook
    subst hqp
    obtain rfl := hx.unique hq
    obtain ⟨hexp, -, hsup⟩ | ⟨-, -, hstore⟩ := htook
    · exact .inr ⟨hexp, by rw [hsup]; exact not_expects_erase _ _ _⟩
    · left
      rw [Agrees, hstore]
      exact agrees_append cfg.nodeId s.store q x

/-- A path at which something stands that is not replicated keeps its row. -/
theorem loadRow_step (h : Sound cfg s) (hc : Coherent s.disk t)
    (hno : ∀ x, ¬ Stands cfg s.disk p x) (hok : Allowed s act) (hact : Undisturbed act) :
    (s.step cfg act).store.loadRow p = s.store.loadRow p := by
  obtain ⟨-, marks, -, ⟨hstore, -, -⟩ | ⟨q, y, m, hq, htook, -, -⟩⟩ := step_effect h hc hok hact
  · rw [hstore]
  · have hne : q ≠ p := fun heq => hno y (heq ▸ hq)
    obtain ⟨-, hstore, -⟩ | ⟨-, -, hstore⟩ := htook
    · rw [hstore]
    · rw [hstore, loadRow_append_of_ne hne]

end Steps

/-! ### Runs -/

/-- A run of these steps, with nothing to disturb the node. -/
inductive Run (cfg : Cfg (List Byte)) :
    State (List Byte) → List (Act (List Byte)) → State (List Byte) → Prop
  | nil (s : State (List Byte)) : Run cfg s [] s
  | cons {s s' : State (List Byte)} {act : Act (List Byte)} {acts : List (Act (List Byte))} :
    Allowed s act → Undisturbed act → Run cfg (s.step cfg act) acts s' → Run cfg s (act :: acts) s'

/-- A state of a run on a disk that stays as it is. -/
structure Still {E : Type} (cfg : Cfg (List Byte)) (t : Tree E) (s : State (List Byte)) :
    Prop where
  sound : Sound cfg s
  coherent : Coherent s.disk t

section Runs

variable {E : Type} {t : Tree E} {act : Act (List Byte)} {acts : List (Act (List Byte))}

theorem Still.disk_step (h : Still cfg t s) (hok : Allowed s act) (hact : Undisturbed act) :
    (s.step cfg act).disk = s.disk := (step_effect h.sound h.coherent hok hact).1

theorem Still.step (h : Still cfg t s) (hok : Allowed s act) (hact : Undisturbed act) :
    Still cfg t (s.step cfg act) where
  sound := h.sound.step hok
  coherent := by
    rw [h.disk_step hok hact]
    exact h.coherent

namespace Run

theorem append {a b : List (Act (List Byte))} {mid : State (List Byte)} (h : Run cfg s a mid)
    (h' : Run cfg mid b s') : Run cfg s (a ++ b) s' := by
  induction h with
  | nil => exact h'
  | cons hok hact _ ih => exact .cons hok hact (ih h')

theorem still (h : Run cfg s acts s') (hs : Still cfg t s) : Still cfg t s' := by
  induction h with
  | nil => exact hs
  | cons hok hact _ ih => exact ih (hs.step hok hact)

theorem disk (h : Run cfg s acts s') (hs : Still cfg t s) : s'.disk = s.disk := by
  induction h with
  | nil => rfl
  | cons hok hact _ ih => exact (ih (hs.step hok hact)).trans (hs.disk_step hok hact)

theorem agrees (h : Run cfg s acts s') (hs : Still cfg t s) (hx : Stands cfg s.disk p x)
    (ha : Agrees s p x) : Agrees s' p x := by
  induction h with
  | nil => exact ha
  | cons hok hact _ ih =>
    refine ih (hs.step hok hact) ?_ (ha.step hs.sound hs.coherent hx hok hact)
    rw [hs.disk_step hok hact]
    exact hx

theorem not_expects (h : Run cfg s acts s') (hs : Still cfg t s)
    (he : ¬ Expects s.suppress p x) : ¬ Expects s'.suppress p x := by
  induction h with
  | nil => exact he
  | cons hok hact _ ih =>
    exact ih (hs.step hok hact) (not_expects_step he hs.sound hs.coherent hok hact)

theorem loadRow (h : Run cfg s acts s') (hs : Still cfg t s)
    (hno : ∀ x, ¬ Stands cfg s.disk p x) : s'.store.loadRow p = s.store.loadRow p := by
  induction h with
  | nil => rfl
  | cons hok hact _ ih =>
    refine (ih (hs.step hok hact) ?_).trans (loadRow_step hs.sound hs.coherent hno hok hact)
    rw [hs.disk_step hok hact]
    exact hno

/-- A run of a state leaves these marks. -/
theorem log (h : Run cfg s acts s') (hs : Still cfg t s) : ∃ new, s'.log = new ++ s.log := by
  induction h with
  | nil => exact ⟨[], rfl⟩
  | cons hok hact _ ih =>
    obtain ⟨new, hnew⟩ := ih (hs.step hok hact)
    obtain ⟨-, marks, hmarks, -⟩ := step_effect hs.sound hs.coherent hok hact
    exact ⟨new ++ marks, by rw [hnew, hmarks, List.append_assoc]⟩

/-- A run with a look at what stands at the path: the row is right after it, or the suppression set
expected just that before the run, and does not any more. -/
theorem looked (h : Run cfg s acts s') (hs : Still cfg t s) (hx : Stands cfg s.disk p x)
    {new : List (Mark Path (List Byte))} (hlog : s'.log = new ++ s.log)
    {m : Mark Path (List Byte)} (hm : m ∈ new) (hlook : LookMark p x m) :
    Agrees s' p x ∨ Expects s.suppress p x ∧ ¬ Expects s'.suppress p x := by
  induction h generalizing new with
  | nil s =>
    have hnil : new = [] := List.append_left_eq_self.1 hlog.symm
    rw [hnil] at hm
    cases hm
  | @cons s s' act acts hok hact hrun ih =>
    have hs' := hs.step hok hact
    have hx' : Stands cfg (s.step cfg act).disk p x := by
      rw [hs.disk_step hok hact]
      exact hx
    obtain ⟨new', hnew'⟩ := hrun.log hs'
    obtain ⟨-, marks, hmarks, -⟩ := step_effect hs.sound hs.coherent hok hact
    have hsplit : new = new' ++ marks := by
      refine List.append_cancel_right (hlog.symm.trans ?_)
      rw [hnew', hmarks, List.append_assoc]
    rw [hsplit, List.mem_append] at hm
    obtain hm | hm := hm
    · -- the look comes later, and what it finds expected was expected before
      refine (ih hs' hx' hnew' hm).imp_right fun ⟨hexp, hnot⟩ => ⟨?_, hnot⟩
      by_contra hno
      exact not_expects_step hno hs.sound hs.coherent hok hact hexp
    · obtain ha | ⟨hexp, hnot⟩ := looked_step hs.sound hs.coherent hx hok hact hmarks hm hlook
      · exact .inl (hrun.agrees hs' hx' ha)
      · exact .inr ⟨hexp, hrun.not_expects hs' hnot⟩

/-- Where something stands, no write is given up. -/
theorem not_cancelled (h : Run cfg s acts s') (hs : Still cfg t s)
    (hex : s.disk.pathExists p = true) {new : List (Mark Path (List Byte))}
    (hlog : s'.log = new ++ s.log) (n : ℕ) : .cancelled p n ∉ new := by
  induction h generalizing new with
  | nil s =>
    rw [List.append_left_eq_self.1 hlog.symm]
    exact List.not_mem_nil
  | @cons s s' act acts hok hact hrun ih =>
    have hs' := hs.step hok hact
    obtain ⟨new', hnew'⟩ := hrun.log hs'
    obtain ⟨hdisk, marks, hmarks, heff⟩ := step_effect hs.sound hs.coherent hok hact
    have hsplit : new = new' ++ marks := by
      refine List.append_cancel_right (hlog.symm.trans ?_)
      rw [hnew', hmarks, List.append_assoc]
    rw [hsplit, List.mem_append, not_or]
    refine ⟨ih hs' (hdisk ▸ hex) hnew', fun hm => ?_⟩
    obtain ⟨-, -, hidle⟩ | ⟨q, y, m, hq, -, hsingle, hlook, -⟩ := heff
    · obtain ⟨_, _, _, heq⟩ | ⟨_, _, _, heq, -⟩ := hidle _ hm
      · cases heq
      · cases heq
    · rw [hsingle, List.mem_singleton] at hm
      subst hm
      cases y with
      | none =>
        obtain ⟨t', heq⟩ := hlook
        cases heq
        exact absurd (hq.1.symm.trans hex) (by decide)
      | some o =>
        obtain ⟨below, t', heq⟩ := hlook
        cases heq

/-- A write event that is received leaves its mark. -/
theorem touched (h : Run cfg s acts s') (hs : Still cfg t s) {below : List Byte}
    (hrel : relativize below = some p) (hmem : .recv (.write below) ∈ acts) :
    ∃ new n, s'.log = new ++ s.log ∧ .touched p below n ∈ new := by
  induction h with
  | nil => cases hmem
  | @cons s s' act acts hok hact hrun ih =>
    have hs' := hs.step hok hact
    obtain ⟨new', hnew'⟩ := hrun.log hs'
    obtain ⟨-, marks, hmarks, -⟩ := step_effect hs.sound hs.coherent hok hact
    obtain rfl | hmem := List.mem_cons.1 hmem
    · have hlog : (s.step cfg (.recv (.write below))).log = .touched p below s.now :: s.log := by
        simp only [State.step, State.recv, hs.sound.relativize, hrel]
      refine ⟨new' ++ [.touched p below s.now], s.now, ?_, by simp⟩
      rw [hnew', hlog, List.append_assoc, List.singleton_append]
    · obtain ⟨new, n, hnew, hn⟩ := ih hs' hmem
      exact ⟨new ++ marks, n, by rw [hnew, hmarks, List.append_assoc],
        List.mem_append_left _ hn⟩

/-- So does a delete event of a path where nothing is. -/
theorem cancelled (h : Run cfg s acts s') (hs : Still cfg t s)
    (hex : s.disk.pathExists p = false) (hmem : .recv (.delete p) ∈ acts) :
    ∃ new n, s'.log = new ++ s.log ∧ .cancelled p n ∈ new := by
  induction h with
  | nil => cases hmem
  | @cons s s' act acts hok hact hrun ih =>
    have hs' := hs.step hok hact
    obtain ⟨new', hnew'⟩ := hrun.log hs'
    obtain ⟨hdisk, marks, hmarks, -⟩ := step_effect hs.sound hs.coherent hok hact
    obtain rfl | hmem := List.mem_cons.1 hmem
    · have hlog : (s.step cfg (.recv (.delete p))).log = .cancelled p s.now :: s.log := by
        obtain ⟨-, -, -, ⟨-, -⟩ | ⟨-, -, hl⟩⟩ := handleDelete_frame cfg s p
        · simp only [State.step, State.recv, handleDelete_eq, hex]
          obtain ⟨-, heq⟩ | ⟨-, heq⟩ := takeIn_cases cfg
            { s with pending := s.pending.erase p, log := .cancelled p s.now :: s.log } p none
          · rw [if_neg (by decide), heq]
          · rw [if_neg (by decide), heq]
        · exact hl
      refine ⟨new' ++ [.cancelled p s.now], s.now, ?_, by simp⟩
      rw [hnew', hlog, List.append_assoc, List.singleton_append]
    · obtain ⟨new, n, hnew, hn⟩ := ih hs' (hdisk ▸ hex) hmem
      exact ⟨new ++ marks, n, by rw [hnew, hmarks, List.append_assoc],
        List.mem_append_left _ hn⟩

end Run

/-! ### A pass -/

/-- A pass of the scanner, and all that goes on until the task has handled what came of it: every
event of the pass is received, the deletes after the live rows were read, and no write is pending at
the end. -/
structure Pass (cfg : Cfg (List Byte)) (onDisk : List (List Name)) (s s' : State (List Byte)) :
    Prop where
  run : ∃ acts mid acts', Run cfg s acts mid ∧ Run cfg mid acts' s' ∧
    (∀ names, .write names ∈ scanSends onDisk (liveFiles mid.store) →
      .recv (sent (.write names)) ∈ acts ++ acts') ∧
    ∀ rel, .delete rel ∈ scanSends onDisk (liveFiles mid.store) →
      .recv (sent (.delete rel)) ∈ acts'
  pending : s'.pending = .empty

/-- What stands at the path is the business of a pass: a file that was found, or nothing. -/
def Scanned (onDisk : List (List Name)) (p : Path) (x : Option Observed) : Prop :=
  x = none ∨ p ≠ [] ∧ ∃ names ∈ onDisk, relStr names = some p

variable {onDisk : List (List Name)}

theorem Pass.exists_run (h : Pass cfg onDisk s s') : ∃ acts, Run cfg s acts s' := by
  obtain ⟨acts, mid, acts', hrun, hrun', -⟩ := h.run
  exact ⟨acts ++ acts', hrun.append hrun'⟩

/-- A file that a pass reports is looked at, for nothing stays pending. -/
theorem Pass.looked_write (h : Pass cfg onDisk s s') (hs : Still cfg t s) {o : Observed}
    (hx : Stands cfg s.disk p (some o)) (hp : Scanned onDisk p (some o)) :
    Agrees s' p (some o) ∨
      Expects s.suppress p (some o) ∧ ¬ Expects s'.suppress p (some o) := by
  obtain ⟨acts, mid, acts', hrun, hrun', hwrites, -⟩ := h.run
  have hrun := hrun.append hrun'
  obtain hnone | ⟨hne, names, hnames, hrel⟩ := hp
  · cases hnone
  · have hbelow : relativize (belowShare names) = some p :=
      relativize_eq_some.2 ⟨(utf8Decode_eq_some.1 hrel).symm ▸ rfl, hne⟩
    have hsent := hwrites names (List.mem_append_left _ (List.mem_map_of_mem hnames))
    obtain ⟨new, n, hnew, htouch⟩ := hrun.touched hs hbelow hsent
    obtain ⟨post, pre, rfl⟩ := List.append_of_mem htouch
    have hlog : s'.log = post ++ .touched p (belowShare names) n :: (pre ++ s.log) := by
      rw [hnew, List.append_assoc, List.cons_append]
    have howed : owed p s'.log = none :=
      Exact.owed_eq_none (h.pending ▸ (hrun.still hs).sound.inv.exact) p
    obtain hsome | ⟨m, hm, ⟨below, t', rfl⟩ | ⟨t', rfl⟩⟩ :=
      owed_or_settled p (belowShare names) n post (pre ++ s.log)
    · rw [← hlog, howed] at hsome
      cases hsome
    · exact hrun.looked hs hx hnew (List.mem_append_left _ hm) ⟨below, t', rfl⟩
    · exact absurd (List.mem_append_left _ hm) (hrun.not_cancelled hs hx.1 hnew t')

/-- A path where nothing is has no live row when the live rows are read, or it is reported. -/
theorem Pass.looked_delete (h : Pass cfg onDisk s s') (hs : Still cfg t s)
    (hwalk : walk t = some (.ok onDisk)) (hx : Stands cfg s.disk p none) :
    Agrees s' p none ∨ Expects s.suppress p none ∧ ¬ Expects s'.suppress p none := by
  obtain ⟨acts, mid, acts', hrun, hrun', -, hdeletes⟩ := h.run
  have hmid := hrun.still hs
  have hxmid : Stands cfg mid.disk p none := hrun.disk hs ▸ hx
  by_cases hlive : p ∈ liveFiles mid.store
  · have hgone : ∀ names ∈ onDisk, relStr names ≠ some p := by
      intro names hnames hrel
      obtain ⟨⟨names', ftype⟩, hmem, rfl⟩ := List.mem_map.1 ((perm_walk hwalk).mem_iff.1 hnames)
      have hexists := hs.coherent.listed names' ftype (List.mem_of_mem_filter hmem) p hrel
      exact absurd (hx.1.symm.trans hexists) (by decide)
    have hsent := hdeletes p (delete_mem_scanSends.2 ⟨hlive, hgone⟩)
    obtain ⟨new, n, hnew, hcancel⟩ := hrun'.cancelled hmid hxmid.1 hsent
    refine (hrun'.looked hmid hxmid hnew hcancel ⟨n, rfl⟩).imp_right fun ⟨hexp, hnot⟩ => ⟨?_, hnot⟩
    by_contra hno
    exact hrun.not_expects hs hno hexp
  · refine .inl (hrun'.agrees hmid hxmid ?_)
    rw [mem_liveFiles] at hlive
    simp only [Agrees, seenRow, seen, Option.map_none]
    cases hrow : mid.store.loadRow p with
    | none => rfl
    | some r =>
      have htomb : r.tombstone = true := by
        by_contra hlive'
        exact hlive ⟨r, hrow, by simpa using hlive'⟩
      simp [htomb]

/-- **A pass looks at every path that is its business**: afterwards its row is right, or an entry of
the suppression set has been used up for it. -/
theorem Pass.looked (h : Pass cfg onDisk s s') (hs : Still cfg t s)
    (hwalk : walk t = some (.ok onDisk)) (hx : Stands cfg s.disk p x)
    (hp : Scanned onDisk p x) :
    Agrees s' p x ∨ Expects s.suppress p x ∧ ¬ Expects s'.suppress p x := by
  cases x with
  | none => exact h.looked_delete hs hwalk hx
  | some o => exact h.looked_write hs hx hp

/-! ### Afterwards -/

/-- Every row that is the business of a pass is right. -/
def Settled (cfg : Cfg (List Byte)) (onDisk : List (List Name)) (s : State (List Byte)) : Prop :=
  ∀ p x, Stands cfg s.disk p x → Scanned onDisk p x → Agrees s p x

/-- A node that stands at the path was found. -/
def Known (cfg : Cfg (List Byte)) (onDisk : List (List Name)) (s : State (List Byte)) (p : Path) :
    Prop :=
  ∀ o, Stands cfg s.disk p (some o) → Scanned onDisk p (some o)

/-- Nothing is pending but what was reported. -/
theorem pending_step (h : Sound cfg s) (hok : Allowed s act) (hact : Undisturbed act) {rel : Path}
    (hrel : ((s.step cfg act).pending.get? rel).isSome) :
    (s.pending.get? rel).isSome ∨
      ∃ below, act = .recv (.write below) ∧ relativize below = some rel := by
  have herase : ∀ {q : Path} {pending : OrdMap Path (List Byte × ℕ)},
      pending = s.pending.erase q → (pending.get? rel).isSome → (s.pending.get? rel).isSome := by
    intro q pending hp hget
    rw [hp, OrdMap.get?_erase] at hget
    split_ifs at hget
    · cases hget
    · exact hget
  cases act with
  | recv event =>
    cases event with
    | write below =>
      simp only [State.step, State.recv, h.relativize] at hrel
      split at hrel
      · rename_i rel' hrel'
        rw [OrdMap.get?_insert] at hrel
        split_ifs at hrel with heq
        · exact .inr ⟨below, rfl, heq ▸ hrel'⟩
        · exact .inl hrel
      · exact .inl hrel
    | delete q =>
      obtain ⟨-, -, -, ⟨hp, -⟩ | ⟨-, hp, -⟩⟩ := handleDelete_frame cfg s q
      · exact .inl (hp ▸ hrel)
      · exact .inl (herase hp hrel)
    | rename source dest => exact absurd hact id
  | next =>
    obtain ⟨began, ⟨q, below⟩, ripe, hf⟩ := hok
    simp only [State.step, hf] at hrel
    exact .inl (herase (handleWrite_frame cfg _ q below).1 hrel)
  | tick ripe => exact .inl hrel
  | sweep => exact .inl hrel
  | elapse ms => exact .inl hrel
  | outside disk store suppress => exact absurd hact id

/-- Where all rows are right, a step that looks at what was found leaves the store as it is. -/
theorem Settled.step (h : Settled cfg onDisk s) (hs : Still cfg t s)
    (hknown : ∀ rel, (s.pending.get? rel).isSome → Known cfg onDisk s rel)
    (hok : Allowed s act) (hact : Undisturbed act) : (s.step cfg act).store = s.store := by
  obtain ⟨-, marks, -, ⟨hstore, -, -⟩ | ⟨q, y, m, hq, htook, -, -, hy⟩⟩ :=
    step_effect hs.sound hs.coherent hok hact
  · exact hstore
  · obtain ⟨-, hstore, -⟩ | ⟨-, -, hstore⟩ := htook
    · exact hstore
    · have hscanned : Scanned onDisk q y := by
        cases y with
        | none => exact .inl rfl
        | some o => exact hknown q (hy.resolve_left nofun) o hq
      rw [hstore, append_of_agrees (h q y hq hscanned)]

/-- So does a run that reports what was found. -/
theorem Settled.run (h : Settled cfg onDisk s) (hs : Still cfg t s)
    (hknown : ∀ rel, (s.pending.get? rel).isSome → Known cfg onDisk s rel)
    (hrun : Run cfg s acts s')
    (hacts : ∀ below rel, .recv (.write below) ∈ acts → relativize below = some rel →
      Known cfg onDisk s rel) : s'.store = s.store := by
  induction hrun with
  | nil => rfl
  | @cons s s' act acts hok hact hrun ih =>
    have hstore := h.step hs hknown hok hact
    have hdisk := hs.disk_step hok hact
    refine (ih ?_ (hs.step hok hact) (fun rel hrel => ?_) fun below rel hmem hrel => ?_).trans
      hstore
    · intro p x hx hp
      rw [Agrees, hstore]
      exact h p x (hdisk ▸ hx) hp
    · rw [Known, hdisk]
      obtain hrel | ⟨below, rfl, hbelow⟩ := pending_step hs.sound hok hact hrel
      · exact hknown rel hrel
      · exact hacts below rel List.mem_cons_self hbelow
    · rw [Known, hdisk]
      exact hacts below rel (List.mem_cons_of_mem _ hmem) hrel

end Runs

theorem Sound.of_reach {s₀ : State (List Byte)} (h₀ : Starts s₀)
    (hrel : cfg.relativize = Ingest.relativize) (h : (system cfg).Reach s₀ s) : Sound cfg s := by
  refine h.invariant ⟨h₀.inv _, fun rel below d hget => ?_, hrel⟩ fun s act s' _ hs hstep => ?_
  · rw [h₀.pending, OrdMap.get?_empty] at hget
    cases hget
  · obtain ⟨hok, rfl⟩ := hstep
    exact hs.step hok

/-- **The rescan is authoritative.**  From any state that the node can be in, on a disk that stays
as it is and that the walk can read: after two passes of the scanner, whatever the watcher reports
meanwhile, every file that was found has a live row with its content and its metadata, and no path
where nothing is has a live row, whatever the index and the suppression set said before.  One pass is
enough for a path if the suppression set did not expect what stands there.  A path where something
stands that is not replicated keeps its row.  And then nothing that is reported of what was found
writes to the store any more. -/
theorem rescan_authoritative {E : Type} {t : Tree E} {onDisk : List (List Name)}
    {s₀ s₁ s₂ : State (List Byte)} (hstart : Starts s) (hrel : cfg.relativize = relativize)
    (hreach : (system cfg).Reach s s₀) (hcoherent : Coherent s₀.disk t)
    (hwalk : walk t = some (.ok onDisk)) (h₁ : Pass cfg onDisk s₀ s₁)
    (h₂ : Pass cfg onDisk s₁ s₂) :
    (∀ p x, Stands cfg s₀.disk p x → Scanned onDisk p x →
      seenRow (s₂.store.loadRow p) = seen x ∧
        (¬ Expects s₀.suppress p x → seenRow (s₁.store.loadRow p) = seen x)) ∧
    (∀ p, (∀ x, ¬ Stands cfg s₀.disk p x) → s₂.store.loadRow p = s₀.store.loadRow p) ∧
    ∀ acts s₃, Run cfg s₂ acts s₃ →
      (∀ below rel, .recv (.write below) ∈ acts → relativize below = some rel →
        Known cfg onDisk s₀ rel) →
      s₃.store = s₂.store := by
  have hs₀ : Still cfg t s₀ := ⟨.of_reach hstart hrel hreach, hcoherent⟩
  obtain ⟨acts₁, hrun₁⟩ := h₁.exists_run
  obtain ⟨acts₂, hrun₂⟩ := h₂.exists_run
  have hs₁ := hrun₁.still hs₀
  have hdisk₁ := hrun₁.disk hs₀
  have hdisk₂ := (hrun₂.disk hs₁).trans hdisk₁
  have hsettled : ∀ p x, Stands cfg s₀.disk p x → Scanned onDisk p x → Agrees s₂ p x := by
    intro p x hx hp
    have hx₁ : Stands cfg s₁.disk p x := hdisk₁ ▸ hx
    obtain ha | ⟨-, hnot⟩ := h₁.looked hs₀ hwalk hx hp
    · exact hrun₂.agrees hs₁ hx₁ ha
    · exact (h₂.looked hs₁ hwalk hx₁ hp).resolve_right fun h => hnot h.1
  refine ⟨fun p x hx hp => ⟨hsettled p x hx hp, fun hno => ?_⟩, fun p hno => ?_,
    fun acts s₃ hrun₃ hacts => ?_⟩
  · exact (h₁.looked hs₀ hwalk hx hp).resolve_right fun h => hno h.1
  · rw [hrun₂.loadRow hs₁ (hdisk₁ ▸ hno), hrun₁.loadRow hs₀ hno]
  · have hsettled₂ : Settled cfg onDisk s₂ := fun p x hx hp => hsettled p x (hdisk₂ ▸ hx) hp
    refine hsettled₂.run (hrun₂.still hs₁) (fun rel hpend => ?_) hrun₃ ?_
    · rw [h₂.pending, OrdMap.get?_empty] at hpend
      cases hpend
    · intro below rel hmem hbelow
      rw [Known, hdisk₂]
      exact hacts below rel hmem hbelow

end Rescan

section Example

attribute [local instance] Blake3.polynomial

/-- A share with a pipe in it. -/
def pipeShare : Tree Unit := .node [112] .fifo .nil

/-- The node of this share. -/
def shareCfg : Cfg (List Byte) where
  nodeId := 1
  quiesceMs := 30
  scanIntervalSecs := 1
  maxFileBytes := 1024
  relativize := relativize

/-- The index has a live row for a file that is gone, and an old entry expects a write of the
pipe. -/
def staleIndex : State (List Byte) where
  disk := {
    capture below := if below = [112] then .ok (some pipe) else .error .notFound
    len _ := .error .notFound
    chunk _ := .error .notFound
    pathExists p := decide (utf8 p = [112]) }
  store := Store.exec 1 {} (.appendLocal (observedChange ['q'] (some (.special pipe))))
  suppress := OrdMap.insert .empty ['p'] (.write 0, 0)

/-- The first pass, and the second. -/
def firstPass : List (Act (List Byte)) :=
  [.recv (.write [112]), .recv (.delete ['q']), .elapse 30, .tick [(['p'], [112])], .next, .sweep]

def secondPass : List (Act (List Byte)) :=
  [.recv (.write [112]), .elapse 30, .tick [(['p'], [112])], .next, .sweep]

/-- The node after one pass, and after two. -/
def afterOne : State (List Byte) := firstPass.foldl (State.step shareCfg) staleIndex

def afterTwo : State (List Byte) := secondPass.foldl (State.step shareCfg) afterOne

theorem coherent_staleIndex : Coherent staleIndex.disk pipeShare := by
  refine ⟨fun p m hm => ?_, fun names ftype hmem p hp => ?_⟩
  · simp only [staleIndex] at hm
    split_ifs at hm with hp
    exact decide_eq_true hp
  · have hnames : names = [[112]] := by
      have hmem' : (names, ftype) ∈ [([[112]], FileType.fifo)] := hmem
      rw [List.mem_singleton, Prod.mk.injEq] at hmem'
      exact hmem'.1
    subst hnames
    exact decide_eq_true (utf8Decode_eq_some.1 hp).symm

theorem pass_firstPass : Pass shareCfg [[[112]]] staleIndex afterOne where
  run := by
    refine ⟨firstPass.take 1, _, firstPass.drop 1, .cons (by decide +kernel) trivial (.nil _),
      .cons (by decide +kernel) trivial (.cons trivial trivial (.cons (by decide +kernel) trivial
        (.cons (by decide +kernel) trivial (.cons (by decide +kernel) trivial (.nil _))))),
      fun names hmem => ?_, fun rel hmem => ?_⟩
    · have hnames : names = [[112]] := by simpa [scanSends] using hmem
      exact hnames ▸ List.mem_cons_self
    · obtain ⟨hlive, -⟩ := delete_mem_scanSends.1 hmem
      have hrel : rel = ['q'] := List.mem_singleton.1 ((by decide +kernel :
        liveFiles (staleIndex.step shareCfg (.recv (.write [112]))).store = [['q']]) ▸ hlive)
      exact hrel ▸ List.mem_cons_self
  pending := by decide +kernel

theorem pass_secondPass : Pass shareCfg [[[112]]] afterOne afterTwo where
  run := by
    refine ⟨secondPass, _, [], .cons (by decide +kernel) trivial (.cons trivial trivial
      (.cons (by decide +kernel) trivial (.cons (by decide +kernel) trivial
        (.cons (by decide +kernel) trivial (.nil _))))), .nil _,
      fun names hmem => ?_, fun rel hmem => ?_⟩
    · have hnames : names = [[112]] := by simpa [scanSends] using hmem
      exact hnames ▸ List.mem_cons_self
    · obtain ⟨hlive, hgone⟩ := delete_mem_scanSends.1 hmem
      have hrel : rel = ['p'] := List.mem_singleton.1 ((by decide +kernel :
        liveFiles afterTwo.store = [['p']]) ▸ hlive)
      exact absurd (by decide +kernel) (hrel ▸ hgone [[112]] (List.mem_singleton_self _))
  pending := by decide +kernel

theorem rescan_authoritative_staleIndex :
    seenRow (afterOne.store.loadRow ['p']) = none ∧
      seenRow (afterTwo.store.loadRow ['p']) = seen (some (.special pipe)) ∧
      seenRow (afterTwo.store.loadRow ['q']) = none := by
  obtain ⟨hsettled, -⟩ := rescan_authoritative ⟨rfl, rfl, rfl⟩ rfl .init coherent_staleIndex
    (by decide +kernel) pass_firstPass pass_secondPass
  have hp : Stands shareCfg staleIndex.disk ['p'] (some (.special pipe)) := ⟨by decide, rfl⟩
  have hq : Stands shareCfg staleIndex.disk ['q'] none := by
    refine ⟨by decide, fun o ho => ?_⟩
    cases ho
  have hfound : Scanned [[[112]]] ['p'] (some (.special pipe)) :=
    .inr ⟨by decide, [[112]], List.mem_singleton_self _, by decide +kernel⟩
  exact ⟨by decide +kernel, (hsettled ['p'] _ hp hfound).1, (hsettled ['q'] none hq (.inl rfl)).1⟩

end Example

end Ingest

end Replicore
