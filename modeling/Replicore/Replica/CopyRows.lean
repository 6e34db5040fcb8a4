import Replicore.Conflict.Copies
import Replicore.Conflict.Names
import Replicore.Lib.Lts
import Replicore.Merkle.Tree
import Replicore.Replica.Handling

/-!
# The rows of conflict copies

A conflict copy is named after the content of the version that lost and the part of its metadata
that `naming_hash` covers; its row carries the whole snapshot of the version.  A node derives the
row from whichever version it resolves first and never replaces it.

`SnapshotRow ops p r` : the row `r` at `p` is the copy of one of the ops, one that can lose.  That
all rows at copy names are such is an invariant of every run in which only ops of `ops` are emitted
and handled (`CopyInv`), since the ops that a node has handled explain its rows.  So two nodes
agree on their copies exactly if versions that can lose and share a name share their snapshot
(`Replica.copies_agree_iff`).
-/

namespace Replicore

open Store (opAsCandidate)

/-- An op as the local commands build it: a rename has a source, and a delete carries nothing. -/
structure OpRecord.Built (o : OpRecord) : Prop where
  wellFormed : o.WellFormed
  delete : o.opType = .delete → o.contentHash = none ∧ o.metadata = none

section

variable [Blake3]

/-- In a resolution at `p` the op can lose: another op of the list is concurrent with it there, and
has a larger key. -/
def CanLose (ops : List OpRecord) (p : Path) (o : OpRecord) : Prop :=
  ∃ w ∈ ops, w.Affects p ∧ Concurrent (opAsCandidate p o) (opAsCandidate p w) ∧
    (opAsCandidate p o).key < (opAsCandidate p w).key

/-- The ops of the list that can lose at a path, and have the same content and the same naming hash,
have the same snapshot. -/
def SnapshotsAgree (ops : List OpRecord) : Prop :=
  ∀ o ∈ ops, ∀ o' ∈ ops, o.path = o'.path → CanLose ops o.path o → CanLose ops o.path o' →
    ∀ hash, o.contentHash = some hash → o'.contentHash = some hash →
      Meta.namingHash o.metadata = Meta.namingHash o'.metadata →
        o.mode = o'.mode ∧ o.size = o'.size ∧ o.metadata = o'.metadata

/-- The row at `p` is the conflict copy of an op that can lose. -/
def SnapshotRow (ops : List OpRecord) (p : Path) (r : Row) : Prop :=
  ∃ o ∈ ops, CanLose ops o.path o ∧ ∃ hash, o.contentHash = some hash ∧
    p = copyPathFor o.path hash (Meta.namingHash o.metadata) ∧
    r = (copyRow p (opAsCandidate o.path o)).toRow

theorem OpRecord.Built.opAsCandidate_eq {o : OpRecord} {hash : Hash} (h : o.Built)
    (hc : o.contentHash = some hash) : opAsCandidate o.path o = opVersion o := by
  have hdel : o.opType ≠ .delete := by
    intro hdel
    rw [(h.delete hdel).1] at hc
    cases hc
  simp [opAsCandidate, opVersion, hdel]

/-- The remote side of a resolution is, to the planner, what the op is once it is in the log. -/
theorem remote_of_conflictOf {op : OpRecord} (h : op.Built) {atSource : Bool} {path : Path}
    {remote : Version} (hc : conflictOf op atSource = some (path, remote)) :
    remote.key = (opAsCandidate path op).key ∧
      ∀ hash, remote.contentHash = some hash → path = op.path ∧ remote = opAsCandidate path op := by
  cases atSource with
  | false =>
    cases hc
    refine ⟨?_, fun hash hhash => ⟨rfl, (h.opAsCandidate_eq hhash).symm⟩⟩
    by_cases hdel : op.opType = .delete
    · obtain ⟨hcontent, hmeta⟩ := h.delete hdel
      simp [opAsCandidate, opVersion, Version.key, hdel, hcontent, hmeta]
    · simp [opAsCandidate, opVersion, hdel]
  | true =>
    obtain ⟨old, hold, hpair⟩ := Option.map_eq_some_iff.1 hc
    cases hpair
    refine ⟨?_, fun hash hhash => by cases hhash⟩
    obtain ⟨hren, old', hold', hne⟩ | ⟨-, hnone⟩ := h.wellFormed
    · rw [hold, Option.some.injEq] at hold'
      subst hold'
      simp [opAsCandidate, renameSourceVersion, Version.key, hren, hne.symm, Meta.hashOf]
    · rw [hold] at hnone
      cases hnone

/-! ### The invariant -/

/-- What a store is that has taken in the ops `seen`: these explain the vectors of its rows, and the
rows at copy names are copies. -/
structure CopyInv (ops seen : List OpRecord) (st : Store) : Prop where
  mem : ∀ o ∈ seen, o ∈ ops
  log : ∀ o ∈ st.oplog, o ∈ seen
  explained : ∀ p, ¬ IsCopyName p → ∀ a, 0 < (st.vvAt p).get a →
    ∃ o ∈ seen, o.Affects p ∧ (st.vvAt p).get a ≤ o.vv.get a
  copies : ∀ p r, IsCopyName p → st.files.get? p = some r → SnapshotRow ops p r

namespace CopyInv

variable {ops seen : List OpRecord} {st st' : Store} {op : OpRecord}

theorem init : CopyInv ops [] {} where
  mem := by simp
  log := by simp
  explained p _ a h := by
    rw [Store.vvAt_eq_new (by rfl)] at h
    simp at h
  copies p r _ h := by cases h

theorem onlyCopies (h : CopyInv ops seen st) : OnlyCopies st.lookupVersion := by
  intro cp e hcp hl
  obtain ⟨r, hr, rfl⟩ := Option.map_eq_some_iff.1 hl
  obtain ⟨o, -, -, hash, -, -, rfl⟩ := h.copies cp r hcp hr
  exact VersionVector.compare_eq_equal.2 ⟨le_rfl, le_rfl⟩

/-- The ops seen count, not their order. -/
theorem of_seen (h : CopyInv ops seen st) {seen' : List OpRecord} (hmem : ∀ o ∈ seen', o ∈ ops)
    (hsub : ∀ o ∈ seen, o ∈ seen') : CopyInv ops seen' st := by
  refine ⟨hmem, fun o ho => hsub o (h.log o ho), fun p hp a ha => ?_, h.copies⟩
  obtain ⟨o, ho, hrest⟩ := h.explained p hp a ha
  exact ⟨o, hsub o ho, hrest⟩

/-- The candidates of a resolution are the ops in the log and the one that is resolved. -/
theorem candidates_eq (h : CopyInv ops seen st) (hseen : ∀ o ∈ seen, o ∈ st.oplog ∨ o = op)
    {path : Path} (hpath : ¬ IsCopyName path) {remote : Version} (hvv : remote.vv = op.vv)
    {loc : FileRow} (hloc : st.loadRow path = some loc) :
    st.candidates path remote loc = st.opsAsCandidates path ++ [remote] := by
  refine Store.candidates_of_explained fun a => ?_
  obtain hzero | hpos := Nat.eq_zero_or_pos (loc.vv.get a)
  · rw [hzero]
    exact Nat.zero_le _
  · have hrow := Store.vvAt_eq (Store.loadRow_eq_some.1 hloc).1
    rw [← hrow] at hpos ⊢
    obtain ⟨o, ho, haff, hle⟩ := h.explained path hpath a hpos
    refine hle.trans ?_
    rcases hseen o ho with hlog | rfl
    · exact le_mergeAll (c := opAsCandidate path o)
        (List.mem_append_left _ (Store.mem_opsAsCandidates.2 ⟨o, hlog, haff, rfl⟩)) a
    · rw [← hvv]
      exact le_mergeAll (List.mem_append_right _ (List.mem_singleton_self remote)) a

/-- Every candidate stands for an op; one with content is that op's version. -/
theorem of_candidate (h : CopyInv ops seen st) (hbuilt : ∀ o ∈ ops, o.Built) (hop : op ∈ ops)
    {atSource : Bool} {path : Path} {remote : Version}
    (hc : conflictOf op atSource = some (path, remote)) {c : Version}
    (hmem : c ∈ st.opsAsCandidates path ++ [remote]) :
    ∃ o ∈ ops, o.Affects path ∧ c.vv = o.vv ∧ c.key = (opAsCandidate path o).key ∧
      ∀ hash, c.contentHash = some hash →
        path = o.path ∧ o.contentHash = some hash ∧ c = opAsCandidate path o := by
  rcases List.mem_append.1 hmem with hmem | hmem
  · obtain ⟨o, ho, haff, rfl⟩ := Store.mem_opsAsCandidates.1 hmem
    have hoops := h.mem o (h.log o ho)
    refine ⟨o, hoops, haff, rfl, rfl, fun hash hhash => ?_⟩
    -- content means that the op is matched by its path
    have hlive : ¬ (o.opType = .delete ∨ o.opType = .rename ∧ o.path ≠ path) := by
      intro ht
      simp only [opAsCandidate, ht, if_true] at hhash
      cases hhash
    have hpath : o.path = path := by
      by_contra hne
      rcases haff with hp | hold
      · exact hne hp
      · rcases (hbuilt o hoops).wellFormed with ⟨hren, -⟩ | ⟨-, hnone⟩
        · exact hlive (.inr ⟨hren, hne⟩)
        · rw [hold] at hnone
          cases hnone
    refine ⟨hpath.symm, ?_, rfl⟩
    simpa only [opAsCandidate, hlive, if_false] using hhash
  · rw [List.mem_singleton.1 hmem]
    obtain ⟨haff, hvv⟩ := affects_of_conflictOf hc
    obtain ⟨hkey, hcontent⟩ := remote_of_conflictOf (hbuilt op hop) hc
    refine ⟨op, hop, haff, hvv, hkey, fun hash hhash => ?_⟩
    obtain ⟨hpath, heq⟩ := hcontent hash hhash
    refine ⟨hpath, ?_, heq⟩
    rw [heq, hpath] at hhash
    by_cases hdel : op.opType = .delete
    · simp [opAsCandidate, hdel] at hhash
    · simpa [opAsCandidate, hdel] using hhash

/-- A committed resolution. -/
theorem resolved (h : CopyInv ops seen st) (hbuilt : ∀ o ∈ ops, o.Built)
    (hnames : ∀ o ∈ ops, ∀ p, o.Affects p → ¬ IsCopyName p) (hop : op ∈ seen)
    (hseen : ∀ o ∈ seen, o ∈ st.oplog ∨ o = op) {atSource : Bool} {path : Path} {remote : Version}
    (hc : conflictOf op atSource = some (path, remote))
    (hres : Store.Resolved st st' path remote) :
    CopyInv ops seen st' ∧
      ∀ p r, IsCopyName p → st.files.get? p = some r → st'.files.get? p = some r := by
  obtain ⟨haff, hvv⟩ := affects_of_conflictOf hc
  have hpath := hnames op (h.mem op hop) path haff
  obtain ⟨loc, winner, losers, copies, hloc, -, -, hac, hwin, hplan, hcopies, hframe⟩ := hres.spec
  have hcs := h.candidates_eq hseen hpath hvv hloc
  rw [hcs] at hac hwin hplan
  obtain ⟨added, hplan', hadded, -⟩ := planCopies_of_copies h.onlyCopies path winner
    [winnerRow path (st.opsAsCandidates path ++ [remote]) (winner :: losers) winner] losers
  obtain rfl : copies = added := by
    rw [hplan', Option.some.injEq] at hplan
    exact (List.cons.inj hplan).2.symm
  have hne : ∀ p, IsCopyName p → p ≠ path := by
    rintro p hp rfl
    exact hpath hp
  have hcand : ∀ c ∈ winner :: losers, ∃ o ∈ ops, o.Affects path ∧ c.vv = o.vv ∧
      c.key = (opAsCandidate path o).key ∧ ∀ hash, c.contentHash = some hash →
        path = o.path ∧ o.contentHash = some hash ∧ c = opAsCandidate path o := fun c hc' =>
    h.of_candidate hbuilt (h.mem op hop) hc (mem_of_mem_antichain (hac ▸ hc'))
  refine ⟨⟨h.mem, hres.oplog ▸ h.log, fun p hp a ha => ?_, fun p r hp hr => ?_⟩,
    fun p r hp hr => ?_⟩
  · by_cases hpp : p = path
    · subst hpp
      rw [Store.vvAt_eq hwin] at ha ⊢
      obtain ⟨c, hmem, hget⟩ := exists_get_mergeAll ha
      rcases List.mem_append.1 hmem with hmem | hmem
      · obtain ⟨o, ho, hoaff, rfl⟩ := Store.mem_opsAsCandidates.1 hmem
        exact ⟨o, h.log o ho, hoaff, hget.le⟩
      · rw [List.mem_singleton.1 hmem, hvv] at hget
        exact ⟨op, hop, haff, hget.le⟩
    · rcases hres.vvAt_other hpp with hsame | ⟨hcopy, -⟩
      · rw [Store.vvAt_congr hsame] at ha ⊢
        exact h.explained p hp a ha
      · exact absurd hcopy hp
  · by_cases hnew : ∃ c ∈ copies, c.path = p
    · obtain ⟨c, hcmem, rfl⟩ := hnew
      rw [(hcopies c hcmem).2.2, Option.some.injEq] at hr
      obtain ⟨-, l, hl, hkey, hash, hhash, rfl⟩ := hadded c hcmem
      obtain ⟨o, ho, -, hlvv, hlkey, hcontent⟩ := hcand l (List.mem_cons_of_mem _ hl)
      obtain ⟨w, hw, hwaff, hwvv, hwkey, -⟩ := hcand winner List.mem_cons_self
      obtain ⟨rfl, hohash, rfl⟩ := hcontent hash hhash
      -- the winner is concurrent with the loser, and has a larger key
      have hpair := (scanInv_antichain (st.opsAsCandidates o.path ++ [remote])).pairwise
      rw [hac] at hpair
      have hconc : Concurrent winner (opAsCandidate o.path o) :=
        (List.pairwise_cons.1 hpair).1 _ hl
      have hle := key_le_head hac (hac ▸ List.mem_cons_of_mem winner hl)
      refine ⟨o, ho, ⟨w, hw, hwaff, ⟨?_, ?_⟩, ?_⟩, hash, hohash, ?_, ?_⟩
      · rw [Concurrent, hwvv] at hconc
        exact hconc.2
      · rw [Concurrent, hwvv] at hconc
        exact hconc.1
      · rw [← hwkey]
        exact lt_of_le_of_ne hle hkey
      · rw [(hbuilt o ho).opAsCandidate_eq hohash]
        rfl
      · exact hr.symm
    · push Not at hnew
      rw [hframe p (hne p hp) hnew] at hr
      exact h.copies p r hp hr
  · rw [hframe p (hne p hp), hr]
    rintro c hcmem rfl
    have hfree := (hadded c hcmem).1
    rw [Store.lookupVersion_eq hr] at hfree
    cases hfree

/-- Rows at copy names stay. -/
def Keeps (st st' : Store) : Prop :=
  ∀ p r, IsCopyName p → st.files.get? p = some r → st'.files.get? p = some r

theorem settles (h : CopyInv ops seen st) (hbuilt : ∀ o ∈ ops, o.Built)
    (hnames : ∀ o ∈ ops, ∀ p, o.Affects p → ¬ IsCopyName p) (hop : op ∈ seen)
    (hseen : ∀ o ∈ seen, o ∈ st.oplog ∨ o = op) (hset : Store.Settles op st st') :
    CopyInv ops seen st' ∧ Keeps st st' ∧ st'.oplog = st.oplog ∧ st'.applied = st.applied := by
  rcases hset with rfl | ⟨atSource, path, remote, hc, hres⟩
  · exact ⟨h, fun p r _ hr => hr, rfl, rfl⟩
  · obtain ⟨hinv, hkeep⟩ := h.resolved hbuilt hnames hop hseen hc hres
    exact ⟨hinv, hkeep, hres.oplog, hres.applied⟩

/-- Recording an op. -/
theorem recorded (h : CopyInv ops seen st) (hbuilt : ∀ o ∈ ops, o.Built)
    (hnames : ∀ o ∈ ops, ∀ p, o.Affects p → ¬ IsCopyName p) (hop : op ∈ seen)
    (hnew : op.opId ∉ st.applied) {d e : Decision} (hrun : st.applyRemote op d = .ok (e, st')) :
    CopyInv ops seen st' ∧ Keeps st st' ∧ st'.oplog = (st.insertOp op).oplog := by
  have hopops := h.mem op hop
  obtain ⟨e', st'', hrun', hlog, -, -, -, hfiles⟩ :=
    Store.applyRemote_files (hbuilt op hopops).wellFormed hnew d
  rw [hrun, Except.ok.injEq, Prod.mk.injEq] at hrun'
  obtain ⟨rfl, rfl⟩ := hrun'
  have haffects : ∀ {p}, st.TakesEffect op d p → op.Affects p := by
    rintro p ⟨⟨hp, -⟩ | ⟨-, hp⟩, -⟩
    · exact .inl hp
    · exact .inr hp
  have hsame : ∀ p, IsCopyName p → st'.files.get? p = st.files.get? p := fun p hp =>
    (hfiles p).2 fun heff => hnames op hopops p (haffects heff) hp
  refine ⟨⟨h.mem, fun o ho => ?_, fun p hp a ha => ?_, fun p r hp hr => ?_⟩,
    fun p r hp hr => (hsame p hp).trans hr, hlog⟩
  · rw [hlog] at ho
    rcases (Store.mem_insertOp st op).1 ho with ho | ⟨rfl, -⟩
    · exact h.log o ho
    · exact hop
  · by_cases heff : st.TakesEffect op d p
    · rw [Store.vvAt_eq ((hfiles p).1 heff), effectRow_vv, VersionVector.get_merge] at ha ⊢
      rcases max_choice ((st.vvAt p).get a) (op.vv.get a) with hmax | hmax
      · rw [hmax] at ha ⊢
        exact h.explained p hp a ha
      · rw [hmax]
        exact ⟨op, hop, haffects heff, le_rfl⟩
    · rw [Store.vvAt_congr ((hfiles p).2 heff)] at ha ⊢
      exact h.explained p hp a ha
  · exact h.copies p r hp (hsame p hp ▸ hr)

/-- A new local op. -/
theorem emitted (h : CopyInv ops st.oplog st) (hop : op ∈ ops)
    (hnames : ∀ o ∈ ops, ∀ p, o.Affects p → ¬ IsCopyName p)
    (hids : ∀ o ∈ ops, ∀ o' ∈ ops, o.opId = o'.opId → o = o') {n : NodeId}
    (hem : Store.Emits n st st' op) (hlog : st'.oplog = (st.insertOp op).oplog) :
    CopyInv ops st'.oplog st' := by
  have hmem : ∀ o, o ∈ st'.oplog ↔ o ∈ st.oplog ∨ o = op := by
    rw [hlog]
    exact Store.mem_insertOp_of_ids fun o ho hid => hids o (h.mem o ho) op hop hid
  refine ⟨fun o ho => ?_, fun o ho => ho, fun p hp a ha => ?_, fun p r hp hr => ?_⟩
  · rcases (hmem o).1 ho with ho | rfl
    · exact h.mem o ho
    · exact hop
  · by_cases haff : op.Affects p
    · refine ⟨op, (hmem op).2 (.inr rfl), haff, ?_⟩
      rw [Store.vvAt_eq (hem.effect p haff), effectRow_vv]
    · rw [Store.vvAt_congr (hem.frame p haff)] at ha ⊢
      obtain ⟨o, ho, hrest⟩ := h.explained p hp a ha
      exact ⟨o, (hmem o).2 (.inl ho), hrest⟩
  · rw [hem.frame p fun haff => hnames op hop p haff hp] at hr
    exact h.copies p r hp hr

/-- From the recording of an op to the end of its handling. -/
theorem finished {st₁ st₂ st₃ : Store} (h : CopyInv ops (op :: st.oplog) st)
    (hbuilt : ∀ o ∈ ops, o.Built) (hnames : ∀ o ∈ ops, ∀ p, o.Affects p → ¬ IsCopyName p)
    (hids : ∀ o ∈ ops, ∀ o' ∈ ops, o.opId = o'.opId → o = o') (hnew : op.opId ∉ st.applied)
    {d e : Decision} (hrecord : st.applyRemote op d = .ok (e, st₁))
    (hset : Store.Settles op st₁ st₂) (hset' : Store.Settles op st₂ st₃) :
    CopyInv ops st₃.oplog st₃ ∧ Keeps st st₃ := by
  obtain ⟨h₁, hkeep₁, hlog₁⟩ := h.recorded hbuilt hnames List.mem_cons_self hnew hrecord
  have hop := h.mem op List.mem_cons_self
  -- now the op is in the log
  have hmem : ∀ o, o ∈ st₁.oplog ↔ o ∈ op :: st.oplog := by
    intro o
    rw [hlog₁, Store.mem_insertOp_of_ids, List.mem_cons, or_comm]
    exact fun o ho hid => hids o (h.mem o (List.mem_cons_of_mem _ ho)) op hop hid
  have h₁' : CopyInv ops st₁.oplog st₁ :=
    h₁.of_seen (fun o ho => h.mem o ((hmem o).1 ho)) fun o ho => (hmem o).2 ho
  have hopmem : op ∈ st₁.oplog := (hmem op).2 List.mem_cons_self
  obtain ⟨h₂, hkeep₂, hlog₂, -⟩ := h₁'.settles hbuilt hnames hopmem (fun o ho => .inl ho) hset
  obtain ⟨h₃, hkeep₃, hlog₃, -⟩ := h₂.settles hbuilt hnames hopmem
    (fun o ho => .inl (hlog₂ ▸ ho)) hset'
  refine ⟨?_, fun p row hp hr => ?_⟩
  · rwa [hlog₃, hlog₂]
  · exact hkeep₃ p row hp (hkeep₂ p row hp (hkeep₁ p row hp hr))

theorem start (h : CopyInv ops st.oplog st) (hop : op ∈ ops) :
    CopyInv ops (op :: st.oplog) st :=
  h.of_seen (by simpa [hop] using h.mem) fun o ho => List.mem_cons_of_mem _ ho

/-- An op handled to its end. -/
theorem received {r r' : Replica} (h : CopyInv ops r.store.oplog r.store)
    (hbuilt : ∀ o ∈ ops, o.Built) (hnames : ∀ o ∈ ops, ∀ p, o.Affects p → ¬ IsCopyName p)
    (hids : ∀ o ∈ ops, ∀ o' ∈ ops, o.opId = o'.opId → o = o') (hop : op ∈ ops)
    {d : Option Decision} (hrun : r.receive op = .ok (d, r')) :
    CopyInv ops r'.store.oplog r'.store := by
  rcases Replica.receive_cases hrun with ⟨-, rfl⟩ |
    ⟨hnew, r₁, e, st₂, st₃, hbefore, hrecord, hset, hset'⟩
  · exact h
  · obtain ⟨h₁, -, hlog₁, happ₁⟩ := (h.start hop).settles hbuilt hnames List.mem_cons_self
      (by simp [or_comm]) (Replica.settles_beforeApply hbefore)
    rw [← hlog₁] at h₁
    exact (h₁.finished hbuilt hnames hids (happ₁ ▸ hnew) hrecord hset hset').1

end CopyInv

/-! ### Runs of a node -/

/-- What happens at a node: it handles an op, or a local application changes or moves a file. -/
inductive Handling
  | receive (op : OpRecord)
  | change (change : LocalChange)
  | rename (oldPath newPath : Path)

namespace Replica

/-- The ops handled one after the other. -/
def receiveAll (r : Replica) (ops : List OpRecord) : Replica :=
  ops.foldl (fun r op => match r.receive op with
    | .ok (_, r') => r'
    | .error _ => r) r

/-- The runs of a node in which only ops of the list are handled and emitted, in any order and any
number of times. -/
def handling (ops : List OpRecord) : Lts Replica Handling where
  step r ev r' := match ev with
    | .receive op => op ∈ ops ∧ ∃ d, r.receive op = .ok (d, r')
    | .change change => change.Ingested ∧ ∃ op, r.localChange change = .ok (op, r') ∧
        ∀ o, op = some o → o ∈ ops
    | .rename oldPath newPath => ∃ op, r.localRename oldPath newPath = (op, r') ∧
        ∀ o, op = some o → o ∈ ops

/-- Wherever both nodes have a row at a conflict-copy name, with equal vectors, it is the same
row. -/
def CopiesAgree (r r' : Replica) : Prop :=
  ∀ cp row row', IsCopyName cp → r.store.files.get? cp = some row →
    r'.store.files.get? cp = some row' → row.vv.compare row'.vv = .equal → row = row'

variable {ops : List OpRecord} {r r' : Replica}

/-- A local command that emits nothing, or an op of the list. -/
theorem copyInv_exec (h : CopyInv ops r.store.oplog r.store)
    (hnames : ∀ o ∈ ops, ∀ p, o.Affects p → ¬ IsCopyName p)
    (hids : ∀ o ∈ ops, ∀ o' ∈ ops, o.opId = o'.opId → o = o') {cmd : Command}
    (hlocal : (∃ change, cmd = .appendLocal change ∧ change.Ingested) ∨
      ∃ old new, cmd = .appendLocalRename old new)
    (hem : ∀ o, cmd.emitted r.nodeId r.store = some o → o ∈ ops)
    (hst : r'.store = r.store.exec r.nodeId cmd) : CopyInv ops r'.store.oplog r'.store := by
  have hing : ∀ change, cmd = .appendLocal change → change.Ingested := by
    rintro change rfl
    rcases hlocal with ⟨_, ⟨⟩, hing⟩ | ⟨_, _, ⟨⟩⟩
    exact hing
  have hkind : (∃ change, cmd = .appendLocal change) ∨ ∃ old new, cmd = .appendLocalRename old new :=
    hlocal.imp_left fun ⟨change, hcmd, _⟩ => ⟨change, hcmd⟩
  rw [hst]
  cases hop : cmd.emitted r.nodeId r.store with
  | none =>
    have hfiles := Store.exec_files_of_no_op hkind hop
    have hlog : (r.store.exec r.nodeId cmd).oplog = r.store.oplog := by
      rcases Store.exec_log r.nodeId r.store cmd with ⟨hlog, -⟩ | ⟨o, ho, -⟩ | ⟨o, hrec, -⟩
      · exact hlog
      · rw [hop] at ho
        cases ho
      · rcases hkind with ⟨change, rfl⟩ | ⟨old, new, rfl⟩ <;> cases hrec
    refine ⟨hlog ▸ h.mem, fun o ho => ho, fun p hp a ha => ?_, fun p row hp hr => ?_⟩
    · have hvv : (r.store.exec r.nodeId cmd).vvAt p = r.store.vvAt p :=
        Store.vvAt_congr (by rw [hfiles])
      rw [hvv] at ha ⊢
      rw [hlog]
      exact h.explained p hp a ha
    · exact h.copies p row hp (hfiles ▸ hr)
  | some op =>
    refine h.emitted (hem op hop) hnames hids (Store.emits_of_emitted hing hop) ?_
    rcases Store.exec_log r.nodeId r.store cmd with ⟨-, -, hnone⟩ | ⟨o, ho, -, -, -, hlog, -⟩ |
      ⟨o, -, hnone, -⟩
    · rw [hop] at hnone
      cases hnone
    · rw [hop, Option.some.injEq] at ho
      rw [hlog, ho]
    · rw [hop] at hnone
      cases hnone

/-- In every state of every run the rows at copy names are copies. -/
theorem copyInv_reach (hbuilt : ∀ o ∈ ops, o.Built)
    (hnames : ∀ o ∈ ops, ∀ p, o.Affects p → ¬ IsCopyName p)
    (hids : ∀ o ∈ ops, ∀ o' ∈ ops, o.opId = o'.opId → o = o') {n : NodeId}
    (hrun : (handling ops).Reach { nodeId := n } r) : CopyInv ops r.store.oplog r.store := by
  refine hrun.invariant (I := fun r => CopyInv ops r.store.oplog r.store) CopyInv.init
    fun s ev s' _ h hstep => ?_
  cases ev with
  | receive op =>
    obtain ⟨hop, d, hrec⟩ := hstep
    exact h.received hbuilt hnames hids hop hrec
  | change change =>
    obtain ⟨hing, op, hrun, hem⟩ := hstep
    obtain ⟨⟨op', st⟩, happend, hpair⟩ := Result.exists_of_bind_eq_ok hrun
    cases hpair
    refine copyInv_exec h hnames hids (.inl ⟨change, rfl, hing⟩) (fun o ho => hem o ?_) ?_
    · simpa [Command.emitted, happend] using ho
    · simp [Store.exec, Store.commit, happend]
  | rename oldPath newPath =>
    obtain ⟨op, hrun, hem⟩ := hstep
    have hop : (s.store.appendLocalRename s.nodeId oldPath newPath).1 = op := congrArg Prod.fst hrun
    have hst : (s.store.appendLocalRename s.nodeId oldPath newPath).2 = s'.store :=
      congrArg (fun x => x.2.store) hrun
    exact copyInv_exec h hnames hids (.inr ⟨oldPath, newPath, rfl⟩)
      (fun o ho => hem o (hop.symm.trans ho)) hst.symm

/-! ### Agreement -/

/-- The first op a node handles. -/
theorem receive_first (n : NodeId) {o : OpRecord} (hwf : o.WellFormed) :
    ∃ d r, ({ nodeId := n } : Replica).receive o = .ok (d, r) ∧ r.store.oplog = [o] ∧
      r.store.applied = [o.opId] ∧ ∀ p,
        (o.Affects p → r.store.files.get? p =
          some (effectRow o p (VersionVector.new.merge o.vv))) ∧
        (¬ o.Affects p → r.store.files.get? p = none) := by
  obtain ⟨d, r, hrun⟩ := receive_ok { nodeId := n } hwf
  refine ⟨d, r, hrun, ?_⟩
  rcases receive_cases hrun with ⟨hmem, -⟩ |
    ⟨hnew, r₁, e, st₂, st₃, hbefore, hrecord, hset, hset'⟩
  · cases hmem
  · -- there is no row, so the op is applied
    cases hbefore
    rw [applyEffect_store] at hrecord
    obtain ⟨e', st', hrecord', hlog, happ, -, -, hfiles⟩ := Store.applyRemote_files hwf hnew .apply
    rw [show Decision.decide _ o.vv = .apply from rfl, hrecord', Except.ok.injEq,
      Prod.mk.injEq] at hrecord
    obtain ⟨-, rfl⟩ := hrecord
    have hrows : ∀ p, (o.Affects p → st'.files.get? p =
        some (effectRow o p (VersionVector.new.merge o.vv))) ∧
        (¬ o.Affects p → st'.files.get? p = none) := by
      refine fun p => ⟨fun haff => ?_, fun hnot => ?_⟩
      · refine (hfiles p).1 ⟨?_, fun r hr => by cases hr⟩
        rcases OpRecord.affects_iff.1 haff with hp | hp
        · exact .inl ⟨hp, rfl⟩
        · exact .inr hp
      · refine (hfiles p).2 ?_
        rintro ⟨⟨hp, -⟩ | ⟨-, hp⟩, -⟩
        · exact hnot (.inl hp)
        · exact hnot (.inr hp)
    have hle : ∀ p, o.Affects p → o.vv ≤ st'.vvAt p := by
      intro p hp
      rw [Store.vvAt_eq ((hrows p).1 hp), effectRow_vv]
      exact VersionVector.le_merge_right _ _
    have hst := hset.eq_of_le hle
    subst hst
    have hst' := hset'.eq_of_le hle
    rw [hst']
    exact ⟨hlog, happ, hrows⟩

/-- An op of larger key than one with content has content of its own at the path. -/
theorem live_of_key_lt {o w : OpRecord} (hw : w.Built) {hash : Hash} (ho : o.Built)
    (hhash : o.contentHash = some hash) (haff : w.Affects o.path)
    (hkey : (opAsCandidate o.path o).key < (opAsCandidate o.path w).key) :
    w.path = o.path ∧ opVersion w = opAsCandidate o.path w := by
  have hlive : ¬ (w.opType = .delete ∨ w.opType = .rename ∧ w.path ≠ o.path) := by
    intro ht
    rw [ho.opAsCandidate_eq hhash] at hkey
    have hdel : o.opType ≠ .delete := by
      intro hdel
      rw [(ho.delete hdel).1] at hhash
      cases hhash
    simp [Version.key, opVersion, opAsCandidate, ht, hdel, Prod.Lex.toLex_lt_toLex] at hkey
  have hpath : w.path = o.path := by
    by_contra hne
    rcases haff with hp | hold
    · exact hne hp
    · rcases hw.wellFormed with ⟨hren, -⟩ | ⟨-, hnone⟩
      · exact hlive (.inr ⟨hren, hne⟩)
      · rw [hold] at hnone
        cases hnone
  have hdel : w.opType ≠ .delete := fun hdel => hlive (.inl hdel)
  exact ⟨hpath, by simp [opAsCandidate, opVersion, hdel, hpath]⟩

/-- The loser of two candidates becomes a copy, if its name is free. -/
theorem copy_of_pair {st st' : Store} {path : Path} {remote l w : Version} {hash : Hash}
    (hcopies : OnlyCopies st.lookupVersion) (hpath : ¬ IsCopyName path)
    (hcs : ∀ loc, st.loadRow path = some loc → st.candidates path remote loc = [l, w])
    (hconc : Concurrent l w) (hkey : l.key < w.key) (hhash : l.contentHash = some hash)
    (hfree : st.files.get? (copyPathFor path hash (Meta.namingHash l.metadata)) = none)
    (hres : Store.Resolved st st' path remote) :
    st'.files.get? (copyPathFor path hash (Meta.namingHash l.metadata)) =
      some (copyRow (copyPathFor path hash (Meta.namingHash l.metadata)) l).toRow := by
  obtain ⟨loc, winner, losers, copies, hloc, -, -, hac, -, hplan, hrows, -⟩ := hres.spec
  rw [hcs loc hloc, antichain_pair hconc hkey, List.cons.injEq] at hac
  obtain ⟨rfl, rfl⟩ := hac
  obtain ⟨added, hplan', hadded, htaken⟩ := planCopies_of_copies hcopies path w
    [winnerRow path (st.candidates path remote loc) [w, l] w] [l]
  obtain rfl : copies = added := by
    rw [hplan', Option.some.injEq] at hplan
    exact (List.cons.inj hplan).2.symm
  rcases htaken l (List.mem_singleton_self l) hash hhash hkey.ne with ⟨c, hc, hcpath⟩ | htaken
  · rcases List.mem_cons.1 hc with rfl | hcopy
    · exact absurd ⟨_, _, _, hcpath⟩ hpath
    · obtain ⟨-, l', hl', -, hash', hhash', rfl⟩ := hadded c hcopy
      obtain rfl := List.mem_singleton.1 hl'
      rw [hhash, Option.some.injEq] at hhash'
      subst hhash'
      exact (hrows _ hcopy).2.2
  · rw [Store.lookupVersion, copyNameOf, hfree] at htaken
    cases htaken

/-- An op that can lose is derived as a copy, in a run that handles it first and then one it loses
to. -/
theorem exists_copy (hbuilt : ∀ o ∈ ops, o.Built)
    (hnames : ∀ o ∈ ops, ∀ p, o.Affects p → ¬ IsCopyName p)
    (hids : ∀ o ∈ ops, ∀ o' ∈ ops, o.opId = o'.opId → o = o') (n : NodeId) {o : OpRecord}
    (ho : o ∈ ops) (hlose : CanLose ops o.path o) {hash : Hash} (hhash : o.contentHash = some hash) :
    ∃ r, (handling ops).Reach { nodeId := n } r ∧
      r.store.files.get? (copyPathFor o.path hash (Meta.namingHash o.metadata)) =
        some (copyRow (copyPathFor o.path hash (Meta.namingHash o.metadata))
          (opAsCandidate o.path o)).toRow := by
  obtain ⟨w, hw, haff, hconc, hkey⟩ := hlose
  obtain ⟨hwpath, hversion⟩ := live_of_key_lt (hbuilt w hw) (hbuilt o ho) hhash haff hkey
  have hhash' : (opAsCandidate o.path o).contentHash = some hash := by
    rw [(hbuilt o ho).opAsCandidate_eq hhash]
    exact hhash
  have hmeta : (opAsCandidate o.path o).metadata = o.metadata := by
    rw [(hbuilt o ho).opAsCandidate_eq hhash]
    rfl
  rw [← hmeta]
  obtain ⟨d₁, r₁, hrun₁, hlog, happ, hrows⟩ := receive_first n (hbuilt o ho).wellFormed
  have hreach : (handling ops).Reach { nodeId := n } r₁ :=
    Lts.Reach.init.next (l := .receive o) ⟨ho, d₁, hrun₁⟩
  have hinv := copyInv_reach hbuilt hnames hids hreach
  obtain ⟨d₂, r₂, hrun₂⟩ := receive_ok r₁ (hbuilt w hw).wellFormed
  refine ⟨r₂, hreach.next (l := .receive w) ⟨hw, d₂, hrun₂⟩, ?_⟩
  -- the second op is concurrent with the row of the first
  have hrow := (hrows o.path).1 (.inl rfl)
  have hvv : ∀ {v : VersionVector}, VersionVector.new.merge o.vv ≤ v ↔ o.vv ≤ v := by
    intro v
    refine ⟨fun h => (VersionVector.le_merge_right _ _).trans h, fun h => ?_⟩
    exact VersionVector.merge_le (VersionVector.new_le v) h
  have hd : Decision.decide (r₁.store.loadFile w.path) w.vv = .concurrent := by
    rw [hwpath]
    refine Store.decide_eq_concurrent.2 ⟨_, hrow, ?_, ?_⟩
    · rw [effectRow_vv]
      exact fun hle => hconc.2 (hle.trans (hvv.2 le_rfl))
    · rw [effectRow_vv, hvv]
      exact hconc.1
  rcases receive_cases hrun₂ with ⟨hmem, -⟩ |
    ⟨hnew, r', e, st₂, st₃, hbefore, hrecord, hset, hset'⟩
  · rw [happ, List.mem_singleton] at hmem
    rw [hids w hw o ho hmem] at hkey
    exact absurd hkey (lt_irrefl _)
  · obtain ⟨plan, hplan⟩ := Option.isSome_iff_exists.1
      (Store.planFor_isSome hinv.onlyCopies (opVersion w) hd)
    have hres := Store.resolved_of_plan hd hplan
    have hstore : r'.store = plan.foldl Store.upsertFile r₁.store := by
      rw [hd, beforeApply, resolveConflict, resolveRounds_of_plan hd hplan] at hbefore
      cases hbefore
      exact (mirrorRows_store _ _).1
    rw [← hstore] at hres
    obtain ⟨h₁, -⟩ := (hinv.start hw).resolved hbuilt hnames List.mem_cons_self
      (by simp [or_comm]) (conflictOf_target w) hres
    rw [← hres.oplog] at h₁
    refine (h₁.finished hbuilt hnames hids (hres.applied ▸ hnew) hrecord hset hset').2 _ _
      ⟨_, _, _, rfl⟩ ?_
    rw [hwpath] at hres
    refine copy_of_pair hinv.onlyCopies (hnames o ho _ (.inl rfl)) (fun loc hloc => ?_) hconc hkey
      hhash' ((hrows _).2 fun haff => hnames o ho _ haff ⟨_, _, _, rfl⟩) hres
    rw [(hinv.start hw).candidates_eq (by simp [or_comm]) (hnames o ho _ (.inl rfl)) rfl hloc,
      Store.opsAsCandidates, Store.scanOps_nil, hlog, hversion]
    simp [OpRecord.Affects]

/-- **Conflict copies agree exactly if the snapshots do.**  Take any list of ops, and any two nodes
that handle and emit only these, outside the copy names, in any order and any number of times.  At
every moment of any two such runs the nodes have the same rows at copy names, every field included,
if and only if the ops that can lose and share a copy name have the same mode, size and metadata. -/
theorem copies_agree_iff {ops : List OpRecord} (hbuilt : ∀ o ∈ ops, o.Built)
    (hnames : ∀ o ∈ ops, ∀ p, o.Affects p → ¬ IsCopyName p)
    (hids : ∀ o ∈ ops, ∀ o' ∈ ops, o.opId = o'.opId → o = o')
    (hhex : ∀ o ∈ ops, ∀ o' ∈ ops, ∀ hash hash', o.contentHash = some hash →
      o'.contentHash = some hash' → copyHex hash (Meta.namingHash o.metadata) =
        copyHex hash' (Meta.namingHash o'.metadata) →
      hash = hash' ∧ Meta.namingHash o.metadata = Meta.namingHash o'.metadata) :
    (∀ n m r r', (handling ops).Reach { nodeId := n } r → (handling ops).Reach { nodeId := m } r' →
      CopiesAgree r r') ↔ SnapshotsAgree ops := by
  constructor
  · intro hagree o ho o' ho' hpath hlose hlose' hash hhash hhash' hnaming
    rw [hpath] at hlose'
    obtain ⟨r, hreach, hrow⟩ := exists_copy hbuilt hnames hids 0 ho hlose hhash
    obtain ⟨r', hreach', hrow'⟩ := exists_copy hbuilt hnames hids 0 ho' hlose' hhash'
    rw [← hpath, ← hnaming] at hrow'
    have heq := hagree 0 0 r r' hreach hreach' _ _ _ ⟨_, _, _, rfl⟩ hrow hrow'
      (VersionVector.compare_eq_equal.2 ⟨le_rfl, le_rfl⟩)
    rw [(hbuilt o ho).opAsCandidate_eq hhash, hpath, (hbuilt o' ho').opAsCandidate_eq hhash'] at heq
    exact ⟨congrArg Row.mode heq, congrArg Row.size heq, congrArg Row.metadata heq⟩
  · intro hsnap n m r r' hreach hreach' cp row row' hcp hrow hrow' _
    obtain ⟨o, ho, hlose, hash, hhash, hname, rfl⟩ :=
      (copyInv_reach hbuilt hnames hids hreach).copies cp row hcp hrow
    obtain ⟨o', ho', hlose', hash', hhash', hname', rfl⟩ :=
      (copyInv_reach hbuilt hnames hids hreach').copies cp row' hcp hrow'
    -- the name tells the path, the content and the naming hash
    obtain ⟨hpath, hdigits⟩ := copyPathFor_inj (hname.symm.trans hname')
    obtain ⟨rfl, hnaming⟩ := hhex o ho o' ho' hash hash' hhash hhash' hdigits
    obtain ⟨hmode, hsize, hmeta⟩ := hsnap o ho o' ho' hpath hlose (hpath ▸ hlose') hash hhash hhash'
      hnaming
    rw [(hbuilt o ho).opAsCandidate_eq hhash, (hbuilt o' ho').opAsCandidate_eq hhash']
    simp [copyRow, opVersion, hhash, hhash', hmode, hsize, hmeta]

/-- A well-formed op is handled in every state. -/
theorem reach_receiveAll {ops : List OpRecord} (hbuilt : ∀ o ∈ ops, o.Built) {n : NodeId}
    {r : Replica} (hr : (handling ops).Reach { nodeId := n } r) {xs : List OpRecord}
    (hxs : ∀ o ∈ xs, o ∈ ops) : (handling ops).Reach { nodeId := n } (r.receiveAll xs) := by
  induction xs generalizing r with
  | nil => exact hr
  | cons o xs ih =>
    have ho := hxs o List.mem_cons_self
    obtain ⟨d, r', hrun⟩ := receive_ok r (hbuilt o ho).wellFormed
    have hnext := ih (hr.next (l := .receive o) ⟨ho, d, hrun⟩)
      fun o ho => hxs o (List.mem_cons_of_mem _ ho)
    simpa [receiveAll, hrun] using hnext

end Replica

end

namespace Replica

section Example

attribute [local instance] Blake3.polynomial

/-- The metadata of a plain file. -/
def fileMeta (mtime : Int64) : Meta where
  kind := .regular
  mode := 420
  uid := 0
  gid := 0
  mtimeS := mtime
  mtimeNs := 0
  symlinkTarget := none
  rdev := 0
  xattrs := []

/-- Node `n` writes the file `f`, and its clock says `mtime`. -/
def writeAt (n : NodeId) (content : Hash) (mtime : Int64) : OpRecord where
  opId := opIdOf n 1
  origin := n
  originSeq := 1
  opType := .write
  path := ['f']
  pathOld := none
  uuid := some (freshUuid n 1 ['f'])
  mode := 420
  size := 3
  contentHash := some content
  metadata := some (fileMeta mtime)
  vv := VersionVector.fromIter [(n, 1)]

theorem writeAt_built (n : NodeId) (content : Hash) (mtime : Int64) :
    (writeAt n content mtime).Built :=
  ⟨.inr ⟨by simp [writeAt], rfl⟩, by simp [writeAt]⟩

theorem writeAt_notCopy {n : NodeId} {content : Hash} {mtime : Int64} {p : Path}
    (h : (writeAt n content mtime).Affects p) : ¬ IsCopyName p := by
  have hp : p = ['f'] := by simpa [OpRecord.Affects, writeAt, eq_comm] using h
  subst hp
  intro hcopy
  have hlen := hcopy.marker_infix.length_le
  revert hlen
  decide

/-- Nodes 1 and 2 write the same content, at different times, and node 3 another. -/
def sameContentTwice : List OpRecord := [writeAt 1 5 1, writeAt 2 5 2, writeAt 3 9 1]

theorem digits_apart {n n' : NodeId} {content content' : Hash} {mtime mtime' : Int64}
    (h : content ≠ content' → copyHex content (Meta.namingHash (writeAt n content mtime).metadata) ≠
      copyHex content' (Meta.namingHash (writeAt n' content' mtime').metadata)) :
    ∀ hash hash', (writeAt n content mtime).contentHash = some hash →
      (writeAt n' content' mtime').contentHash = some hash' →
      copyHex hash (Meta.namingHash (writeAt n content mtime).metadata) =
        copyHex hash' (Meta.namingHash (writeAt n' content' mtime').metadata) →
      hash = hash' ∧ Meta.namingHash (writeAt n content mtime).metadata =
        Meta.namingHash (writeAt n' content' mtime').metadata := by
  rintro _ _ ⟨⟩ ⟨⟩ heq
  refine ⟨by_contra fun hne => h hne heq, ?_⟩
  rfl

/-- The three writes are well formed, have different ids and copy names that do not collide. -/
theorem sameContentTwice_ok :
    (∀ o ∈ sameContentTwice, o.Built) ∧
    (∀ o ∈ sameContentTwice, ∀ p, o.Affects p → ¬ IsCopyName p) ∧
    (∀ o ∈ sameContentTwice, ∀ o' ∈ sameContentTwice, o.opId = o'.opId → o = o') ∧
    (∀ o ∈ sameContentTwice, ∀ o' ∈ sameContentTwice, ∀ hash hash', o.contentHash = some hash →
      o'.contentHash = some hash' → copyHex hash (Meta.namingHash o.metadata) =
        copyHex hash' (Meta.namingHash o'.metadata) →
      hash = hash' ∧ Meta.namingHash o.metadata = Meta.namingHash o'.metadata) := by
  have hall : ∀ {P : OpRecord → Prop}, (∀ n content mtime, P (writeAt n content mtime)) →
      ∀ o ∈ sameContentTwice, P o := by
    intro P h o ho
    simp only [sameContentTwice, List.mem_cons, List.not_mem_nil, or_false] at ho
    rcases ho with rfl | rfl | rfl
    · exact h _ _ _
    · exact h _ _ _
    · exact h _ _ _
  refine ⟨hall writeAt_built, hall fun _ _ _ _ => writeAt_notCopy, by decide +kernel, ?_⟩
  intro o ho o' ho'
  simp only [sameContentTwice, List.mem_cons, List.not_mem_nil, or_false] at ho ho'
  rcases ho with rfl | rfl | rfl <;> rcases ho' with rfl | rfl | rfl <;>
    exact digits_apart (by decide +kernel)

/-- Without the second write of the same content, all nodes agree, at all times. -/
theorem copies_agree_without_twin :
    SnapshotsAgree [writeAt 1 5 1, writeAt 3 9 1] ∧
      ∀ n m r r', (handling [writeAt 1 5 1, writeAt 3 9 1]).Reach { nodeId := n } r →
        (handling [writeAt 1 5 1, writeAt 3 9 1]).Reach { nodeId := m } r' → CopiesAgree r r' := by
  have hsub : ∀ o ∈ [writeAt 1 5 1, writeAt 3 9 1], o ∈ sameContentTwice := by simp [sameContentTwice]
  have hsnap : SnapshotsAgree [writeAt 1 5 1, writeAt 3 9 1] := by
    intro o ho o' ho' _ _ _ hash hhash hhash' _
    have hsame : o = o' := by
      simp only [List.mem_cons, List.not_mem_nil, or_false] at ho ho'
      rcases ho with rfl | rfl <;> rcases ho' with rfl | rfl
      · rfl
      · exact absurd (hhash.trans hhash'.symm) (by decide)
      · exact absurd (hhash.trans hhash'.symm) (by decide)
      · rfl
    rw [hsame]
    exact ⟨rfl, rfl, rfl⟩
  obtain ⟨hbuilt, hnames, hids, hhex⟩ := sameContentTwice_ok
  refine ⟨hsnap, (copies_agree_iff (fun o ho => hbuilt o (hsub o ho))
    (fun o ho => hnames o (hsub o ho)) (fun o ho o' ho' => hids o (hsub o ho) o' (hsub o' ho'))
    fun o ho o' ho' => hhex o (hsub o ho) o' (hsub o' ho')).2 hsnap⟩

/-- **Two nodes keep different copies under equal vectors.**  Both handle the three writes; node 4
derives the copy from the write of node 1, and node 5 from that of node 2. -/
theorem copies_disagree :
    let r : Replica := { nodeId := 4 }
    let r' : Replica := { nodeId := 5 }
    (∀ o ∈ sameContentTwice, o.Affects ['f']) ∧
    (handling sameContentTwice).Reach r
      (r.receiveAll [writeAt 1 5 1, writeAt 3 9 1, writeAt 2 5 2]) ∧
    (handling sameContentTwice).Reach r'
      (r'.receiveAll [writeAt 2 5 2, writeAt 3 9 1, writeAt 1 5 1]) ∧
    ∃ cp row row', IsCopyName cp ∧
      (r.receiveAll [writeAt 1 5 1, writeAt 3 9 1, writeAt 2 5 2]).store.files.get? cp = some row ∧
      (r'.receiveAll [writeAt 2 5 2, writeAt 3 9 1, writeAt 1 5 1]).store.files.get? cp =
        some row' ∧
      row.vv = row'.vv ∧ row.metadata = some (fileMeta 1) ∧ row'.metadata = some (fileMeta 2) ∧
      MerkleTree.leafHash { row with path := cp } ≠ MerkleTree.leafHash { row' with path := cp } := by
  intro r r'
  obtain ⟨hbuilt, -⟩ := sameContentTwice_ok
  refine ⟨by decide, reach_receiveAll hbuilt .init (by decide +kernel),
    reach_receiveAll hbuilt .init (by decide +kernel),
    copyPathFor ['f'] 5 (Meta.namingHash (some (fileMeta 1))), ?_⟩
  obtain ⟨row, hrow⟩ := Option.isSome_iff_exists.1
    (show ((r.receiveAll [writeAt 1 5 1, writeAt 3 9 1, writeAt 2 5 2]).store.files.get?
      (copyPathFor ['f'] 5 (Meta.namingHash (some (fileMeta 1))))).isSome by decide +kernel)
  obtain ⟨row', hrow'⟩ := Option.isSome_iff_exists.1
    (show ((r'.receiveAll [writeAt 2 5 2, writeAt 3 9 1, writeAt 1 5 1]).store.files.get?
      (copyPathFor ['f'] 5 (Meta.namingHash (some (fileMeta 1))))).isSome by decide +kernel)
  have hrows : ∀ x ∈ (r.receiveAll [writeAt 1 5 1, writeAt 3 9 1, writeAt 2 5 2]).store.files.get?
        (copyPathFor ['f'] 5 (Meta.namingHash (some (fileMeta 1)))),
      ∀ y ∈ (r'.receiveAll [writeAt 2 5 2, writeAt 3 9 1, writeAt 1 5 1]).store.files.get?
        (copyPathFor ['f'] 5 (Meta.namingHash (some (fileMeta 1)))),
      x.vv = y.vv ∧ x.metadata = some (fileMeta 1) ∧ y.metadata = some (fileMeta 2) ∧
        MerkleTree.leafHash
            { x with path := copyPathFor ['f'] 5 (Meta.namingHash (some (fileMeta 1))) } ≠
          MerkleTree.leafHash
            { y with path := copyPathFor ['f'] 5 (Meta.namingHash (some (fileMeta 1))) } := by
    decide +kernel
  exact ⟨row, row', ⟨_, _, _, rfl⟩, hrow, hrow', hrows row hrow row' hrow'⟩

end Example

end Replica

end Replicore
