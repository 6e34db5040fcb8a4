import Replicore.Store.Advance
import Replicore.Store.Blob
import Replicore.Store.Resolve

/-!
# The normal form of vectors

The header of `vv.rs` says that a stored counter is never zero.  The constructors and `merge` see
to it, but a vector is also decoded from a frame, as it came, and `increment` wraps.

`Store.AllVectors P` says that the vectors of the rows and of the log are in `P`, which a run keeps
if the vectors it decodes and the ones it mints are (`Store.AllVectors.exec`).  So a run that
decodes no zero counter and increments none at `u64::MAX` handles normal vectors only, and there
equality is causal equality (`Store.normal_form_run`).
-/

namespace Replicore

/-- The vectors that a message brings. -/
def Command.decoded : Command → List VersionVector
  | .applyRemote op _ => [op.vv]
  | .reconcileUpsert row => [row.vv]
  | .resolveRows _ remote _ _ => [remote.vv]
  | _ => []

/-- The paths whose vectors a local command increments. -/
def Command.localPaths : Command → List Path
  | .appendLocal change => [change.path]
  | .appendLocalRename oldPath newPath => [oldPath, newPath]
  | _ => []

namespace VersionVector

variable {P : VersionVector → Prop} {v w : VersionVector} {n : NodeId}

theorem fitsU64_iff : v.FitsU64 ↔ ∀ n, v.get n < u64Bound := by
  constructor
  · intro h n
    cases hn : v.map.get? n with
    | none =>
      rw [get, OrdMap.getD, hn]
      decide
    | some c =>
      rw [get, OrdMap.getD, hn]
      exact h (n, c) (OrdMap.mem_entries.2 hn)
  · intro h e he
    have hget := h e.1
    rwa [get, OrdMap.getD, OrdMap.mem_entries.1 he] at hget

theorem joinClosed_fitsU64 : JoinClosed FitsU64 where
  new := nofun
  single n := by
    intro e he
    rw [List.mem_singleton.1 he]
    exact (by decide : 1 < u64Bound)
  merge hv hw := by
    rw [fitsU64_iff] at *
    intro n
    rw [get_merge]
    exact max_lt (hv n) (hw n)

theorem JoinClosed.and {Q : VersionVector → Prop} (h : JoinClosed P) (h' : JoinClosed Q) :
    JoinClosed fun v => P v ∧ Q v where
  new := ⟨h.new, h'.new⟩
  single n := ⟨h.single n, h'.single n⟩
  merge hv hw := ⟨h.merge hv.1 hw.1, h'.merge hv.2 hw.2⟩

/-- Normal vectors of 64-bit counters. -/
def Sound (v : VersionVector) : Prop := v.Normal ∧ v.FitsU64

theorem joinClosed_sound : JoinClosed Sound := joinClosed_normal.and joinClosed_fitsU64

theorem FitsU64.increment (h : v.FitsU64) (n : NodeId) : (v.increment n).FitsU64 := by
  rw [fitsU64_iff] at *
  intro k
  rw [get_increment]
  split_ifs
  · exact Nat.mod_lt _ (by decide)
  · exact h k

/-- An increment has no zero counter exactly if it does not wrap. -/
theorem normal_increment_iff (hv : v.Normal) (hfits : v.FitsU64) :
    (v.increment n).Normal ↔ v.get n + 1 < u64Bound := by
  refine ⟨fun h => ?_, hv.increment⟩
  have hlt := fitsU64_iff.1 hfits n
  have hpos := h n _ (OrdMap.get?_insert_self _ _ _)
  by_contra hwrap
  have heq : v.get n + 1 = u64Bound := by omega
  rw [heq, Nat.mod_self] at hpos
  exact absurd hpos (lt_irrefl 0)

end VersionVector

namespace Store

open VersionVector

theorem mem_allFiles {st : Store} {row : FileRow} :
    row ∈ st.allFiles ↔ st.files.get? row.path = some row.toRow := by
  rw [allFiles, List.mem_map]
  constructor
  · rintro ⟨e, he, rfl⟩
    exact OrdMap.mem_entries.1 he
  · intro hrow
    exact ⟨(row.path, row.toRow), OrdMap.mem_entries.2 hrow, rfl⟩

/-- The vectors of the rows and of the logged ops are in `P`. -/
structure AllVectors (P : VersionVector → Prop) (st : Store) : Prop where
  rows : ∀ p r, st.files.get? p = some r → P r.vv
  log : ∀ o ∈ st.oplog, P o.vv

variable {P : VersionVector → Prop} {st st' : Store} {op : OpRecord}

namespace AllVectors

theorem vvAt (h : st.AllVectors P) (hP : JoinClosed P) (p : Path) : P (st.vvAt p) := by
  cases hr : st.files.get? p with
  | none =>
    rw [vvAt_eq_new hr]
    exact hP.new
  | some r =>
    rw [vvAt_eq hr]
    exact h.rows p r hr

theorem congr (h : st.AllVectors P) (hfiles : st'.files = st.files) (hlog : st'.oplog = st.oplog) :
    st'.AllVectors P :=
  ⟨hfiles ▸ h.rows, hlog ▸ h.log⟩

theorem upsertFile (h : st.AllVectors P) {row : FileRow} (hrow : P row.vv) :
    (st.upsertFile row).AllVectors P := by
  refine ⟨fun p r hr => ?_, h.log⟩
  rw [upsertFile_files, OrdMap.get?_insert] at hr
  split_ifs at hr
  · exact Option.some.inj hr ▸ hrow
  · exact h.rows p r hr

theorem insertOp (h : st.AllVectors P) (hop : P op.vv) : (st.insertOp op).AllVectors P := by
  refine ⟨(insertOp_files st op).symm ▸ h.rows, fun o ho => ?_⟩
  obtain ho | ⟨rfl, -⟩ := (mem_insertOp st op).1 ho
  · exact h.log o ho
  · exact hop

/-- A remote op, well formed or not. -/
theorem applyRemote (h : st.AllVectors P) (hP : JoinClosed P) (hop : P op.vv) {d e : Decision}
    (hrun : st.applyRemote op d = .ok (e, st')) : st'.AllVectors P := by
  obtain ⟨-, -, rfl⟩ | ⟨-, st₂, hsource, -, rfl⟩ := applyRemote_cases hrun
  · exact h.congr rfl rfl
  · have hprimary : ((st.insertOp op).applyPrimary op d).2.AllVectors P := by
      obtain ⟨hsame, -⟩ | ⟨-, -, -, hup⟩ := applyPrimary_cases (st.insertOp op) op d
      · rw [hsame]
        exact h.insertOp hop
      · rw [hup]
        refine (h.insertOp hop).upsertFile ?_
        rw [appliedRow_vv]
        exact hP.merge ((h.insertOp hop).vvAt hP _) hop
    have hboth : st₂.AllVectors P := by
      obtain ⟨rfl, -⟩ | ⟨p, -, -, -, rfl⟩ := applySource_cases hsource
      · exact hprimary
      · exact hprimary.upsertFile (hP.merge (hprimary.vvAt hP p) hop)
    exact hboth.congr (by simp) (by simp)

/-- A row taken over. -/
theorem reconcileUpsert (h : st.AllVectors P) (hP : JoinClosed P) {row : ReconciledRow}
    (hrow : P row.vv) : (st.reconcileUpsert row).2.AllVectors P := by
  obtain hsame | ⟨-, hup⟩ := reconcileUpsert_files st row
  · rw [hsame]
    exact h
  · rw [hup]
    exact h.upsertFile (hP.merge (h.vvAt hP row.path) hrow)

section

variable [Blake3]

theorem lookupVersion (h : st.AllVectors P) {p : Path} {e : Version}
    (he : st.lookupVersion p = some e) : P e.vv := by
  obtain ⟨r, hr, rfl⟩ := Option.map_eq_some_iff.1 he
  exact h.rows p r hr

theorem candidates (h : st.AllVectors P) {path : Path} {remote : Version} {localRow : FileRow}
    {order : List Hash} (hremote : P remote.vv) (hloc : st.loadRow path = some localRow) :
    ∀ c ∈ st.candidates path remote localRow order, P c.vv := by
  intro c hc
  obtain ⟨o, ho, -, rfl⟩ | rfl | rfl := mem_candidates hc
  · exact h.log o ho
  · exact hremote
  · exact h.rows path _ (loadRow_eq_some.1 hloc).1

/-- A committed resolution. -/
theorem resolved (h : st.AllVectors P) (hP : JoinClosed P) {path : Path} {remote : Version}
    {order : List Hash} (hremote : P remote.vv) (hres : Resolved st st' path remote order) :
    st'.AllVectors P := by
  obtain ⟨loc, winner, losers, copies, hloc, -, -, -, hwin, hplan, hcopies, hframe⟩ := hres.spec
  refine ⟨fun p r hr => ?_, hres.oplog ▸ h.log⟩
  by_cases hp : p = path
  · rw [hp, hwin, Option.some.injEq] at hr
    rw [← hr]
    exact hP.mergeAll (h.candidates hremote hloc)
  · by_cases hcp : ∃ c ∈ copies, c.path = p
    · obtain ⟨c, hc, rfl⟩ := hcp
      rw [(hcopies c hc).2.2, Option.some.injEq] at hr
      rw [← hr]
      exact hP.placed (planCopies_placed hplan c hc) fun p e he => h.lookupVersion he
    · push Not at hcp
      rw [hframe p hp hcp] at hr
      exact h.rows p r hr

/-- A command keeps what the vectors it decodes and the one it mints have. -/
theorem exec (h : st.AllVectors P) (hP : JoinClosed P) {n : NodeId} {cmd : Command}
    (hdecoded : ∀ v ∈ cmd.decoded, P v) (hminted : ∀ op, cmd.emitted n st = some op → P op.vv) :
    (st.exec n cmd).AllVectors P := by
  cases cmd with
  | appendLocal change =>
    cases hrun : st.appendLocal n change with
    | error e => simpa only [Store.exec, commit, hrun] using h
    | ok x =>
      obtain ⟨o, st'⟩ := x
      simp only [Store.exec, commit, hrun]
      obtain ⟨-, rfl, -⟩ | ⟨rfl, -, -, hfiles, hlog, -⟩ := appendLocal_cases hrun
      · exact h
      · have hop : P (localOp n st change).vv := hminted _ (by simp only [Command.emitted, hrun])
        have hrow : P (localRow (localOp n st change)).vv := hop
        exact ((h.insertOp hop).upsertFile hrow).congr
          (by rw [hfiles]; simp [localRow, localOp]) (by rw [hlog]; rfl)
  | appendLocalRename old new =>
    obtain hrun | ⟨src, hsrc, -, -, hrun⟩ := appendLocalRename_cases n st old new
    · simpa only [Store.exec, hrun] using h
    · have hop : P (renameOp n st old new src).vv := hminted _ (by simp only [Command.emitted, hrun])
      simp only [Store.exec, hrun]
      exact ((h.insertOp hop).upsertFile hop).upsertFile hop
  | applyRemote op d =>
    have hop : P op.vv := hdecoded _ List.mem_cons_self
    cases hrun : st.applyRemote op d with
    | error e => simpa only [Store.exec, commit, hrun] using h
    | ok x => simpa only [Store.exec, commit, hrun] using h.applyRemote hP hop hrun
  | reconcileUpsert row => exact h.reconcileUpsert hP (hdecoded _ List.mem_cons_self)
  | resolveRows path remote staged order =>
    obtain hsame | hres := exec_resolveRows n st path remote staged order
    · rw [hsame]
      exact h
    · exact h.resolved hP (hdecoded _ List.mem_cons_self) hres

end

end AllVectors

section

variable [Blake3] {n n' : NodeId} {cmd : Command}

/-- The vector a local command mints: an increment of the join of the rows at its paths. -/
theorem emitted_vv (hem : cmd.emitted n st = some op) :
    ∃ base : VersionVector, op.vv = base.increment n ∧
      (∃ p ∈ cmd.localPaths, base.get n = (st.vvAt p).get n) ∧
      (∀ p ∈ cmd.localPaths, st.vvAt p ≤ base) ∧
      ∀ P, JoinClosed P → st.AllVectors P → P base := by
  cases cmd with
  | appendLocal change =>
    obtain rfl := emitted_appendLocal hem
    refine ⟨st.vvAt change.path, localOp_vv n st change, ⟨_, List.mem_cons_self, rfl⟩,
      fun p hp => ?_, fun P hP h => h.vvAt hP _⟩
    rw [List.mem_singleton.1 hp]
  | appendLocalRename old new =>
    obtain hnone | ⟨src, hsrc, -, -, hsome⟩ := appendLocalRename_cases n st old new
    · rw [Command.emitted, hnone] at hem
      cases hem
    · rw [Command.emitted, hsome] at hem
      obtain rfl := Option.some.inj hem
      refine ⟨(st.vvAt old).merge (st.vvAt new), renameOp_vv_eq n new hsrc, ?_, fun p hp => ?_,
        fun P hP h => hP.merge (h.vvAt hP _) (h.vvAt hP _)⟩
      · rw [get_merge]
        obtain hmax | hmax := max_choice ((st.vvAt old).get n) ((st.vvAt new).get n)
        · exact ⟨old, List.mem_cons_self, hmax⟩
        · exact ⟨new, List.mem_cons_of_mem _ List.mem_cons_self, hmax⟩
      · obtain rfl | hp := List.mem_cons.1 hp
        · exact le_merge_left _ _
        · rw [List.mem_singleton.1 hp]
          exact le_merge_right _ _
  | applyRemote op' d => cases hem
  | reconcileUpsert row => cases hem
  | resolveRows path remote staged order => cases hem

/-- What the vectors that a command handles can be: decoded from the blob of a row or of a logged op
(whose entries a `usize` counts), decoded from a frame, minted, or built from these. -/
inductive Handles (n : NodeId) (st : Store) (cmd : Command) : VersionVector → Prop
  | row {p : Path} {r : Row} {v : VersionVector} (hr : st.files.get? p = some r)
      (hlen : r.vv.map.entries.length < u64Bound) (hv : decodeVv (encodeVv r.vv) = some v) :
      Handles n st cmd v
  | logged {o : OpRecord} {v : VersionVector} (ho : o ∈ st.oplog)
      (hlen : o.vv.map.entries.length < u64Bound) (hv : decodeVv (encodeVv o.vv) = some v) :
      Handles n st cmd v
  | frame {v : VersionVector} (hv : v ∈ cmd.decoded) : Handles n st cmd v
  | minted {op : OpRecord} (hop : cmd.emitted n st = some op) : Handles n st cmd op.vv
  | fromIter (es : List (NodeId × ℕ)) : Handles n st cmd (fromIter es)
  | merge {v w : VersionVector} (hv : Handles n st cmd v) (hw : Handles n st cmd w) :
      Handles n st cmd (v.merge w)

/-- The vectors of a message were decoded from bytes. -/
def FromWire (cmd : Command) : Prop := ∀ v ∈ cmd.decoded, ∃ bs, decodeVv bs = some v

/-- The command decodes no zero counter, and does not increment the node's counter at
`u64::MAX`. -/
def NoZero (n : NodeId) (st : Store) (cmd : Command) : Prop :=
  (∀ v ∈ cmd.decoded, v.Normal) ∧ (cmd.emitted n st ≠ none →
    ∀ p ∈ cmd.localPaths, (st.vvAt p).get n < u64Bound - 1)

/-- The runs of one store: any command, with what any peer may send. -/
def wireRuns (n : NodeId) : Lts Store Command := Lts.ofFun (fun _ cmd => FromWire cmd) (exec n)

theorem normal_emitted_iff (h : st.AllVectors Sound) (hem : cmd.emitted n st = some op) :
    op.vv.Normal ↔ ∀ p ∈ cmd.localPaths, (st.vvAt p).get n < u64Bound - 1 := by
  obtain ⟨base, hvv, ⟨p, hp, hget⟩, hle, hbase⟩ := emitted_vv hem
  obtain ⟨hnormal, hfits⟩ := hbase _ joinClosed_sound h
  rw [hvv, normal_increment_iff hnormal hfits]
  constructor
  · intro hlt q hq
    have hq' : (st.vvAt q).get n ≤ base.get n := hle q hq n
    omega
  · intro hall
    have hp' := hall p hp
    omega

/-- A step that decodes and mints no zero counter keeps the store without. -/
theorem AllVectors.exec_sound (h : st.AllVectors Sound) (hwire : FromWire cmd)
    (hzero : st.NoZero n cmd) : (st.exec n cmd).AllVectors Sound := by
  refine h.exec joinClosed_sound (fun v hv => ?_) fun op hem => ?_
  · obtain ⟨bs, hbs⟩ := hwire v hv
    exact ⟨hzero.1 v hv, fitsU64_decodeVv hbs⟩
  · refine ⟨(normal_emitted_iff h hem).2 (hzero.2 (by rw [hem]; exact Option.some_ne_none _)), ?_⟩
    obtain ⟨base, hvv, -, -, hbase⟩ := emitted_vv hem
    rw [hvv]
    exact (hbase _ joinClosed_sound h).2.increment n

theorem sound_reach (h : ((wireRuns n).restrict (NoZero n)).Reach {} st) : st.AllVectors Sound := by
  have hinit : AllVectors Sound {} := ⟨fun p r hr => (by cases hr), by simp⟩
  refine h.invariant hinit ?_
  rintro st cmd _ - hinv ⟨hzero, hwire, rfl⟩
  exact hinv.exec_sound hwire hzero

theorem Handles.normal (h : st.AllVectors Sound) (hzero : st.NoZero n cmd) {v : VersionVector}
    (hv : Handles n st cmd v) : v.Normal := by
  induction hv with
  | row hr hlen hv =>
    have hback := decodeVv_encodeVv (h.rows _ _ hr).2 hlen []
    rw [List.append_nil, hv] at hback
    exact Option.some.inj hback ▸ (h.rows _ _ hr).1
  | logged ho hlen hv =>
    have hback := decodeVv_encodeVv (h.log _ ho).2 hlen []
    rw [List.append_nil, hv] at hback
    exact Option.some.inj hback ▸ (h.log _ ho).1
  | frame hv => exact hzero.1 _ hv
  | minted hop =>
    exact (normal_emitted_iff h hop).2 (hzero.2 (by rw [hop]; exact Option.some_ne_none _))
  | fromIter es => exact normal_fromIter es
  | merge _ _ hv hw => exact hv.merge hw

/-- **Vectors stay in normal form exactly while no zero counter is decoded and no counter wraps.**
In every run whose steps decode no zero counter and increment no counter at `u64::MAX`, the vectors
that a command handles, the arguments of `merge` among them, are all normal if and only if the
command does so too; the vectors of rows and logs are equal exactly if `compare` says so; and rows
of two nodes that differ only in causally equal vectors have one leaf hash. -/
theorem normal_form_run {n n' : NodeId} {st st' : Store}
    (h : ((wireRuns n).restrict (NoZero n)).Reach {} st)
    (h' : ((wireRuns n').restrict (NoZero n')).Reach {} st') :
    (∀ cmd, FromWire cmd → ((∀ v, Handles n st cmd v → v.Normal) ↔ st.NoZero n cmd)) ∧
      (st.AllVectors Normal ∧ st'.AllVectors Normal) ∧
      (∀ r ∈ st.allFiles, ∀ r' ∈ st'.allFiles, r.vv = r'.vv ↔ r.vv.compare r'.vv = .equal) ∧
      ∀ r ∈ st.allFiles, ∀ r' ∈ st'.allFiles, { r with vv := r'.vv } = r' →
        r.vv.compare r'.vv = .equal → MerkleTree.leafHash r = MerkleTree.leafHash r' := by
  have hsound := sound_reach h
  have hsound' := sound_reach h'
  have hnormal : st.AllVectors Normal :=
    ⟨fun p r hr => (hsound.rows p r hr).1, fun o ho => (hsound.log o ho).1⟩
  have hnormal' : st'.AllVectors Normal :=
    ⟨fun p r hr => (hsound'.rows p r hr).1, fun o ho => (hsound'.log o ho).1⟩
  have heq : ∀ r ∈ st.allFiles, ∀ r' ∈ st'.allFiles, r.vv = r'.vv ↔ r.vv.compare r'.vv = .equal := by
    intro r hr r' hr'
    rw [compare_eq_equal]
    constructor
    · intro hvv
      exact ⟨hvv.le, hvv.ge⟩
    · rintro ⟨hle, hge⟩
      exact (hnormal.rows _ _ (mem_allFiles.1 hr)).ext (hnormal'.rows _ _ (mem_allFiles.1 hr')) hle hge
  refine ⟨fun cmd hwire => ⟨fun hall => ⟨fun v hv => hall v (.frame hv), fun hem => ?_⟩,
    fun hzero v hv => hv.normal hsound hzero⟩, ⟨hnormal, hnormal'⟩, heq, ?_⟩
  · obtain ⟨op, hop⟩ := Option.ne_none_iff_exists'.1 hem
    exact (normal_emitted_iff hsound hop).1 (hall _ (.minted hop))
  · intro r hr r' hr' hsame hcompare
    have hvv := (heq r hr r' hr').2 hcompare
    rw [← hsame, ← hvv]

end

section Example

attribute [local instance] Blake3.polynomial

/-- A vector on the wire: one write of node 2, and none of node 3. -/
def zeroBytes : List Byte := Bytes.leBytes 8 2 ++ entryBytes (2, 1) ++ entryBytes (3, 0)

/-- What it decodes to. -/
def zeroVv : VersionVector := ⟨(OrdMap.empty.insert 2 1).insert 3 0⟩

theorem fromWire_applyRemote {o : OpRecord} {d : Decision} (bs : List Byte)
    (h : decodeVv bs = some o.vv) : FromWire (.applyRemote o d) := by
  intro v hv
  exact ⟨bs, List.mem_singleton.1 hv ▸ h⟩

/-- **A zero counter is decoded as it came.**  Two nodes take in the op with and without it: their
rows differ in causally equal vectors only, which are not equal, and neither are their leaf hashes.
And a counter at `u64::MAX` is incremented to zero. -/
theorem zero_counters_stored :
    (∃ st st', (wireRuns 1).Reach {} st ∧ (wireRuns 4).Reach {} st' ∧
      ∃ r ∈ st.allFiles, ∃ r' ∈ st'.allFiles, { r with vv := r'.vv } = r' ∧
        r.vv.compare r'.vv = .equal ∧ r.vv ≠ r'.vv ∧
        MerkleTree.leafHash r ≠ MerkleTree.leafHash r') ∧
      ∃ st op, (wireRuns 1).Reach {} st ∧ (Command.appendLocal writeF).emitted 1 st = some op ∧
        ¬ op.vv.Normal := by
  constructor
  · refine ⟨exec 1 {} (.applyRemote foreignF .apply),
      exec 4 {} (.applyRemote { foreignF with vv := zeroVv } .apply),
      .next .init ⟨fromWire_applyRemote (encodeVv foreignF.vv) (by decide +kernel), rfl⟩,
      .next .init ⟨fromWire_applyRemote zeroBytes (by decide +kernel), rfl⟩,
      appliedRow foreignF foreignF.vv, by decide +kernel,
      appliedRow foreignF zeroVv, by decide +kernel, by decide +kernel, by decide +kernel,
      by decide +kernel, by decide +kernel⟩
  · refine ⟨afterMax, localOp 1 afterMax writeF,
      .next .init ⟨fromWire_applyRemote (encodeVv foreignMax.vv) (by decide +kernel), rfl⟩, rfl, ?_⟩
    intro hnormal
    exact absurd (hnormal 1 0 (by decide +kernel)) (lt_irrefl 0)

/-- Both nodes take in the op without it. -/
theorem normal_form_run_foreign :
    let st := exec 1 {} (.applyRemote foreignF .apply)
    let st' := exec 4 {} (.applyRemote foreignF .apply)
    st.AllVectors Normal ∧ st'.AllVectors Normal ∧
      ∀ v, Handles 1 st (.appendLocal writeF) v → v.Normal := by
  intro st st'
  have hzero : ∀ n, NoZero n {} (.applyRemote foreignF .apply) := by
    intro n
    refine ⟨fun v hv => ?_, fun hem => absurd rfl hem⟩
    rw [List.mem_singleton.1 hv]
    exact normal_fromIter _
  have hwire : FromWire (.applyRemote foreignF .apply) :=
    fromWire_applyRemote (encodeVv foreignF.vv) (by decide +kernel)
  have hrun : ((wireRuns 1).restrict (NoZero 1)).Reach {} st := .next .init ⟨hzero 1, hwire, rfl⟩
  have hrun' : ((wireRuns 4).restrict (NoZero 4)).Reach {} st' := .next .init ⟨hzero 4, hwire, rfl⟩
  obtain ⟨hhandled, ⟨hnormal, hnormal'⟩, -⟩ := normal_form_run hrun hrun'
  refine ⟨hnormal, hnormal', (hhandled (.appendLocal writeF) nofun).2 ⟨nofun, fun _ p hp => ?_⟩⟩
  rw [List.mem_singleton.1 hp]
  decide +kernel

end Example

end Store

end Replicore
