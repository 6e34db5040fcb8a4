import Replicore.Store.OpLog

/-!
# The manifest tables

A manifest is a row that counts its chunks and one row for each chunk, all inserted with
`INSERT OR IGNORE`.  Nodes may cut the same content into chunks of different sizes, so a second
manifest for the same content need not be the first one: its count is ignored, and so are its chunks
up to the length of the first, but the rest of them is appended (`overlay`).

From the first put on, `manifestFor` answers with the first manifest as long as no later one for the
same content has more chunks, and never again afterwards (`manifestFor_iff`).
-/

namespace Replicore

namespace Store

/-- Load a manifest's structure; one whose chunk rows are not as many as it says counts as
absent. -/
def manifestFor (st : Store) (contentHash : Hash) : Option Manifest :=
  match st.manifests.get? contentHash with
  | none => none
  | some count =>
    let chunks :=
      (st.manifestChunks.entries.filter fun e => (ofLex e.1).1 = contentHash).map Prod.snd
    if chunks.length ≠ count then none else some { contentHash, chunks }

end Store

/-! ### What the tables hold -/

/-- The chunk rows of a content hash: what the manifests put for it append to `cs`. -/
def overlay (h : Hash) (cs : List ChunkEntry) (puts : List Manifest) : List ChunkEntry :=
  puts.foldl (fun cs m => if m.contentHash = h then cs ++ m.chunks.drop cs.length else cs) cs

section overlay

variable {h : Hash} {cs : List ChunkEntry}

theorem overlay_cons (m : Manifest) (puts : List Manifest) : overlay h cs (m :: puts) =
    overlay h (if m.contentHash = h then cs ++ m.chunks.drop cs.length else cs) puts := rfl

theorem overlay_append (puts puts' : List Manifest) :
    overlay h cs (puts ++ puts') = overlay h (overlay h cs puts) puts' := List.foldl_append

/-- Manifests for other contents leave the rows alone. -/
theorem overlay_of_ne {puts : List Manifest} (hne : ∀ m ∈ puts, m.contentHash ≠ h) :
    overlay h cs puts = cs := by
  induction puts with
  | nil => rfl
  | cons m puts ih =>
    rw [overlay_cons, if_neg (hne m List.mem_cons_self)]
    exact ih fun x hx => hne x (List.mem_cons_of_mem _ hx)

/-- Rows stay as they are while no manifest has more chunks. -/
theorem overlay_of_le {puts : List Manifest}
    (hle : ∀ m ∈ puts, m.contentHash = h → m.chunks.length ≤ cs.length) :
    overlay h cs puts = cs := by
  induction puts with
  | nil => rfl
  | cons m puts ih =>
    rw [overlay_cons]
    split_ifs with hm
    · rw [List.drop_eq_nil_of_le (hle m List.mem_cons_self hm), List.append_nil]
      exact ih fun x hx => hle x (List.mem_cons_of_mem _ hx)
    · exact ih fun x hx => hle x (List.mem_cons_of_mem _ hx)

theorem length_le_overlay (cs : List ChunkEntry) (puts : List Manifest) :
    cs.length ≤ (overlay h cs puts).length := by
  induction puts generalizing cs with
  | nil => exact le_rfl
  | cons m puts ih =>
    rw [overlay_cons]
    refine le_trans ?_ (ih _)
    split_ifs
    · simp
    · exact le_rfl

/-- There are at least as many rows as any manifest has chunks. -/
theorem chunks_length_le_overlay {puts : List Manifest} {m : Manifest} (hm : m ∈ puts)
    (hh : m.contentHash = h) : m.chunks.length ≤ (overlay h cs puts).length := by
  induction puts generalizing cs with
  | nil => cases hm
  | cons x puts ih =>
    rw [overlay_cons]
    rcases List.mem_cons.1 hm with rfl | hm
    · refine le_trans ?_ (length_le_overlay _ _)
      rw [if_pos hh, List.length_append, List.length_drop]
      omega
    · exact ih hm

end overlay

/-- The tables hold what the manifests put so far have left. -/
structure Store.Holds (st : Store) (puts : List Manifest) : Prop where
  count : ∀ h, st.manifests.get? h =
    (puts.find? fun m => m.contentHash = h).map (·.chunks.length)
  chunks : ∀ h i, st.manifestChunks.get? (toLex (h, i)) = (overlay h [] puts)[i]?

namespace Store

/-- The insertion of chunk rows from index `n` on: one that is there is ignored. -/
theorem get?_insertChunks (h : Hash) (cs : List ChunkEntry) (n : ℕ)
    (t : OrdMap (Hash ×ₗ ℕ) ChunkEntry) (h' : Hash) (i : ℕ) :
    ((cs.zipIdx n).foldl (fun t c => if (t.get? (toLex (h, c.2))).isSome then t
        else t.insert (toLex (h, c.2)) c.1) t).get? (toLex (h', i)) =
      (t.get? (toLex (h', i))).or (if h = h' ∧ n ≤ i then cs[i - n]? else none) := by
  induction cs generalizing n t with
  | nil => simp
  | cons c cs ih =>
    rw [List.zipIdx_cons, List.foldl_cons, ih]
    have hget : (if (t.get? (toLex (h, n))).isSome then t
          else t.insert (toLex (h, n)) c).get? (toLex (h', i)) =
        (t.get? (toLex (h', i))).or (if h = h' ∧ n = i then some c else none) := by
      by_cases hk : h = h' ∧ n = i
      · obtain ⟨rfl, rfl⟩ := hk
        cases ht : t.get? (toLex (h, n)) with
        | none => simp
        | some x => simp [ht]
      · have hne : (toLex (h, n) : Hash ×ₗ ℕ) ≠ toLex (h', i) := fun heq =>
          hk (Prod.mk.inj (toLex.injective heq))
        rw [if_neg hk, Option.or_none]
        split_ifs
        · rfl
        · exact OrdMap.get?_insert_of_ne _ _ hne
    rw [hget, Option.or_assoc]
    congr 1
    by_cases hh : h = h'
    · rcases lt_trichotomy n i with hlt | rfl | hgt
      · have hsub : i - n = (i - (n + 1)) + 1 := by omega
        simp [hh, hlt.le, hlt.ne, hsub, Nat.succ_le_of_lt hlt]
      · simp [hh]
      · simp [hh, hgt.ne', Nat.not_le_of_gt hgt, Nat.not_le_of_gt (Nat.lt_succ_of_lt hgt)]
    · simp [hh]

/-- The insertion of the row that counts the chunks. -/
theorem get?_insertCount (st : Store) (m : Manifest) (h : Hash) :
    (st.putManifest m).manifests.get? h =
      (st.manifests.get? h).or (if m.contentHash = h then some m.chunks.length else none) := by
  simp only [putManifest]
  by_cases hm : m.contentHash = h
  · subst hm
    cases hst : st.manifests.get? m.contentHash with
    | none => simp
    | some n => simp [hst]
  · rw [if_neg hm, Option.or_none]
    split_ifs
    · rfl
    · exact OrdMap.get?_insert_of_ne _ _ hm

/-- A further put. -/
theorem Holds.putManifest {st : Store} {puts : List Manifest} (hst : st.Holds puts) (m : Manifest) :
    (st.putManifest m).Holds (puts ++ [m]) := by
  refine ⟨fun h => ?_, fun h i => ?_⟩
  · rw [get?_insertCount, hst.count, List.find?_append, List.find?_singleton, Option.map_or]
    by_cases hm : m.contentHash = h
    · simp [hm]
    · simp [hm]
  · simp only [Store.putManifest, get?_insertChunks, hst.chunks, overlay_append, Nat.zero_le,
      and_true, Nat.sub_zero]
    rw [overlay_cons]
    split_ifs
    · rw [show overlay h (overlay h [] puts ++ m.chunks.drop (overlay h [] puts).length) [] =
        overlay h [] puts ++ m.chunks.drop (overlay h [] puts).length from rfl]
      by_cases hi : i < (overlay h [] puts).length
      · rw [List.getElem?_append_left hi, List.getElem?_eq_getElem hi, Option.some_or]
      · have hle := Nat.le_of_not_lt hi
        rw [List.getElem?_eq_none hle, Option.none_or, List.getElem?_append_right hle,
          List.getElem?_drop, Nat.add_sub_cancel' hle]
    · exact Option.or_none

/-- What `manifestFor` answers. -/
theorem Holds.manifestFor_eq {st : Store} {puts : List Manifest} (hst : st.Holds puts) (h : Hash) :
    st.manifestFor h = (puts.find? fun m => m.contentHash = h).bind fun first =>
      if (overlay h [] puts).length ≠ first.chunks.length then none
      else some { contentHash := h, chunks := overlay h [] puts } := by
  rw [manifestFor, hst.count]
  cases puts.find? fun m => m.contentHash = h with
  | none => rfl
  | some first => simp only [Option.map_some, Option.bind_some, OrdMap.filter_entries_lex (hst.chunks h)]

/-- The manifest found for a content hash is the first one put for it. -/
theorem Holds.found_iff {st : Store} {puts : List Manifest} (hst : st.Holds puts) {h : Hash}
    {first : Manifest} (hfirst : puts.find? (fun m => m.contentHash = h) = some first) :
    ((∃ m ∈ puts, m.contentHash = h ∧ st.manifestFor h = some m) ↔
      ∀ m ∈ puts, m.contentHash = h → m.chunks.length ≤ first.chunks.length) ∧
    ∀ m, st.manifestFor h = some m → m = first := by
  obtain ⟨hh, before, after, rfl, hbefore⟩ := List.find?_eq_some_iff_append.1 hfirst
  have hh : first.contentHash = h := by simpa using hh
  have hmem : first ∈ before ++ first :: after := by simp
  have heq := hst.manifestFor_eq h
  rw [hfirst, Option.bind_some] at heq
  -- before the first one there are no rows, and the first one brings its own
  have hnone : ∀ m ∈ before, m.contentHash ≠ h := by simpa using hbefore
  have hover : overlay h [] (before ++ first :: after) = overlay h first.chunks after := by
    rw [overlay_append, overlay_of_ne hnone, overlay_cons, if_pos hh]
    rfl
  have hsame : (overlay h [] (before ++ first :: after)).length = first.chunks.length →
      overlay h [] (before ++ first :: after) = first.chunks := by
    intro hlen
    rw [hover]
    refine overlay_of_le fun m hm hmh => ?_
    rw [← hlen]
    exact chunks_length_le_overlay (by simp [hm]) hmh
  have hfound : ∀ m, st.manifestFor h = some m →
      (overlay h [] (before ++ first :: after)).length = first.chunks.length ∧ m = first := by
    intro m hm
    rw [heq] at hm
    split_ifs at hm with hlen
    have hlen := not_not.1 hlen
    refine ⟨hlen, ?_⟩
    rw [Option.some.injEq, hsame hlen, ← hh] at hm
    exact hm.symm
  refine ⟨⟨?_, fun hle => ⟨first, hmem, hh, ?_⟩⟩, fun m hm => (hfound m hm).2⟩
  · rintro ⟨m, -, -, hm⟩ x hx hxh
    rw [← (hfound m hm).1]
    exact chunks_length_le_overlay hx hxh
  · have hchunks : overlay h [] (before ++ first :: after) = first.chunks := by
      rw [hover]
      exact overlay_of_le fun m hm hmh => hle m (by simp [hm]) hmh
    rw [heq, hchunks, if_neg (by simp), ← hh]

end Store

/-! ### Every run -/

/-- The manifest that a command puts: the one that comes with a local change, if it becomes an
op. -/
def Command.manifest [Blake3] (me : NodeId) (st : Store) : Command → Option Manifest
  | .appendLocal change =>
    if ((Command.appendLocal change).emitted me st).isSome then change.manifest else none
  | _ => none

/-- What writes the manifest tables: a command, or a manifest obtained from a peer. -/
inductive ManifestAct
  | command (cmd : Command)
  | put (m : Manifest)

/-- A store, and the manifests put into it so far. -/
structure ManifestLog where
  store : Store := {}
  puts : List Manifest := []

namespace Store

/-- The two tables of manifests. -/
def manifestTables (st : Store) : OrdMap Hash ℕ × OrdMap (Hash ×ₗ ℕ) ChunkEntry :=
  (st.manifests, st.manifestChunks)

@[simp] theorem manifestTables_insertOp (st : Store) (op : OpRecord) :
    (st.insertOp op).manifestTables = st.manifestTables := by
  unfold insertOp; split_ifs <;> rfl

@[simp] theorem manifestTables_upsertFile (st : Store) (row : FileRow) :
    (st.upsertFile row).manifestTables = st.manifestTables := rfl

@[simp] theorem manifestTables_markApplied (st : Store) (i : Hash) :
    (st.markApplied i).manifestTables = st.manifestTables := by
  unfold markApplied; split_ifs <;> rfl

@[simp] theorem manifestTables_advanceRecvCursor (st : Store) (peer origin : NodeId) (n : ℤ) :
    (st.advanceRecvCursor peer origin n).manifestTables = st.manifestTables := rfl

theorem Holds.congr {st st' : Store} {puts : List Manifest} (hst : st.Holds puts)
    (h : st'.manifestTables = st.manifestTables) : st'.Holds puts := by
  obtain ⟨hcount, hchunks⟩ := Prod.mk.inj h
  exact ⟨hcount ▸ hst.count, hchunks ▸ hst.chunks⟩

theorem manifestTables_putManifest {st st' : Store} (h : st'.manifestTables = st.manifestTables)
    (m : Manifest) : (st'.putManifest m).manifestTables = (st.putManifest m).manifestTables := by
  obtain ⟨hcount, hchunks⟩ := Prod.mk.inj h
  simp only [manifestTables, putManifest, hcount, hchunks]

theorem manifestTables_applyPrimary (st : Store) (op : OpRecord) (d : Decision) :
    (st.applyPrimary op d).2.manifestTables = st.manifestTables := by
  rcases applyPrimary_cases st op d with ⟨h, -⟩ | ⟨-, -, -, h⟩
  · rw [h]
  · rw [h, manifestTables_upsertFile]

theorem manifestTables_applySource {st st' : Store} {op : OpRecord}
    (h : st.applySource op = .ok st') : st'.manifestTables = st.manifestTables := by
  rcases applySource_cases h with ⟨rfl, -⟩ | ⟨p, -, -, -, rfl⟩
  · rfl
  · rw [manifestTables_upsertFile]

variable [Blake3]

theorem manifestTables_appendLocal {me : NodeId} {st st' : Store} {change : LocalChange}
    {o : Option OpRecord} (h : st.appendLocal me change = .ok (o, st')) :
    st'.manifestTables =
      ((if o.isSome then change.manifest else none).elim st st.putManifest).manifestTables := by
  unfold appendLocal at h
  split_ifs at h with hren hno
  · cases h
    rfl
  · have htables : ((st.insertOp (localOp me st change)).upsertFile
        (localRow (localOp me st change))).manifestTables = st.manifestTables := by simp
    cases hm : change.manifest with
    | none =>
      simp only [hm] at h
      cases h
      exact htables
    | some m =>
      simp only [hm] at h
      split_ifs at h
      cases h
      exact manifestTables_putManifest htables m

/-- A command writes the tables only by the manifest it puts. -/
theorem manifestTables_exec (me : NodeId) (st : Store) (cmd : Command) :
    (st.exec me cmd).manifestTables =
      ((cmd.manifest me st).elim st st.putManifest).manifestTables := by
  cases cmd with
  | appendLocal change =>
    cases h : st.appendLocal me change with
    | error e => simp [exec, commit, h, Command.manifest, Command.emitted]
    | ok x => simpa only [exec, commit, h, Command.manifest, Command.emitted] using
        manifestTables_appendLocal h
  | appendLocalRename old new =>
    rcases appendLocalRename_cases me st old new with h | ⟨src, -, -, -, h⟩
    · simp [exec, h, Command.manifest]
    · simp [exec, h, Command.manifest]
  | applyRemote op d =>
    cases h : st.applyRemote op d with
    | error e => simp [exec, commit, h, Command.manifest]
    | ok x =>
      obtain ⟨e, st'⟩ := x
      simp only [exec, commit, h, Command.manifest, Option.elim_none]
      rcases applyRemote_cases h with ⟨-, -, rfl⟩ | ⟨-, st₂, hsrc, -, rfl⟩
      · rw [manifestTables_advanceRecvCursor]
      · rw [manifestTables_advanceRecvCursor, manifestTables_markApplied,
          manifestTables_applySource hsrc, manifestTables_applyPrimary, manifestTables_insertOp]
  | reconcileUpsert row =>
    simp only [exec, Command.manifest, Option.elim_none, reconcileUpsert]
    split_ifs
    · rw [manifestTables_upsertFile]
    · rfl
  | resolveRows path remote staged order =>
    cases h : st.resolveRows path remote staged order with
    | error e => simp [exec, commit, h, Command.manifest]
    | ok x =>
      obtain ⟨out, st'⟩ := x
      simp only [exec, commit, h, Command.manifest, Option.elim_none]
      rcases resolveRows_cases h with ⟨-, rfl⟩ | ⟨-, -, -, -, -, rfl⟩
      · rfl
      · rw [foldl_upsertFile_eq]
        rfl

end Store

namespace ManifestLog

variable [Blake3]

/-- One act, in its own transaction. -/
def exec (me : NodeId) (s : ManifestLog) : ManifestAct → ManifestLog
  | .command cmd =>
    { store := s.store.exec me cmd, puts := s.puts ++ (cmd.manifest me s.store).toList }
  | .put m => { store := s.store.putManifest m, puts := s.puts ++ [m] }

/-- All runs. -/
def runs (me : NodeId) : Lts ManifestLog ManifestAct := .ofFun (fun _ _ => True) (exec me)

theorem holds_exec {me : NodeId} {s : ManifestLog} (h : s.store.Holds s.puts) (act : ManifestAct) :
    (exec me s act).store.Holds (exec me s act).puts := by
  cases act with
  | put m => exact h.putManifest m
  | command cmd =>
    have htables := Store.manifestTables_exec me s.store cmd
    simp only [exec]
    cases hm : cmd.manifest me s.store with
    | none =>
      rw [hm, Option.elim_none] at htables
      simpa using h.congr htables
    | some m =>
      rw [hm, Option.elim_some] at htables
      exact (h.putManifest m).congr htables

/-- At every moment of every run the tables hold what was put. -/
theorem holds_reach {me : NodeId} {s : ManifestLog} (hs : (runs me).Reach {} s) :
    s.store.Holds s.puts := by
  refine hs.invariant (I := fun s => s.store.Holds s.puts) ⟨fun h => rfl, fun h i => rfl⟩
    fun s act s' _ h hstep => ?_
  obtain ⟨-, rfl⟩ := hstep
  exact holds_exec h act

/-- **A manifest is found as long as no longer one is put.**  At every moment of every run, for
every content hash with a first manifest put for it: one of the manifests put for it is found if
and only if none of them has more chunks than the first; and what is found is the first one, never
a mixture. -/
theorem manifestFor_iff (me : NodeId) {s : ManifestLog} (hs : (runs me).Reach {} s) {h : Hash}
    {first : Manifest} (hfirst : s.puts.find? (fun m => m.contentHash = h) = some first) :
    ((∃ m ∈ s.puts, m.contentHash = h ∧ s.store.manifestFor h = some m) ↔
      ∀ m ∈ s.puts, m.contentHash = h → m.chunks.length ≤ first.chunks.length) ∧
    ∀ m, s.store.manifestFor h = some m → m = first :=
  (holds_reach hs).found_iff hfirst

end ManifestLog

namespace ManifestLog

section Example

attribute [local instance] Blake3.polynomial

/-- Content 5, cut into one chunk. -/
def oneChunk : Manifest where
  contentHash := 5
  chunks := [{ hash := 5, len := 8 }]

/-- Content 5, cut into two chunks. -/
def twoChunks : Manifest where
  contentHash := 5
  chunks := [{ hash := 6, len := 4 }, { hash := 7, len := 4 }]

/-- The larger chunks come second: the first manifest stays. -/
theorem manifest_found_two_then_one :
    (([.put twoChunks, .put oneChunk] : List ManifestAct).foldl (exec 1) {}).store.manifestFor 5 =
      some twoChunks := by
  have hs : (runs 1).Reach {} (([.put twoChunks, .put oneChunk] : List ManifestAct).foldl (exec 1) {}) :=
    Lts.Reach.init.of_foldl ⟨trivial, trivial, trivial⟩
  have hfirst : [twoChunks, oneChunk].find? (fun m => m.contentHash = 5) = some twoChunks := rfl
  obtain ⟨hiff, hone⟩ := manifestFor_iff 1 hs hfirst
  obtain ⟨m, -, -, hm⟩ := hiff.2 (by decide)
  rw [hm, hone m hm]

/-- **A manifest is lost.**  Content 5 is put as one chunk, and then as two. -/
theorem manifest_lost_one_then_two :
    ∃ s, (runs 1).Reach {} s ∧ s.puts = [oneChunk, twoChunks] ∧ s.store.manifestFor 5 = none := by
  refine ⟨([.put oneChunk, .put twoChunks] : List ManifestAct).foldl (exec 1) {},
    Lts.Reach.init.of_foldl ⟨trivial, trivial, trivial⟩, rfl, by decide⟩

end Example

end ManifestLog

end Replicore
