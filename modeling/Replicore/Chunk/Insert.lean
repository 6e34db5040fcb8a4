import Replicore.Chunk.Assembly

/-!
# Inserting chunks

`put_verified` and `read` of `chunk.rs` call by call.  The bytes of an insert are verified; then
they are written to a temporary of the insert's own, synced, and renamed over the name of the chunk,
and the directory is synced, if it can be.  A read that finds a chunk corrupt removes later what
then stands under its name.

Any number of inserts and reads run at once, also of the same chunk, any call may be refused, files
may be damaged, and at any time the process may be killed or the node may crash.  A crash leaves
under each name what the name had at some time since its directory was synced; bytes that were not
synced may be others, and the temporaries are in any state.  A directory that is synced is itself
there after a crash.

* `CasDisk.inserts_are_crash_safe` : what is under a name is verified bytes unless it was damaged
  later, and once its directory is synced a chunk stays, until a read that has found it corrupt
  removes what is there;
* `CasDisk.kept_of_undamaged` : where nothing is ever damaged, a chunk that was kept stays;
* `CasDisk.insert_completes` : an insert to which nothing is refused is done after eight calls.
-/

namespace Replicore

/-- A chunk file, and whether its bytes are on the disk.  History: whether it was damaged after it
was written. -/
structure ChunkFile where
  bytes : List Byte
  synced : Bool := true
  damaged : Bool := false
  deriving DecidableEq

/-- A temporary, and whether its bytes are on the disk. -/
structure ChunkTemp where
  bytes : List Byte := []
  synced : Bool := false
  deriving DecidableEq

/-- The next call of an insert. -/
inductive PutPc
  | check
  | mkdir
  | create
  | write
  | fsync
  | rename
  | openDir
  | syncDir
  /-- The temporary is removed after an error. -/
  | discard (e : ChunkError)
  | done (result : Except ChunkError Unit)

/-- An insert. -/
structure ChunkPut where
  hash : Hash
  bytes : List Byte
  pc : PutPc := .check

/-- The directory of the chunk store, and the inserts and reads that run. -/
structure CasDisk where
  /-- What the directory shows. -/
  files : OrdMap Hash ChunkFile := .empty
  /-- What the names had before, since their directory was synced. -/
  older : Hash → List (Option ChunkFile) := fun _ => []
  /-- The temporaries, by the number in their names. -/
  temps : OrdMap ℕ ChunkTemp := .empty
  puts : OrdMap ℕ ChunkPut := .empty
  /-- `CAS_STAGE_SEQ`, which starts again with the process. -/
  seq : ℕ := 0
  /-- The chunks that reads have found corrupt, and whose names they are about to remove. -/
  dropping : List Hash := []
  /-- History: the directory was synced with the chunk in it. -/
  kept : Hash → Bool := fun _ => false

namespace CasDisk

/-- What a crash can leave under a name. -/
def Leaves (d : CasDisk) (h : Hash) (x : Option ChunkFile) : Prop :=
  x = d.files.get? h ∨ x ∈ d.older h

/-- What a crash makes of it: bytes that are not on the disk may be lost, or others. -/
inductive Survives : Option ChunkFile → Option ChunkFile → Prop
  | absent : Survives none none
  | file {f : ChunkFile} {bytes : List Byte} (h : f.synced = true → bytes = f.bytes) :
    Survives (some f) (some { f with bytes, synced := true })

/-- The directory of a chunk is named after its first byte. -/
def parent (h : Hash) : List Byte := h.bytes.take 1

/-- The name of a chunk is about to change. -/
def remember (d : CasDisk) (h : Hash) : CasDisk :=
  { d with older := Function.update d.older h (d.files.get? h :: d.older h) }

/-- A file is renamed over the name of a chunk. -/
def setName (d : CasDisk) (h : Hash) (f : ChunkFile) : CasDisk :=
  { d.remember h with files := d.files.insert h f }

/-- The file of a chunk is removed. -/
def eraseName (d : CasDisk) (h : Hash) : CasDisk :=
  { d.remember h with files := d.files.erase h }

/-- The directory of a chunk is synced. -/
def syncParent (d : CasDisk) (h : Hash) : CasDisk :=
  { d with
    older := fun k => if parent k = parent h then [] else d.older k
    kept := fun k => if parent k = parent h then (d.files.get? k).isSome else d.kept k }

def setTemp (d : CasDisk) (i : ℕ) (t : ChunkTemp) : CasDisk :=
  { d with temps := d.temps.insert i t }

def eraseTemp (d : CasDisk) (i : ℕ) : CasDisk := { d with temps := d.temps.erase i }

def goto (d : CasDisk) (i : ℕ) (p : ChunkPut) (pc : PutPc) : CasDisk :=
  { d with puts := d.puts.insert i { p with pc } }

section

variable [Blake3]

/-- The next call of an insert, which may be refused.  Of a write that is refused, some bytes may
have been written. -/
def turn (d : CasDisk) (i : ℕ) (p : ChunkPut) (refusal : Option String) (written : ℕ) : CasDisk :=
  match p.pc with
  | .check =>
    if Blake3.hash p.bytes ≠ p.hash then d.goto i p (.done (.error .hashMismatch))
    else if (d.files.get? p.hash).isSome then d.goto i p (.done (.ok ()))
    else d.goto i p .mkdir
  | .mkdir =>
    match refusal with
    | some ctx => d.goto i p (.done (.error (.io ctx)))
    | none => d.goto i p .create
  | .create =>
    match refusal with
    | some ctx => d.goto i p (.discard (.io ctx))
    | none => (d.setTemp i {}).goto i p .write
  | .write =>
    match refusal with
    | some ctx => (d.setTemp i { bytes := p.bytes.take written }).goto i p (.discard (.io ctx))
    | none => (d.setTemp i { bytes := p.bytes }).goto i p .fsync
  | .fsync =>
    match refusal with
    | some ctx => d.goto i p (.discard (.io ctx))
    | none =>
      match d.temps.get? i with
      | some t => (d.setTemp i { t with synced := true }).goto i p .rename
      | none => d.goto i p .rename
  | .rename =>
    match refusal with
    | some ctx => d.goto i p (.discard (.io ctx))
    | none =>
      match d.temps.get? i with
      | some t =>
        ((d.setName p.hash { bytes := t.bytes, synced := t.synced }).eraseTemp i).goto i p .openDir
      | none => d.goto i p (.discard (.io "rename"))
  | .openDir =>
    match refusal with
    | some _ => d.goto i p (.done (.ok ()))
    | none => d.goto i p .syncDir
  | .syncDir =>
    match refusal with
    | some _ => d.goto i p (.done (.ok ()))
    | none => (d.syncParent p.hash).goto i p (.done (.ok ()))
  | .discard e =>
    match refusal with
    | some _ => d.goto i p (.done (.error e))
    | none => (d.eraseTemp i).goto i p (.done (.error e))
  | .done _ => d

/-- What happens to the chunk store. -/
inductive Event
  /-- `put_verified` is called. -/
  | put (h : Hash) (bytes : List Byte)
  /-- An insert makes its next call. -/
  | turn (i : ℕ) (refusal : Option String) (written : ℕ)
  /-- A read that is not refused: the bytes are read and hashed. -/
  | read (h : Hash)
  /-- A read that has found a chunk corrupt removes the name, if it can. -/
  | drop (h : Hash) (unlinks : Bool)
  /-- The file of that name is damaged. -/
  | rot (h : Hash) (bytes : List Byte)
  /-- The process is killed. -/
  | kill (temps : OrdMap ℕ ChunkTemp)
  /-- The node crashes. -/
  | crash (files : OrdMap Hash ChunkFile) (temps : OrdMap ℕ ChunkTemp)
  /-- `sweep_orphan_temps` leaves these temporaries. -/
  | sweep (temps : OrdMap ℕ ChunkTemp)

/-- A crash leaves what it can leave, and the sweep removes only, before there are inserts. -/
def Allowed (d : CasDisk) : Event → Prop
  | .drop h _ => h ∈ d.dropping
  | .crash files _ => ∀ h, ∃ x, d.Leaves h x ∧ Survives x (files.get? h)
  | .sweep temps => d.puts = .empty ∧ ∀ i t, temps.get? i = some t → d.temps.get? i = some t
  | .put _ _ | .turn _ _ _ | .read _ | .rot _ _ | .kill _ => True

/-- The file of that name is not what the name says. -/
def Corrupt (d : CasDisk) (h : Hash) : Prop :=
  ∃ f, d.files.get? h = some f ∧ Blake3.hash f.bytes ≠ h

instance decidableCorrupt (d : CasDisk) (h : Hash) : Decidable (d.Corrupt h) :=
  match hf : d.files.get? h with
  | some f => decidable_of_iff (Blake3.hash f.bytes ≠ h) (by simp [Corrupt, hf])
  | none => .isFalse (by simp [Corrupt, hf])

def step (d : CasDisk) : Event → CasDisk
  | .put hash bytes =>
    { d with puts := d.puts.insert d.seq { hash, bytes }, seq := d.seq + 1 }
  | .turn i refusal written =>
    match d.puts.get? i with
    | some p => d.turn i p refusal written
    | none => d
  | .read h => if d.Corrupt h then { d with dropping := h :: d.dropping } else d
  | .drop h unlinks =>
    let d := { d with dropping := d.dropping.erase h }
    if unlinks = true ∧ (d.files.get? h).isSome then
      { d.eraseName h with kept := Function.update d.kept h false }
    else d
  | .rot h bytes =>
    match d.files.get? h with
    | some f => { d with files := d.files.insert h { f with bytes, damaged := true } }
    | none => d
  | .kill temps => { files := d.files, older := d.older, temps, kept := d.kept }
  | .crash files temps => { files, temps, kept := d.kept }
  | .sweep temps => { d with temps }

/-- Every history of the chunk store. -/
def system : Lts CasDisk Event := .ofFun Allowed step

variable {d : CasDisk} {i : ℕ} {p : ChunkPut}

/-! ### What a crash can leave -/

/-- Whatever a crash can leave under a name is on the disk, and is the verified chunk or was
damaged; and where the directory was synced with the chunk in it, it leaves one. -/
structure Verified (d : CasDisk) : Prop where
  synced : ∀ h f, d.Leaves h (some f) → f.synced = true
  sound : ∀ h f, d.Leaves h (some f) → f.damaged = false → Blake3.hash f.bytes = h
  kept : ∀ h, d.kept h = true → ¬ d.Leaves h none

omit [Blake3] in
/-- A name that changes can be left as it becomes, or as it was. -/
theorem leaves_of_renamed {e : CasDisk} {h k : Hash} {x y : Option ChunkFile}
    (hfiles : ∀ k, e.files.get? k = if h = k then x else d.files.get? k)
    (holder : e.older = (d.remember h).older) (hy : e.Leaves k y) :
    (k = h ∧ y = x) ∨ d.Leaves k y := by
  rw [Leaves, hfiles, holder] at hy
  simp only [remember] at hy
  by_cases hk : h = k
  · subst hk
    rw [if_pos rfl, Function.update_self] at hy
    exact hy.imp (fun hx => ⟨rfl, hx⟩) fun hmem => List.mem_cons.1 hmem
  · rw [if_neg hk, Function.update_of_ne (Ne.symm hk)] at hy
    exact .inr hy

omit [Blake3] in
theorem leaves_setName {h k : Hash} {f : ChunkFile} {y : Option ChunkFile} :
    (d.setName h f).Leaves k y → (k = h ∧ y = some f) ∨ d.Leaves k y :=
  leaves_of_renamed (fun _ => OrdMap.get?_insert _ _ _ _) rfl

omit [Blake3] in
theorem leaves_eraseName {h k : Hash} {y : Option ChunkFile} :
    (d.eraseName h).Leaves k y → (k = h ∧ y = none) ∨ d.Leaves k y :=
  leaves_of_renamed (fun _ => OrdMap.get?_erase _ _ _) rfl

omit [Blake3] in
/-- A synced directory leaves what it shows. -/
theorem leaves_of_syncParent {h k : Hash} {y : Option ChunkFile}
    (hy : (d.syncParent h).Leaves k y) : d.Leaves k y := by
  obtain hy | hy := hy
  · exact .inl hy
  · simp only [CasDisk.syncParent] at hy
    split_ifs at hy
    · cases hy
    · exact .inr hy

theorem Verified.survives (hd : d.Verified) {h : Hash} {x : Option ChunkFile}
    (hx : d.Leaves h x) : Survives x x := by
  cases x with
  | none => exact .absent
  | some f =>
    have hsynced := hd.synced h f hx
    obtain ⟨bytes, synced, damaged⟩ := f
    subst hsynced
    exact .file fun _ => rfl

/-- What is on the disk survives a crash as it is. -/
theorem Verified.eq_of_survives (hd : d.Verified) {h : Hash} {x y : Option ChunkFile}
    (hx : d.Leaves h x) (hy : Survives x y) : y = x := by
  cases hy with
  | absent => rfl
  | file hbytes =>
    have hsynced := hd.synced h _ hx
    rw [hbytes hsynced, ← hsynced]

/-! ### What an insert has done -/

/-- From its check on, an insert has verified bytes; its temporary has just these. -/
def PutOk (p : ChunkPut) (temp : Option ChunkTemp) : Prop :=
  match p.pc with
  | .check | .discard _ | .done _ => True
  | .mkdir | .create | .write | .openDir | .syncDir => Blake3.hash p.bytes = p.hash
  | .fsync => Blake3.hash p.bytes = p.hash ∧ temp = some { bytes := p.bytes }
  | .rename => Blake3.hash p.bytes = p.hash ∧ temp = some { bytes := p.bytes, synced := true }

/-- The inserts have numbers of their own, and with them temporaries of their own. -/
structure Staged (d : CasDisk) : Prop where
  below : ∀ i p, d.puts.get? i = some p → i < d.seq
  puts : ∀ i p, d.puts.get? i = some p → PutOk p (d.temps.get? i)

theorem Staged.of_no_puts (h : ∀ i, d.puts.get? i = none) : d.Staged where
  below i p hp := by
    rw [h] at hp
    cases hp
  puts i p hp := by
    rw [h] at hp
    cases hp

/-- A call of an insert touches no other one's temporary. -/
theorem Staged.goto (hd : d.Staged) (hp : d.puts.get? i = some p) {e : CasDisk}
    (hputs : e.puts = d.puts) (hseq : e.seq = d.seq)
    (htemps : ∀ j, j ≠ i → e.temps.get? j = d.temps.get? j) {pc : PutPc}
    (hok : PutOk { p with pc } (e.temps.get? i)) : (e.goto i p pc).Staged := by
  have hget : ∀ j, (e.goto i p pc).puts.get? j =
      if i = j then some { p with pc } else d.puts.get? j := fun j => by
    rw [← hputs]
    exact OrdMap.get?_insert _ _ _ _
  refine ⟨fun j q hq => ?_, fun j q hq => ?_⟩
  · rw [hget] at hq
    refine lt_of_lt_of_eq ?_ hseq.symm
    split_ifs at hq with hj
    · exact hj ▸ hd.below i p hp
    · exact hd.below j q hq
  · rw [hget] at hq
    split_ifs at hq with hj
    · subst hj
      rw [← Option.some.inj hq]
      exact hok
    · rw [show (e.goto i p pc).temps.get? j = d.temps.get? j from htemps j (Ne.symm hj)]
      exact hd.puts j q hq

theorem Staged.turn (hd : d.Staged) (hp : d.puts.get? i = some p) (refusal : Option String)
    (written : ℕ) : (d.turn i p refusal written).Staged := by
  have hok := hd.puts i p hp
  have hset : ∀ t j, j ≠ i → (d.setTemp i t).temps.get? j = d.temps.get? j :=
    fun t j hj => OrdMap.get?_insert_of_ne _ _ (Ne.symm hj)
  have herase : ∀ j, j ≠ i → (d.eraseTemp i).temps.get? j = d.temps.get? j :=
    fun j hj => OrdMap.get?_erase_of_ne _ (Ne.symm hj)
  have hself : ∀ t, (d.setTemp i t).temps.get? i = some t :=
    fun t => OrdMap.get?_insert_self _ _ _
  cases hpc : p.pc with
  | check =>
    simp only [CasDisk.turn, hpc]
    split_ifs with hhash
    · exact hd.goto hp rfl rfl (fun _ _ => rfl) trivial
    · exact hd.goto hp rfl rfl (fun _ _ => rfl) trivial
    · exact hd.goto hp rfl rfl (fun _ _ => rfl) (not_not.1 hhash)
  | mkdir =>
    simp only [PutOk, hpc] at hok
    cases refusal <;> simp only [CasDisk.turn, hpc]
    · exact hd.goto hp rfl rfl (fun _ _ => rfl) hok
    · exact hd.goto hp rfl rfl (fun _ _ => rfl) trivial
  | create =>
    simp only [PutOk, hpc] at hok
    cases refusal <;> simp only [CasDisk.turn, hpc]
    · exact hd.goto hp (e := d.setTemp i _) rfl rfl (hset _) hok
    · exact hd.goto hp rfl rfl (fun _ _ => rfl) trivial
  | write =>
    simp only [PutOk, hpc] at hok
    cases refusal <;> simp only [CasDisk.turn, hpc]
    · exact hd.goto hp (e := d.setTemp i _) rfl rfl (hset _) ⟨hok, hself _⟩
    · exact hd.goto hp (e := d.setTemp i _) rfl rfl (hset _) trivial
  | fsync =>
    simp only [PutOk, hpc] at hok
    cases refusal <;> simp only [CasDisk.turn, hpc]
    · rw [hok.2]
      exact hd.goto hp (e := d.setTemp i _) rfl rfl (hset _) ⟨hok.1, hself _⟩
    · exact hd.goto hp rfl rfl (fun _ _ => rfl) trivial
  | rename =>
    simp only [PutOk, hpc] at hok
    cases refusal <;> simp only [CasDisk.turn, hpc]
    · rw [hok.2]
      exact hd.goto hp (e := (d.setName p.hash _).eraseTemp i) rfl rfl herase hok.1
    · exact hd.goto hp rfl rfl (fun _ _ => rfl) trivial
  | openDir =>
    simp only [PutOk, hpc] at hok
    cases refusal <;> simp only [CasDisk.turn, hpc]
    · exact hd.goto hp rfl rfl (fun _ _ => rfl) hok
    · exact hd.goto hp rfl rfl (fun _ _ => rfl) trivial
  | syncDir =>
    cases refusal <;> simp only [CasDisk.turn, hpc]
    · exact hd.goto hp (e := d.syncParent p.hash) rfl rfl (fun _ _ => rfl) trivial
    · exact hd.goto hp rfl rfl (fun _ _ => rfl) trivial
  | discard e =>
    cases refusal <;> simp only [CasDisk.turn, hpc]
    · exact hd.goto hp (e := d.eraseTemp i) rfl rfl herase trivial
    · exact hd.goto hp rfl rfl (fun _ _ => rfl) trivial
  | done result =>
    simp only [CasDisk.turn, hpc]
    exact hd

/-! ### Runs -/

/-- The names change by a rename of verified bytes and by a sync only. -/
theorem turn_cases (hd : d.Staged) (hp : d.puts.get? i = some p) (refusal : Option String)
    (written : ℕ) :
    ((d.turn i p refusal written).files = d.files ∧
      (d.turn i p refusal written).older = d.older ∧
      (d.turn i p refusal written).kept = d.kept) ∨
    (Blake3.hash p.bytes = p.hash ∧ d.turn i p refusal written =
      ((d.setName p.hash { bytes := p.bytes }).eraseTemp i).goto i p .openDir) ∨
    d.turn i p refusal written = (d.syncParent p.hash).goto i p (.done (.ok ())) := by
  have hok := hd.puts i p hp
  cases hpc : p.pc with
  | check =>
    refine .inl ?_
    simp only [turn, hpc]
    split_ifs <;> exact ⟨rfl, rfl, rfl⟩
  | fsync =>
    simp only [PutOk, hpc] at hok
    refine .inl ?_
    cases refusal <;> simp only [turn, hpc, hok.2] <;> exact ⟨rfl, rfl, rfl⟩
  | rename =>
    -- the temporary has the bytes of this insert, whatever the others do
    simp only [PutOk, hpc] at hok
    cases refusal with
    | none => exact .inr (.inl ⟨hok.1, by simp only [turn, hpc, hok.2]⟩)
    | some ctx => exact .inl (by simp only [turn, hpc]; exact ⟨rfl, rfl, rfl⟩)
  | syncDir =>
    cases refusal with
    | none => exact .inr (.inr (by simp only [turn, hpc]))
    | some ctx => exact .inl (by simp only [turn, hpc]; exact ⟨rfl, rfl, rfl⟩)
  | done result => exact .inl (by simp only [turn, hpc, and_self])
  | mkdir | create | write | openDir | discard _ =>
    refine .inl ?_
    cases refusal <;> simp only [turn, hpc] <;> exact ⟨rfl, rfl, rfl⟩

/-- What every run keeps. -/
structure Inv (d : CasDisk) : Prop where
  verified : d.Verified
  staged : d.Staged

omit [Blake3] in
theorem leaves_congr {e : CasDisk} (hfiles : e.files = d.files) (holder : e.older = d.older)
    (h : Hash) (x : Option ChunkFile) : e.Leaves h x ↔ d.Leaves h x := by
  rw [Leaves, Leaves, hfiles, holder]

/-- What a crash can leave under a name after a step, it could leave before, or an insert has
verified it; or the file was damaged, or the name removed. -/
theorem Inv.leaves_step (h : d.Inv) {ev : Event} (hev : d.Allowed ev) {k : Hash}
    {y : Option ChunkFile} (hy : (d.step ev).Leaves k y) :
    d.Leaves k y ∨ (∃ bytes, y = some { bytes } ∧ Blake3.hash bytes = k) ∨
      (∃ f bytes, ev = .rot k bytes ∧ d.files.get? k = some f ∧
        y = some { f with bytes, damaged := true }) ∨
      (y = none ∧ ev = .drop k true) := by
  cases ev with
  | put hash bytes => exact .inl hy
  | turn i refusal written =>
    simp only [CasDisk.step] at hy
    split at hy
    · rename_i p hp
      obtain ⟨hfiles, holder, -⟩ | ⟨hhash, heq⟩ | heq := turn_cases h.staged hp refusal written
      · exact .inl ((leaves_congr hfiles holder k _).1 hy)
      · rw [heq] at hy
        obtain ⟨rfl, rfl⟩ | hold := leaves_setName hy
        · exact .inr (.inl ⟨_, rfl, hhash⟩)
        · exact .inl hold
      · rw [heq] at hy
        exact .inl (leaves_of_syncParent hy)
    · exact .inl hy
  | read k' =>
    simp only [CasDisk.step] at hy
    split_ifs at hy <;> exact .inl hy
  | drop k' unlinks =>
    simp only [CasDisk.step] at hy
    split_ifs at hy with hdrop
    · obtain ⟨rfl, rfl⟩ | hold := leaves_eraseName hy
      · obtain ⟨rfl, -⟩ := hdrop
        exact .inr (.inr (.inr ⟨rfl, rfl⟩))
      · exact .inl hold
    · exact .inl hy
  | rot k' bytes =>
    simp only [CasDisk.step] at hy
    split at hy
    · rename_i f hf
      obtain hy | hy := hy
      · rw [OrdMap.get?_insert] at hy
        split_ifs at hy with hk
        · subst hk
          exact .inr (.inr (.inl ⟨f, bytes, rfl, hf, hy⟩))
        · exact .inl (.inl hy)
      · exact .inl (.inr hy)
    · exact .inl hy
  | kill temps => exact .inl hy
  | crash files temps =>
    -- what is left is on the disk, so it has the bytes that it had before
    obtain rfl | hy := hy
    · obtain ⟨x, hx, hsurvives⟩ := hev k
      exact .inl ((h.verified.eq_of_survives hx hsurvives).symm ▸ hx)
    · cases hy
  | sweep temps => exact .inl hy

/-- A chunk that is kept after a step was kept before, and its name is not removed; or its directory
is synced now, and then nothing else is left than what it shows. -/
theorem Inv.kept_of_step (h : d.Inv) {ev : Event} {k : Hash} (hk : (d.step ev).kept k = true) :
    (d.kept k = true ∧ ev ≠ .drop k true) ∨ ¬ (d.step ev).Leaves k none := by
  cases ev with
  | put hash bytes => exact .inl ⟨hk, nofun⟩
  | turn i refusal written =>
    cases hp : d.puts.get? i with
    | none =>
      simp only [CasDisk.step, hp] at hk
      exact .inl ⟨hk, nofun⟩
    | some p =>
      simp only [CasDisk.step, hp] at hk ⊢
      obtain ⟨-, -, hkept⟩ | ⟨-, heq⟩ | heq := turn_cases h.staged hp refusal written
      · exact .inl ⟨hkept ▸ hk, nofun⟩
      · rw [heq] at hk
        exact .inl ⟨hk, nofun⟩
      · rw [heq] at hk ⊢
        simp only [goto, syncParent] at hk
        split_ifs at hk with hparent
        · refine .inr fun hnone => ?_
          obtain hnone | hnone := hnone
          · rw [show d.files.get? k = none from hnone.symm] at hk
            cases hk
          · simp only [goto, syncParent, if_pos hparent] at hnone
            cases hnone
        · exact .inl ⟨hk, nofun⟩
  | read k' =>
    simp only [CasDisk.step] at hk
    split_ifs at hk <;> exact .inl ⟨hk, nofun⟩
  | drop k' unlinks =>
    simp only [CasDisk.step] at hk
    split_ifs at hk with hdrop
    · dsimp only at hk
      by_cases hkk : k = k'
      · rw [hkk, Function.update_self] at hk
        cases hk
      · rw [Function.update_of_ne hkk] at hk
        exact .inl ⟨hk, fun heq => hkk (Event.drop.inj heq).1.symm⟩
    · refine .inl ⟨hk, fun heq => ?_⟩
      obtain ⟨rfl, rfl⟩ := Event.drop.inj heq
      have hsome : (d.files.get? k').isSome := by
        rw [Option.isSome_iff_ne_none]
        exact fun hnone => h.verified.kept k' hk (.inl hnone.symm)
      exact hdrop ⟨rfl, hsome⟩
  | rot k' bytes =>
    simp only [CasDisk.step] at hk
    split at hk <;> exact .inl ⟨hk, nofun⟩
  | kill temps => exact .inl ⟨hk, nofun⟩
  | crash files temps => exact .inl ⟨hk, nofun⟩
  | sweep temps => exact .inl ⟨hk, nofun⟩

theorem Inv.verified_step (h : d.Inv) {ev : Event} (hev : d.Allowed ev) :
    (d.step ev).Verified where
  synced k f hf := by
    obtain hold | ⟨bytes, hnew, -⟩ | ⟨f₀, bytes, -, hf₀, hrot⟩ | ⟨hnone, -⟩ := h.leaves_step hev hf
    · exact h.verified.synced k f hold
    · rw [Option.some.inj hnew]
    · rw [Option.some.inj hrot]
      exact h.verified.synced k f₀ (.inl hf₀.symm)
    · cases hnone
  sound k f hf hdamaged := by
    obtain hold | ⟨bytes, hnew, hhash⟩ | ⟨f₀, bytes, -, -, hrot⟩ | ⟨hnone, -⟩ :=
      h.leaves_step hev hf
    · exact h.verified.sound k f hold hdamaged
    · rw [Option.some.inj hnew]
      exact hhash
    · rw [Option.some.inj hrot] at hdamaged
      cases hdamaged
    · cases hnone
  kept k hk hnone := by
    obtain ⟨hold, hne⟩ | hsynced := h.kept_of_step hk
    · obtain hleft | ⟨bytes, hnew, -⟩ | ⟨f₀, bytes, -, -, hrot⟩ | ⟨-, hdrop⟩ :=
        h.leaves_step hev hnone
      · exact h.verified.kept k hold hleft
      · cases hnew
      · cases hrot
      · exact hne hdrop
    · exact hsynced hnone

theorem Staged.step (h : d.Staged) {ev : Event} (hev : d.Allowed ev) : (d.step ev).Staged := by
  cases ev with
  | put hash bytes =>
    refine ⟨fun j q hq => ?_, fun j q hq => ?_⟩
    · simp only [CasDisk.step, OrdMap.get?_insert] at hq
      split_ifs at hq with hj
      · exact hj ▸ Nat.lt_succ_self _
      · exact Nat.lt_succ_of_lt (h.below j q hq)
    · simp only [CasDisk.step, OrdMap.get?_insert] at hq
      split_ifs at hq with hj
      · cases hq
        trivial
      · exact h.puts j q hq
  | turn i refusal written =>
    simp only [CasDisk.step]
    split
    · rename_i hp
      exact h.turn hp refusal written
    · exact h
  | read k =>
    simp only [CasDisk.step]
    split_ifs
    · exact ⟨h.below, h.puts⟩
    · exact h
  | drop k unlinks =>
    simp only [CasDisk.step]
    split_ifs <;> exact ⟨h.below, h.puts⟩
  | rot k bytes =>
    simp only [CasDisk.step]
    split
    · exact ⟨h.below, h.puts⟩
    · exact h
  | kill temps => exact .of_no_puts fun _ => rfl
  | crash files temps => exact .of_no_puts fun _ => rfl
  | sweep temps =>
    refine .of_no_puts fun j => ?_
    rw [CasDisk.step, hev.1]
    rfl

theorem Inv.step (h : d.Inv) {ev : Event} (hev : d.Allowed ev) : (d.step ev).Inv :=
  ⟨h.verified_step hev, h.staged.step hev⟩

theorem inv_reach (h : system.Reach {} d) : d.Inv := by
  refine h.invariant ⟨⟨fun k f hf => ?_, fun k f hf => ?_, fun k hk => ?_⟩,
    .of_no_puts fun _ => rfl⟩ fun s ev s' _ hs hstep => ?_
  · obtain hf | hf := hf <;> cases hf
  · obtain hf | hf := hf <;> cases hf
  · cases hk
  · obtain ⟨hev, rfl⟩ := hstep
    exact hs.step hev

/-- A chunk that was kept is kept, unless its name is removed. -/
theorem Inv.kept_step (h : d.Inv) {ev : Event} (hev : d.Allowed ev) {k : Hash}
    (hk : d.kept k = true) :
    (d.step ev).kept k = true ∨ ev = .drop k true ∧ k ∈ d.dropping := by
  cases ev with
  | put hash bytes => exact .inl hk
  | turn i refusal written =>
    refine .inl ?_
    simp only [CasDisk.step]
    split
    · rename_i p hp
      obtain ⟨-, -, hkept⟩ | ⟨-, heq⟩ | heq := turn_cases h.staged hp refusal written
      · rw [hkept]
        exact hk
      · rw [heq]
        exact hk
      · rw [heq]
        simp only [goto, syncParent]
        split_ifs
        · rw [Option.isSome_iff_ne_none]
          exact fun hnone => h.verified.kept k hk (.inl hnone.symm)
        · exact hk
    · exact hk
  | read k' =>
    refine .inl ?_
    simp only [CasDisk.step]
    split_ifs <;> exact hk
  | drop k' unlinks =>
    simp only [CasDisk.step]
    split_ifs with hdrop
    · by_cases hkk : k = k'
      · subst hkk
        obtain ⟨rfl, -⟩ := hdrop
        exact .inr ⟨rfl, hev⟩
      · exact .inl ((Function.update_of_ne hkk _ _).trans hk)
    · exact .inl hk
  | rot k' bytes =>
    refine .inl ?_
    simp only [CasDisk.step]
    split <;> exact hk
  | kill temps => exact .inl hk
  | crash files temps => exact .inl hk
  | sweep temps => exact .inl hk

theorem dropping_turn (refusal : Option String) (written : ℕ) :
    (d.turn i p refusal written).dropping = d.dropping := by
  cases hpc : p.pc with
  | check =>
    simp only [turn, hpc]
    split_ifs <;> rfl
  | fsync | rename =>
    cases refusal with
    | none =>
      simp only [turn, hpc]
      cases d.temps.get? i <;> rfl
    | some ctx =>
      simp only [turn, hpc]
      rfl
  | done result => simp only [turn, hpc]
  | mkdir | create | write | openDir | syncDir | discard _ =>
    cases refusal <;> simp only [turn, hpc] <;> rfl

/-- A name is about to be removed only if a read has found the file under it damaged. -/
theorem Inv.dropping_step (h : d.Inv) {ev : Event} {k : Hash} (hk : k ∈ (d.step ev).dropping) :
    k ∈ d.dropping ∨ ev = .read k ∧
      ∃ f, d.files.get? k = some f ∧ f.damaged = true ∧ Blake3.hash f.bytes ≠ k := by
  cases ev with
  | put hash bytes => exact .inl hk
  | turn i refusal written =>
    simp only [CasDisk.step] at hk
    split at hk
    · rw [dropping_turn] at hk
      exact .inl hk
    · exact .inl hk
  | read k' =>
    simp only [CasDisk.step] at hk
    split_ifs at hk with hcorrupt
    · obtain rfl | hk := List.mem_cons.1 hk
      · obtain ⟨f, hf, hhash⟩ := hcorrupt
        refine .inr ⟨rfl, f, hf, ?_, hhash⟩
        by_contra hdamaged
        exact hhash (h.verified.sound k f (.inl hf.symm) (by simpa using hdamaged))
      · exact .inl hk
    · exact .inl hk
  | drop k' unlinks =>
    simp only [CasDisk.step] at hk
    split_ifs at hk <;> exact .inl (List.mem_of_mem_erase hk)
  | rot k' bytes =>
    simp only [CasDisk.step] at hk
    split at hk <;> exact .inl hk
  | kill temps => cases hk
  | crash files temps => cases hk
  | sweep temps => exact .inl hk

/-- The directory, as the atomic inserts see it. -/
def shown (d : CasDisk) : CasDir := ⟨d.files.mapVals ChunkFile.bytes⟩

/-- **Inserts are crash-safe.**  In every run of inserts, reads, damage, kills, crashes and
restarts: what is under a name are bytes that hash to it, unless they were damaged; a rename brings
in the bytes that its insert was called with, and where nothing was, this is what the insert in one
piece does; a sync of the directory keeps the chunk; and a chunk that is kept is there, after any
kill or crash, until a read that has found the file under its name damaged removes what is there
then. -/
theorem inserts_are_crash_safe (hd : system.Reach {} d) :
    (∀ h f, d.files.get? h = some f → f.damaged = false → Blake3.hash f.bytes = h) ∧
      (∀ i p written, d.puts.get? i = some p → p.pc = .rename →
        (d.step (.turn i none written)).files.get? p.hash = some { bytes := p.bytes } ∧
          (d.files.get? p.hash = none →
            d.shown.putVerified p.hash p.bytes none = .ok (d.step (.turn i none written)).shown)) ∧
      (∀ i p written, d.puts.get? i = some p → p.pc = .syncDir →
        (d.files.get? p.hash).isSome → (d.step (.turn i none written)).kept p.hash = true) ∧
      (∀ h, d.kept h = true → (d.files.get? h).isSome) ∧
      (∀ ev h, d.Allowed ev → d.kept h = true →
        (d.step ev).kept h = true ∨ ev = .drop h true ∧ h ∈ d.dropping) ∧
      ∀ ev h, h ∈ (d.step ev).dropping → h ∈ d.dropping ∨ ev = .read h ∧
        ∃ f, d.files.get? h = some f ∧ f.damaged = true ∧ Blake3.hash f.bytes ≠ h := by
  have hinv := inv_reach hd
  refine ⟨fun h f hf => hinv.verified.sound h f (.inl hf.symm), fun i p written hp hpc => ?_,
    fun i p written hp hpc hsome => ?_, fun h hk => ?_, fun ev h hev hk => hinv.kept_step hev hk,
    fun ev h hk => hinv.dropping_step hk⟩
  · have hok := hinv.staged.puts i p hp
    simp only [PutOk, hpc] at hok
    have hstep : (d.step (.turn i none written)).files =
        d.files.insert p.hash { bytes := p.bytes } := by
      simp only [step, hp, turn, hpc, hok.2]
      rfl
    refine ⟨by rw [hstep, OrdMap.get?_insert_self], fun hnone => ?_⟩
    have hshown : d.shown.files.get? p.hash = none := by
      rw [shown, OrdMap.get?_mapVals, hnone, Option.map_none]
    rw [CasDir.putVerified, if_neg (not_not.2 hok.1), hshown, shown, shown, hstep,
      OrdMap.mapVals_insert]
  · simp only [step, hp, turn, hpc]
    simp [goto, syncParent, hsome]
  · rw [Option.isSome_iff_ne_none]
    exact fun hnone => hinv.verified.kept h hk (.inl hnone.symm)

/-! ### Without damage -/

/-- No file is damaged. -/
def Event.Intact : Event → Prop
  | .rot _ _ => False
  | .put _ _ | .turn _ _ _ | .read _ | .drop _ _ | .kill _ | .crash _ _ | .sweep _ => True

/-- Nothing that a crash can leave was damaged, and no name is about to be removed. -/
structure Undamaged (d : CasDisk) : Prop where
  intact : ∀ h f, d.Leaves h (some f) → f.damaged = false
  dropping : d.dropping = []

theorem Undamaged.step (h : d.Undamaged) (hinv : d.Inv) {ev : Event} (hev : d.Allowed ev)
    (hintact : ev.Intact) : (d.step ev).Undamaged where
  intact k f hf := by
    obtain hold | ⟨bytes, hnew, -⟩ | ⟨f₀, bytes, rfl, -⟩ | ⟨hnone, -⟩ := hinv.leaves_step hev hf
    · exact h.intact k f hold
    · rw [Option.some.inj hnew]
    · exact hintact.elim
    · cases hnone
  dropping := by
    rw [List.eq_nil_iff_forall_not_mem]
    intro k hk
    obtain hold | ⟨-, f, hf, hdamaged, -⟩ := hinv.dropping_step hk
    · rw [h.dropping] at hold
      cases hold
    · rw [h.intact k f (.inl hf.symm)] at hdamaged
      cases hdamaged

/-- Where nothing is ever damaged, a chunk that was kept stays, whatever is inserted and read and
however often the process is killed and the node crashes. -/
theorem kept_of_undamaged {e : CasDisk} {h : Hash}
    (hd : (system.restrict fun _ ev => ev.Intact).Reach {} d) (hk : d.kept h = true)
    (he : (system.restrict fun _ ev => ev.Intact).Reach d e) :
    e.kept h = true ∧ (e.files.get? h).isSome := by
  have hempty : ({} : CasDisk).Undamaged := by
    refine ⟨fun k f hf => ?_, rfl⟩
    obtain hf | hf := hf <;> cases hf
  have hstart : d.Inv ∧ d.Undamaged := by
    refine hd.invariant (I := fun s => s.Inv ∧ s.Undamaged) ⟨inv_reach .init, hempty⟩
      fun s ev s' _ hs hstep => ?_
    obtain ⟨hintact, hev, rfl⟩ := hstep
    exact ⟨hs.1.step hev, hs.2.step hs.1 hev hintact⟩
  have hend : (e.Inv ∧ e.Undamaged) ∧ e.kept h = true := by
    refine he.invariant (I := fun s => (s.Inv ∧ s.Undamaged) ∧ s.kept h = true) ⟨hstart, hk⟩
      fun s ev s' _ hs hstep => ?_
    obtain ⟨hintact, hev, rfl⟩ := hstep
    refine ⟨⟨hs.1.1.step hev, hs.1.2.step hs.1.1 hev hintact⟩, ?_⟩
    obtain hkept | ⟨-, hdrop⟩ := hs.1.1.kept_step hev hs.2
    · exact hkept
    · rw [hs.1.2.dropping] at hdrop
      cases hdrop
  refine ⟨hend.2, ?_⟩
  rw [Option.isSome_iff_ne_none]
  exact fun hnone => hend.1.1.verified.kept h hend.2 (.inl hnone.symm)

/-! ### Inserts end -/

/-- The calls that an insert makes at most, if none is refused. -/
def callsLeft : PutPc → ℕ
  | .check => 8
  | .mkdir => 7
  | .create => 6
  | .write => 5
  | .fsync => 4
  | .rename => 3
  | .openDir => 2
  | .syncDir => 1
  | .discard _ | .done _ => 0

/-- Nothing was refused to the insert so far, and its check passes. -/
def OnWay (p : ChunkPut) : Prop :=
  match p.pc with
  | .check => Blake3.hash p.bytes = p.hash
  | .discard _ => False
  | .done result => result = .ok ()
  | _ => True

/-- Nothing is refused to the insert, its process is not killed, and the node does not crash. -/
def Event.Calm (i : ℕ) : Event → Prop
  | .turn j refusal _ => j = i → refusal = none
  | .kill _ | .crash _ _ => False
  | .put _ _ | .read _ | .drop _ _ | .rot _ _ | .sweep _ => True

/-- The insert makes its next call. -/
def Event.isTurnOf (i : ℕ) : Event → Bool
  | .turn j _ _ => j = i
  | .put _ _ | .read _ | .drop _ _ | .rot _ _ | .kill _ | .crash _ _ | .sweep _ => false

/-- A call that is not refused brings the insert further. -/
theorem turn_onWay (hp : d.puts.get? i = some p) (hway : OnWay p)
    (htemp : PutOk p (d.temps.get? i)) (written : ℕ) :
    ∃ q, (d.turn i p none written).puts.get? i = some q ∧ OnWay q ∧
      callsLeft q.pc ≤ callsLeft p.pc - 1 := by
  have hgoto : ∀ (e : CasDisk) pc, (e.goto i p pc).puts.get? i = some { p with pc } :=
    fun e pc => OrdMap.get?_insert_self _ _ _
  cases hpc : p.pc with
  | check =>
    simp only [OnWay, hpc] at hway
    simp only [turn, hpc, if_neg (not_not.2 hway)]
    split_ifs
    · exact ⟨_, hgoto _ _, rfl, by simp [callsLeft]⟩
    · exact ⟨_, hgoto _ _, trivial, by simp [callsLeft]⟩
  | fsync | rename =>
    simp only [PutOk, hpc] at htemp
    simp only [turn, hpc, htemp.2]
    exact ⟨_, hgoto _ _, trivial, by simp [callsLeft]⟩
  | mkdir | create | write | openDir =>
    simp only [turn, hpc]
    exact ⟨_, hgoto _ _, trivial, by simp [callsLeft]⟩
  | syncDir =>
    simp only [turn, hpc]
    exact ⟨_, hgoto _ _, rfl, by simp [callsLeft]⟩
  | discard e =>
    simp only [OnWay, hpc] at hway
  | done result =>
    simp only [turn, hpc]
    exact ⟨p, hp, hway, by simp [callsLeft, hpc]⟩

omit [Blake3] in
theorem get?_goto_of_ne {e : CasDisk} {j : ℕ} {q : ChunkPut} {pc : PutPc} (hj : j ≠ i) :
    (e.goto j q pc).puts.get? i = e.puts.get? i :=
  OrdMap.get?_insert_of_ne _ _ hj

/-- A call of another insert is none of this one's. -/
theorem turn_of_ne {j : ℕ} {q : ChunkPut} (hj : j ≠ i) (refusal : Option String) (written : ℕ) :
    (d.turn j q refusal written).puts.get? i = d.puts.get? i := by
  cases hpc : q.pc with
  | check =>
    simp only [turn, hpc]
    split_ifs <;> exact get?_goto_of_ne hj
  | fsync | rename =>
    cases refusal with
    | none =>
      simp only [turn, hpc]
      cases d.temps.get? j <;> exact get?_goto_of_ne hj
    | some ctx =>
      simp only [turn, hpc]
      exact get?_goto_of_ne hj
  | done result => simp only [turn, hpc]
  | mkdir | create | write | openDir | syncDir | discard _ =>
    cases refusal <;> simp only [turn, hpc] <;> exact get?_goto_of_ne hj

/-- In whatever order the others go on, each call of the insert brings it further, and nothing
brings it back. -/
theorem Inv.step_onWay (h : d.Inv) (hp : d.puts.get? i = some p) (hway : OnWay p) {ev : Event}
    (hcalm : ev.Calm i) :
    ∃ q, (d.step ev).puts.get? i = some q ∧ OnWay q ∧
      callsLeft q.pc ≤ callsLeft p.pc - (if ev.isTurnOf i then 1 else 0) := by
  have hstays : ∀ {e : CasDisk}, e.puts.get? i = d.puts.get? i →
      ∃ q, e.puts.get? i = some q ∧ OnWay q ∧ callsLeft q.pc ≤ callsLeft p.pc :=
    fun he => ⟨p, he.trans hp, hway, le_rfl⟩
  cases ev with
  | put hash bytes =>
    exact hstays (OrdMap.get?_insert_of_ne _ _ (Nat.ne_of_gt (h.staged.below i p hp)))
  | turn j refusal written =>
    by_cases hj : j = i
    · subst hj
      obtain rfl := hcalm rfl
      simp only [CasDisk.step, hp, Event.isTurnOf, decide_true, if_true]
      exact turn_onWay hp hway (h.staged.puts j p hp) written
    · simp only [CasDisk.step, Event.isTurnOf, hj, decide_false, Bool.false_eq_true, if_false]
      cases hq : d.puts.get? j with
      | none => exact hstays rfl
      | some q => exact hstays (turn_of_ne hj refusal written)
  | read k =>
    refine hstays ?_
    simp only [CasDisk.step]
    split_ifs <;> rfl
  | drop k unlinks =>
    refine hstays ?_
    simp only [CasDisk.step]
    split_ifs <;> rfl
  | rot k bytes =>
    refine hstays ?_
    simp only [CasDisk.step]
    split <;> rfl
  | kill temps => exact hcalm.elim
  | crash files temps => exact hcalm.elim
  | sweep temps => exact hstays rfl

theorem Inv.foldl_onWay {evs : List Event} (h : d.Inv) (hp : d.puts.get? i = some p)
    (hway : OnWay p) (hok : Lts.AllOk Allowed CasDisk.step d evs) (hcalm : ∀ ev ∈ evs, ev.Calm i) :
    ∃ q, (evs.foldl CasDisk.step d).puts.get? i = some q ∧ OnWay q ∧
      callsLeft q.pc ≤ callsLeft p.pc - evs.countP (Event.isTurnOf i) := by
  induction evs generalizing d p with
  | nil => exact ⟨p, hp, hway, le_rfl⟩
  | cons ev evs ih =>
    obtain ⟨q, hq, hqway, hle⟩ := h.step_onWay hp hway (hcalm ev List.mem_cons_self)
    obtain ⟨r, hr, hrway, hrle⟩ := ih (h.step hok.1) hq hqway hok.2
      fun x hx => hcalm x (List.mem_cons_of_mem _ hx)
    refine ⟨r, hr, hrway, ?_⟩
    rw [List.countP_cons]
    omega

/-- **Inserts end.**  An insert of bytes that hash to the claimed name, none of whose calls is
refused, is done after eight calls and has no error, whatever other inserts, reads and damage come
between them, unless the process is killed or the node crashes. -/
theorem insert_completes {evs : List Event} (hd : system.Reach {} d)
    (hp : d.puts.get? i = some p) (hpc : p.pc = .check) (hhash : Blake3.hash p.bytes = p.hash)
    (hok : Lts.AllOk Allowed step d evs) (hcalm : ∀ ev ∈ evs, ev.Calm i)
    (hturns : 8 ≤ evs.countP (Event.isTurnOf i)) :
    ∃ q, (evs.foldl step d).puts.get? i = some q ∧ q.pc = .done (.ok ()) := by
  have hway : OnWay p := by
    rw [OnWay, hpc]
    exact hhash
  obtain ⟨q, hq, hqway, hle⟩ := (inv_reach hd).foldl_onWay hp hway hok hcalm
  have hzero : callsLeft q.pc = 0 := by
    rw [hpc] at hle
    simp only [callsLeft] at hle ⊢
    omega
  refine ⟨q, hq, ?_⟩
  cases hq' : q.pc with
  | discard e =>
    rw [OnWay, hq'] at hqway
    exact hqway.elim
  | done result =>
    rw [OnWay, hq'] at hqway
    rw [show result = .ok () from hqway]
  | check | mkdir | create | write | fsync | rename | openDir | syncDir =>
    rw [hq'] at hzero
    cases hzero

end

end CasDisk

section Example

attribute [local instance] Blake3.polynomial

namespace CasDisk

/-- The hash of three bytes. -/
def threeBytes : Hash := Blake3.hash [1, 2, 3]

/-- Two inserts of one chunk at once; the first syncs the directory, the second's rename is refused,
and then the node crashes. -/
def twoInserts : List Event :=
  [.put threeBytes [1, 2, 3], .put threeBytes [1, 2, 3]] ++
    (List.range 5).map (fun _ => .turn 0 none 0) ++ (List.range 5).map (fun _ => .turn 1 none 0) ++
    (List.range 3).map (fun _ => .turn 0 none 0) ++ [.turn 1 (some "rename") 0]

theorem inserts_are_crash_safe_twoInserts :
    ∃ d : CasDisk, system.Reach {} d ∧ (d.files.get? threeBytes).isSome ∧ d.puts = .empty := by
  have hd : system.Reach {} (twoInserts.foldl step {}) :=
    .of_foldl .init (by simp [twoInserts, Lts.AllOk, Allowed, List.range, List.range.loop])
  have hallowed : Allowed (twoInserts.foldl step {})
      (.crash (twoInserts.foldl step {}).files .empty) := fun h =>
    ⟨_, .inl rfl, (inv_reach hd).verified.survives (.inl rfl)⟩
  have hcrash := hd.next ⟨hallowed, rfl⟩
  exact ⟨_, hcrash, (inserts_are_crash_safe hcrash).2.2.2.1 threeBytes (by decide +kernel), rfl⟩

/-- Two reads find a chunk corrupt.  The first removes it, and it is inserted again; the second has
still to remove it. -/
def twoReads : List Event :=
  [.put threeBytes [1, 2, 3]] ++ (List.range 8).map (fun _ => .turn 0 none 0) ++
    [.rot threeBytes [9], .read threeBytes, .read threeBytes, .drop threeBytes true,
      .put threeBytes [1, 2, 3]] ++ (List.range 8).map (fun _ => .turn 1 none 0)

/-- The second read removes the chunk that was kept. -/
example : let d : CasDisk := twoReads.foldl step {}
    d.kept threeBytes = true ∧ d.files.get? threeBytes = some { bytes := [1, 2, 3] } ∧
      threeBytes ∈ d.dropping ∧ (d.step (.drop threeBytes true)).files.get? threeBytes = none := by
  decide +kernel

/-- The first of the two inserts is done at the end. -/
theorem insert_completes_twoInserts :
    ∃ q, ((twoInserts.drop 1).foldl step ((twoInserts.take 1).foldl step {})).puts.get? 0 =
      some q ∧ q.pc = .done (.ok ()) := by
  have hd : system.Reach {} ((twoInserts.take 1).foldl step {}) :=
    .of_foldl .init (by simp [twoInserts, Lts.AllOk, Allowed])
  have hok : Lts.AllOk Allowed step ((twoInserts.take 1).foldl step {}) (twoInserts.drop 1) := by
    simp [twoInserts, Lts.AllOk, Allowed, List.range, List.range.loop]
  have hcalm : ∀ ev ∈ twoInserts.drop 1, ev.Calm 0 := by
    simp [twoInserts, Event.Calm, List.range, List.range.loop]
  exact insert_completes hd rfl rfl rfl hok hcalm (by decide +kernel)

end CasDisk

end Example

end Replicore
