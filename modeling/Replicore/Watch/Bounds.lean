import Replicore.Watch.Fanotify

/-!
# The watcher stays within what was read

Whatever bytes a `read` leaves in the buffer, and whatever the kernel answers to the calls made on
the way, the event loops and what they call end without a fault, and look at nothing behind the
bytes that were read (`fanotify_total`).

* In FID mode every length is checked against the end of what holds it, so a record is within its
  event and an event within the bytes read; `parseEvent` and `resolveDfidName` only cut further.
* In legacy mode the end of an event is not checked.  The offset may leave the bytes read, but then
  the difference that the loop begins with, a signed one, is below the size of an event.

Alignment is no part of the model: legacy mode refers to an event in place.
-/

namespace Replicore

open Bytes Hoare Slices
open Ingest (LocalEvent)

namespace Watch

/-- What a `read` has put into a buffer: the first `n` bytes of it.  A buffer lies in the lower half
of a 64-bit address space. -/
structure Filled where
  buf : List Byte
  n : ℕ
  n_le : n ≤ buf.length
  length_lt : buf.length < 2 ^ 47

variable {σ α : Type} {k : Kernel σ} {n : ℕ} {buf : List Byte}

/-- What has been touched is among the first `n` bytes, and every handle passed to the kernel lies
within its record. -/
structure InBounds (n : ℕ) (s : Traced (Env σ)) : Prop where
  touched : ∀ t ∈ s.touched, t.stop ≤ n
  handles : ∀ h ∈ s.world.handles, h.1.Within h.2 ∧ h.2.stop ≤ n

theorem InBounds.touch {t : Span} (ht : t.stop ≤ n) (s : Traced (Env σ)) (h : InBounds n s) :
    InBounds n { s with touched := s.touched ++ [t] } where
  touched t' ht' := by
    rcases List.mem_append.1 ht' with ht' | ht'
    · exact h.touched t' ht'
    · rw [List.mem_singleton.1 ht']
      exact ht
  handles := h.handles

/-- The program ends without a fault and stays within the first `n` bytes. -/
abbrev StaysIn (n : ℕ) (m : WatchM σ α) : Prop := Total (InBounds n) m fun _ => True

theorem staysIn_call (f : σ → α × σ) : StaysIn n (call f) :=
  Total.perform fun _ h => ⟨h.touched, h.handles⟩

/-! ### Info records -/

/-- The kernel finds in a record the length that was read from it. -/
theorem take_bytes (buf : List Byte) (pos : ℕ) {a b : ℕ} (h : a ≤ b) :
    (Span.bytes buf ⟨pos, b⟩).take a = Span.bytes buf ⟨pos, a⟩ := by
  rw [Span.bytes, Span.bytes, List.take_take, Nat.min_eq_left h]

theorem staysIn_openByHandleAt {record : Span} (hrecord : record.stop ≤ n)
    (hhandle : fidSz + fhFixed + leValue (Span.bytes buf ⟨record.start + fidSz, 4⟩) ≤ record.len) :
    StaysIn n (openByHandleAt k buf record) := by
  unfold Span.stop at hrecord
  have hin : ∀ len, fidSz + len ≤ record.len → (⟨record.start + fidSz, len⟩ : Span).stop ≤ n := by
    intro len hlen
    change record.start + fidSz + len ≤ n
    omega
  unfold openByHandleAt
  refine Total.bind (Total.load (InBounds.touch (hin fhFixed (by omega)))) fun head hhead => ?_
  have hword : head.take 4 = Span.bytes buf ⟨record.start + fidSz, 4⟩ := by
    rw [hhead]
    exact take_bytes buf _ (by decide)
  rw [hword]
  refine Total.bind (Total.load (InBounds.touch (hin _ (by omega)))) fun handle _ => ?_
  refine Total.perform fun s hs => ⟨hs.touched, fun h hh => ?_⟩
  rcases List.mem_append.1 hh with hh | hh
  · exact hs.handles h hh
  · rw [List.mem_singleton.1 hh]
    refine ⟨⟨Nat.le_add_right _ _, ?_⟩, hrecord⟩
    simp only [Span.stop]
    omega

theorem staysIn_resolveHandle {record name : Span} (hrecord : record.stop ≤ n)
    (hhandle : fidSz + fhFixed + leValue (Span.bytes buf ⟨record.start + fidSz, 4⟩) ≤ record.len) :
    StaysIn n (resolveHandle k buf record name) := by
  unfold resolveHandle
  refine Total.bind (staysIn_openByHandleAt hrecord hhandle) fun dirfd _ => ?_
  refine Total.ite (fun _ => Total.pure trivial) fun _ => ?_
  refine Total.bind (staysIn_call _) fun dir _ => Total.bind (staysIn_call _) fun _ _ => ?_
  cases dir with
  | none => exact Total.pure trivial
  | some dir => exact Total.ite (fun _ => Total.pure trivial) fun _ => Total.pure trivial

/-- **A record is resolved within its bounds**, whatever it holds. -/
theorem staysIn_resolveDfidName {record : Span} (hrecord : record.stop ≤ n) :
    StaysIn n (resolveDfidName k buf record) := by
  have hstop : record.start + record.len ≤ n := hrecord
  have hfidSz : fidSz = 12 := rfl
  have hfhFixed : fhFixed = 8 := rfl
  unfold resolveDfidName
  rw [addUsize_of_lt (by decide), pure_bind]
  refine Total.ite (fun _ => Total.pure trivial) fun hshort => ?_
  rw [Nat.not_lt] at hshort
  have hfid : fidSz + 4 ≤ record.len := le_trans (by decide) hshort
  have hword : (⟨record.start + fidSz, fidSz + 4 - fidSz⟩ : Span).stop ≤ n := by
    simp only [Span.stop]
    omega
  refine Total.bind (Total.slice (Nat.le_add_right _ _) hfid (InBounds.touch hword))
    fun word hw => ?_
  rw [hw, show fidSz + 4 - fidSz = 4 from rfl]
  -- the length in the record is one of 32 bits
  have hlen : leValue (Span.bytes buf ⟨record.start + fidSz, 4⟩) < 256 ^ 4 :=
    (leValue_lt _).trans_le (Nat.pow_le_pow_right (by decide) (Span.length_bytes_le buf _))
  rw [addUsize_of_lt (by omega), pure_bind]
  refine Total.ite (fun _ => Total.pure trivial) fun hname => ?_
  rw [Nat.not_le] at hname
  have hrest : (⟨record.start + (fidSz + fhFixed + leValue (Span.bytes buf
      ⟨record.start + fidSz, 4⟩)), record.len - (fidSz + fhFixed + leValue (Span.bytes buf
      ⟨record.start + fidSz, 4⟩))⟩ : Span).stop ≤ n := by
    simp only [Span.stop]
    omega
  refine Total.bind (Total.slice hname.le le_rfl (InBounds.touch hrest)) fun nameBytes hb => ?_
  cases hnul : (nameBytes.bytes buf).findIdx? (· = 0) with
  | none => exact Total.pure trivial
  | some nameEnd =>
    have hend : nameEnd ≤ nameBytes.len := by
      have hlt := (List.findIdx?_eq_some_iff_getElem.1 hnul).1
      exact hlt.le.trans (Span.length_bytes_le buf nameBytes)
    have hnameStop : (⟨nameBytes.start + 0, nameEnd - 0⟩ : Span).stop ≤ n := by
      rw [hb] at hend ⊢
      simp only [Span.stop] at hend ⊢
      omega
    refine Total.bind (Total.slice (Nat.zero_le _) hend (InBounds.touch hnameStop)) fun name _ => ?_
    exact staysIn_resolveHandle hrecord hname.le

/-- What any of the three kinds of record with a name does. -/
theorem staysIn_record {event : Span} {off stop : ℕ} (hevent : event.stop ≤ n) (hoff : off ≤ stop)
    (hstop : stop ≤ event.len) (f : Option OsPath → EventPaths) :
    StaysIn n (do
      let record ← slice event off stop
      let path ← resolveDfidName k buf record
      pure (f path)) := by
  have hrecord : (⟨event.start + off, stop - off⟩ : Span).stop ≤ n := by
    simp only [Span.stop] at hevent ⊢
    omega
  refine Total.bind (Total.slice hoff hstop (InBounds.touch hrecord)) fun record hr => ?_
  rw [hr]
  exact Total.bind (staysIn_resolveDfidName hrecord) fun _ _ => Total.pure trivial

theorem staysIn_recordPaths {event : Span} {off stop : ℕ} (out : EventPaths) (hdr : InfoHeader)
    (hevent : event.stop ≤ n) (hoff : off ≤ stop) (hstop : stop ≤ event.len) :
    StaysIn n (recordPaths k buf event out hdr off stop) := by
  unfold recordPaths
  refine Total.ite (fun _ => staysIn_record hevent hoff hstop _) fun _ => ?_
  refine Total.ite (fun _ => staysIn_record hevent hoff hstop _) fun _ => ?_
  exact Total.ite (fun _ => staysIn_record hevent hoff hstop _) fun _ => Total.pure trivial

/-- The length of a record is one of 16 bits. -/
theorem infoHeader_len_lt (bs : List Byte) : (InfoHeader.ofBytes bs).len < 2 ^ 16 := by
  refine (leValue_lt _).trans_le (Nat.pow_le_pow_right (by decide) (?_ : _ ≤ 2))
  rw [List.length_take]
  exact Nat.min_le_left _ _

/-- A round of `parse_event` ends the loop, or goes on behind the record. -/
theorem parseRecord_spec {event : Span} (hn : n < 2 ^ 47) (hevent : event.stop ≤ n) {off : ℕ}
    {out : EventPaths} (hoff : off ≤ event.len) :
    Total (InBounds n) (parseRecord k buf event (off, out))
      (Round (fun a => event.len - a.1) (fun a => a.1 ≤ event.len) (fun _ => True) (off, out)) := by
  have hstart : event.start + event.len ≤ n := hevent
  have hhdrSz : hdrSz = 4 := rfl
  unfold parseRecord
  dsimp only
  rw [subUsize_of_le hoff, pure_bind]
  refine Total.ite (fun _ => Total.pure trivial) fun hleft => ?_
  have hhead : (⟨event.start + off, hdrSz⟩ : Span).stop ≤ n := by
    change event.start + off + hdrSz ≤ n
    omega
  refine Total.bind (Total.load (InBounds.touch hhead)) fun bs _ => ?_
  have hlt := infoHeader_len_lt bs
  refine Total.ite (fun _ => Total.pure trivial) fun hlen => ?_
  rw [addUsize_of_lt (by omega), pure_bind]
  refine Total.ite (fun _ => Total.pure trivial) fun hstop => ?_
  rw [Nat.not_lt] at hlen hstop
  refine Total.bind (staysIn_recordPaths out _ hevent (Nat.le_add_right _ _) hstop) fun out' _ => ?_
  refine Total.pure ⟨?_, hstop⟩
  dsimp only
  omega

/-- **An event is parsed within its bounds**, if it is as long as what it begins with. -/
theorem staysIn_parseEvent {event : Span} (hn : n < 2 ^ 47) (hevent : event.stop ≤ n)
    (hmeta : metaSz ≤ event.len) : StaysIn n (parseEvent k buf event metaSz) := by
  unfold parseEvent
  refine Total.iterate (I := fun a => a.1 ≤ event.len) (fun a => event.len - a.1) ?_ hmeta
    (by dsimp only; omega)
  rintro ⟨off, out⟩ hoff
  exact parseRecord_spec hn hevent hoff

/-! ### The event loops -/

theorem staysIn_sendAll (events : List (LocalEvent OsPath)) : StaysIn n (sendAll k events) := by
  induction events with
  | nil => exact Total.pure trivial
  | cons event events ih =>
    exact Total.bind (staysIn_call _) fun sent _ => Total.ite (fun _ => ih) fun _ =>
      Total.pure trivial

theorem staysIn_notifyOverflow (mask : ℕ) : StaysIn n (notifyOverflow k mask) :=
  Total.ite (fun _ => staysIn_call _) fun _ => Total.pure trivial

/-- The length of an event is one of 32 bits. -/
theorem eventMetadata_eventLen_lt (bs : List Byte) :
    (EventMetadata.ofBytes bs).eventLen < 2 ^ 32 := by
  refine (leValue_lt _).trans_le (Nat.pow_le_pow_right (by decide) (?_ : _ ≤ 4))
  rw [List.length_take]
  exact Nat.min_le_left _ _

/-- A round of `Fid::run` ends the loop, or goes on behind the event. -/
theorem runRound_spec (share : OsPath) (hn : n < 2 ^ 47) (hbuf : n ≤ buf.length) {off : ℕ}
    (hoff : off ≤ n) :
    Total (InBounds n) (runRound k buf share n off)
      (Round (fun off => n - off) (fun off => off ≤ n) (fun _ => True) off) := by
  have hmetaSz : metaSz = 24 := rfl
  unfold runRound
  rw [subUsize_of_le hoff, pure_bind]
  refine Total.ite (fun _ => Total.pure trivial) fun hleft => ?_
  have hmeta : (⟨off, metaSz⟩ : Span).stop ≤ n := by
    change off + metaSz ≤ n
    omega
  refine Total.bind (Total.load (InBounds.touch hmeta)) fun bs _ => ?_
  have hlt := eventMetadata_eventLen_lt bs
  refine Total.ite (fun _ => Total.pure trivial) fun hlen => ?_
  rw [addUsize_of_lt (by omega), pure_bind]
  refine Total.ite (fun _ => Total.pure trivial) fun hstop => ?_
  rw [Nat.not_lt] at hlen hstop
  have hevent : (⟨0 + off, off + (EventMetadata.ofBytes bs).eventLen - off⟩ : Span).stop ≤ n := by
    simp only [Span.stop]
    omega
  refine Total.bind (staysIn_notifyOverflow _) fun _ _ => ?_
  refine Total.bind (Total.slice (Nat.le_add_right _ _) (hstop.trans hbuf)
    (InBounds.touch hevent)) fun event he => ?_
  rw [he]
  refine Total.bind (staysIn_parseEvent hn hevent (by dsimp only; omega)) fun ev _ => ?_
  refine Total.bind (staysIn_sendAll _) fun sent _ => ?_
  refine Total.ite (fun _ => Total.pure ⟨?_, hstop⟩) fun _ => Total.pure trivial
  dsimp only
  omega

theorem staysIn_runLoop (share : OsPath) (hn : n < 2 ^ 47) (hbuf : n ≤ buf.length) :
    StaysIn n (runLoop k buf share n) := by
  unfold runLoop
  refine Total.iterate (I := fun off => off ≤ n) (fun off => n - off) ?_ (Nat.zero_le n) (by omega)
  exact fun off hoff => runRound_spec share hn hbuf hoff

theorem staysIn_reportFd (share : OsPath) (fan fd : ℤ) : StaysIn n (reportFd k share fan fd) := by
  have hclose : StaysIn n (do
      call (k.close fd)
      pure true) := Total.bind (staysIn_call _) fun _ _ => Total.pure trivial
  unfold reportFd
  refine Total.ite (fun _ => ?_) fun _ => Total.pure trivial
  refine Total.bind (staysIn_call _) fun path _ => ?_
  cases path with
  | none => exact hclose
  | some path =>
    refine Total.ite (fun _ => ?_) fun _ => hclose
    refine Total.bind (staysIn_call _) fun sent _ => Total.ite (fun _ => hclose) fun _ => ?_
    exact Total.bind (staysIn_call _) fun _ _ => Total.bind (staysIn_call _) fun _ _ =>
      Total.pure trivial

/-- Where the legacy loop can be: behind the bytes that were read by less than an event. -/
def LegacyOffset (n : ℕ) (off : ℤ) : Prop := 0 ≤ off ∧ off ≤ n + 2 ^ 32

/-- A round of `run_legacy` ends the loop, or goes on behind the event, which may be behind the
bytes that were read; it looks at the buffer only if an event fits. -/
theorem legacyRound_spec (share : OsPath) (fan : ℤ) (hn : n < 2 ^ 47) {off : ℤ}
    (hoff : LegacyOffset n off) :
    Total (InBounds n) (legacyRound k buf share fan n off)
      (Round (fun off : ℤ => (n - off).toNat) (LegacyOffset n) (fun _ => True) off) := by
  have hmetaSz : metaSz = 24 := rfl
  obtain ⟨hpos, hle⟩ := hoff
  unfold legacyRound
  rw [subIsize_of_fits (by omega) (by omega), pure_bind]
  refine Total.ite (fun _ => Total.pure trivial) fun hleft => ?_
  have hmeta : (⟨off.toNat, metaSz⟩ : Span).stop ≤ n := by
    change off.toNat + metaSz ≤ n
    omega
  refine Total.bind (Total.loadAt hpos (InBounds.touch hmeta)) fun bs _ => ?_
  have hlt := eventMetadata_eventLen_lt bs
  refine Total.ite (fun _ => Total.pure trivial) fun hlen => ?_
  refine Total.bind (staysIn_notifyOverflow _) fun _ _ => ?_
  refine Total.bind (staysIn_reportFd share fan _) fun more _ => ?_
  refine Total.ite (fun _ => ?_) fun _ => Total.pure trivial
  rw [addIsize_of_fits (by omega) (by omega), pure_bind]
  have hless : ((n : ℤ) - (off + (EventMetadata.ofBytes bs).eventLen)).toNat <
      ((n : ℤ) - off).toNat := by omega
  have hnext : LegacyOffset n (off + (EventMetadata.ofBytes bs).eventLen) := by
    constructor
    · omega
    · omega
  exact Total.pure ⟨hless, hnext⟩

theorem staysIn_legacyLoop (share : OsPath) (fan : ℤ) (hn : n < 2 ^ 47) :
    StaysIn n (legacyLoop k buf share fan n) := by
  unfold legacyLoop
  have hstart : LegacyOffset n 0 := ⟨le_rfl, by omega⟩
  refine Total.iterate (I := LegacyOffset n) (fun off => (n - off).toNat) ?_ hstart (by omega)
  exact fun off hoff => legacyRound_spec share fan hn hoff

/-- Started where nothing behind the first `n` bytes has been touched, the program ends without a
fault, and still nothing has. -/
def SafeIn (n : ℕ) (m : WatchM σ α) : Prop :=
  ∀ s, InBounds n s → ∃ a s', m s = .ok a s' ∧ InBounds n s'

theorem safeIn_of_staysIn {m : WatchM σ α} (h : StaysIn n m) : SafeIn n m := by
  intro s hs
  obtain ⟨a, s', hrun, -, hs'⟩ := h.run hs
  exact ⟨a, s', hrun, hs'⟩

/-- **The fanotify parsers are total.**  Whatever bytes are in the buffer, however many of them a
`read` has returned, and whatever the kernel and the receiver answer: the event loop of `Fid::run`,
`parse_event` on an event as long as its fixed part, `resolve_dfid_name` on any record, and the
event loop of `run_legacy` all end, without an underflow, an overflow or a slice that leaves its
source; everything they touch is among the bytes that were read; and the file handle that the
kernel is passed a pointer to lies within its record. -/
theorem fanotify_total (k : Kernel σ) (share : OsPath) (fan : ℤ) (filled : Filled) :
    SafeIn filled.n (runLoop k filled.buf share filled.n) ∧
      (∀ event : Span, event.stop ≤ filled.n → metaSz ≤ event.len →
        SafeIn filled.n (parseEvent k filled.buf event metaSz)) ∧
      (∀ record : Span, record.stop ≤ filled.n →
        SafeIn filled.n (resolveDfidName k filled.buf record)) ∧
      SafeIn filled.n (legacyLoop k filled.buf share fan filled.n) := by
  have hn : filled.n < 2 ^ 47 := filled.n_le.trans_lt filled.length_lt
  refine ⟨?_, ?_, ?_, ?_⟩
  · exact safeIn_of_staysIn (staysIn_runLoop share hn filled.n_le)
  · intro event hevent hmeta
    exact safeIn_of_staysIn (staysIn_parseEvent hn hevent hmeta)
  · intro record hrecord
    exact safeIn_of_staysIn (staysIn_resolveDfidName hrecord)
  · exact safeIn_of_staysIn (staysIn_legacyLoop share fan hn)

section Example

/-- A kernel that resolves every handle to the directory `/s`. -/
def resolving : Kernel Unit where
  openByHandleAt _ w := (3, w)
  readLink _ w := (some [47, 115], w)
  close _ w := ((), w)
  blockingSend _ w := (true, w)
  notifyOne w := ((), w)

/-- The creation of a file `a`: an event of 48 bytes, of which the record takes the last 24. -/
def created : List Byte :=
  leBytes 4 48 ++ leBytes 4 3 ++ leBytes 8 fanCreate ++ leBytes 8 0xFFFFFFFF ++
    [2, 0] ++ leBytes 2 24 ++ leBytes 8 7 ++ leBytes 4 2 ++ leBytes 4 1 ++ [9, 9] ++ [97, 0]

example : (match parseEvent resolving created ⟨0, 48⟩ metaSz ⟨⟨(), []⟩, []⟩ with
    | .ok ev s => some (ev.path, s.world.handles)
    | .error _ _ => none) = some (some [47, 115, 47, 97], [(⟨36, 10⟩, ⟨24, 24⟩)]) := by
  decide +kernel

/-- A `read` that has returned this event, in a larger buffer. -/
def createdRead : Filled where
  buf := created ++ List.replicate 16 255
  n := 48
  n_le := by decide
  length_lt := by decide

theorem fanotify_total_createdRead :
    ∃ s', runLoop resolving createdRead.buf [47, 115] createdRead.n ⟨⟨(), []⟩, []⟩ = .ok true s' ∧
      ∀ t ∈ s'.touched, t.stop ≤ 48 := by
  have hstart : InBounds createdRead.n (⟨⟨(), []⟩, []⟩ : Traced (Env Unit)) :=
    ⟨fun _ ht => absurd ht List.not_mem_nil, fun _ hh => absurd hh List.not_mem_nil⟩
  obtain ⟨sent, s', hrun, hin⟩ := (fanotify_total resolving [47, 115] 3 createdRead).1 _ hstart
  have hsent : (runLoop resolving createdRead.buf [47, 115] createdRead.n).run' ⟨⟨(), []⟩, []⟩ =
      some true := by decide +kernel
  delta EStateM.run' EStateM.run at hsent
  rw [hrun] at hsent
  obtain rfl : sent = true := Option.some.inj hsent
  exact ⟨s', hrun, hin.touched⟩

end Example

end Watch

end Replicore
