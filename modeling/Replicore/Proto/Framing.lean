import Replicore.Lib.Bytes

/-!
# Frames

A message is sent as one frame: the length of its encoding as four big-endian bytes, then the
encoding (`proto.rs`).  `readMsg` takes the next frame from what a stream still delivers.

A stream that ends anywhere in a frame has lost a message, and only one that ends between two frames
has been closed.  `readMsg` tells the two apart by the length header, and takes a header of which
only a part has arrived for a stream that was closed: `readMsgs_cut_iff`.
-/

namespace Replicore

open Bytes

/-- Hard cap for one frame. -/
def maxFrame : ℕ := 2 ^ 20

/-- Bytes of the variable-length encoding of an integer. -/
def varintLen (n : ℕ) : ℕ :=
  if n < 251 then 1 else if n < 2 ^ 16 then 3 else if n < 2 ^ 32 then 5 else 9

/-- What sending or receiving a message can fail with. -/
inductive ProtoError
  | io
  | tooLarge (len : ℕ)
  | encode
  | decode
  | closed
  deriving DecidableEq, Repr

variable {T : Type*}

/-- An encoding of messages, which fails on those beyond its limit. -/
structure Codec (T : Type*) where
  serialize : T → Option (List Byte)
  deserialize : List Byte → Option T

/-- Decoding an encoding gives the message back. -/
def Codec.RoundTrips (c : Codec T) : Prop :=
  ∀ msg body, c.serialize msg = some body → c.deserialize body = some msg

/-- What a stream still delivers: the bytes, and whether an error of the connection follows them
instead of the end. -/
structure Incoming where
  bytes : List Byte
  breaks : Bool := false
  deriving DecidableEq

/-- How a read ends that wants more bytes than there are. -/
inductive ReadError
  | unexpectedEof
  | connection
  deriving DecidableEq

/-- Read exactly `n` bytes. -/
def Incoming.readExact (s : Incoming) (n : ℕ) : Except ReadError (List Byte) × Incoming :=
  if n ≤ s.bytes.length then (.ok (s.bytes.take n), { s with bytes := s.bytes.drop n })
  else (.error (if s.breaks then .connection else .unexpectedEof), { s with bytes := [] })

/-- The frame of a message. -/
def writeMsg (c : Codec T) (msg : T) : Except ProtoError (List Byte) :=
  match c.serialize msg with
  | none => .error .encode
  | some body =>
    if maxFrame < body.length then .error (.tooLarge body.length)
    else .ok (beBytes 4 (body.length % 2 ^ 32) ++ body)

/-- The frames of messages sent one after the other. -/
def writeMsgs (c : Codec T) : List T → Except ProtoError (List (List Byte))
  | [] => .ok []
  | msg :: msgs =>
    match writeMsg c msg with
    | .error e => .error e
    | .ok frame =>
      match writeMsgs c msgs with
      | .error e => .error e
      | .ok frames => .ok (frame :: frames)

/-- Read one frame and decode it. -/
def readMsg (c : Codec T) (s : Incoming) : Except ProtoError T × Incoming :=
  match s.readExact 4 with
  | (.error .unexpectedEof, s) => (.error .closed, s)
  | (.error _, s) => (.error .io, s)
  | (.ok lenBuf, s) =>
    if maxFrame < beValue lenBuf then (.error (.tooLarge (beValue lenBuf)), s)
    else match s.readExact (beValue lenBuf) with
      | (.error _, s) => (.error .io, s)
      | (.ok body, s) =>
        match c.deserialize body with
        | some msg => (.ok msg, s)
        | none => (.error .decode, s)

/-- A read that succeeds leaves as many bytes fewer. -/
theorem Incoming.readExact_ok {s s' : Incoming} {n : ℕ} {bs : List Byte}
    (h : s.readExact n = (.ok bs, s')) : s'.bytes.length + n = s.bytes.length := by
  by_cases hn : n ≤ s.bytes.length
  · rw [readExact, if_pos hn] at h
    cases h
    rw [List.length_drop]
    omega
  · rw [readExact, if_neg hn] at h
    cases h

/-- A message takes at least its header from the stream. -/
theorem readMsg_ok_length {c : Codec T} {s s' : Incoming} {msg : T}
    (h : readMsg c s = (.ok msg, s')) : s'.bytes.length < s.bytes.length := by
  unfold readMsg at h
  split at h
  · cases h
  · cases h
  · rename_i hhead
    have := Incoming.readExact_ok hhead
    split at h
    · cases h
    · split at h
      · cases h
      · rename_i hbody
        have := Incoming.readExact_ok hbody
        split at h
        · cases h
          omega
        · cases h

/-- Read messages until one cannot be read: the messages, and why the last read failed. -/
def readMsgs (c : Codec T) (s : Incoming) : List T × ProtoError :=
  match _h : readMsg c s with
  | (.ok msg, s') => ((msg :: (readMsgs c s').1), (readMsgs c s').2)
  | (.error e, _) => ([], e)
termination_by s.bytes.length
decreasing_by all_goals exact readMsg_ok_length _h

/-! ### Whole frames and cut ones -/

/-- How many of the frames a prefix of `k` bytes contains wholly, and how many bytes of the next one
follow them. -/
def cutAt : List (List Byte) → ℕ → ℕ × ℕ
  | [], _ => (0, 0)
  | f :: fs, k =>
    if f.length ≤ k then ((cutAt fs (k - f.length)).1 + 1, (cutAt fs (k - f.length)).2) else (0, k)

variable {c : Codec T}

/-- What a frame looks like. -/
theorem writeMsg_ok {msg : T} {frame : List Byte} (h : writeMsg c msg = .ok frame) :
    ∃ body, c.serialize msg = some body ∧ body.length ≤ maxFrame ∧
      frame = beBytes 4 body.length ++ body := by
  unfold writeMsg at h
  split at h
  · cases h
  · rename_i body hbody
    split_ifs at h with hlen
    cases h
    have hfits : body.length < 2 ^ 32 := by
      simp only [maxFrame] at hlen
      omega
    exact ⟨body, hbody, Nat.not_lt.1 hlen, by rw [Nat.mod_eq_of_lt hfits]⟩

/-- A whole frame is read, and nothing of what follows it. -/
theorem readMsg_frame (hc : c.RoundTrips) {msg : T} {frame : List Byte}
    (h : writeMsg c msg = .ok frame) (rest : List Byte) :
    readMsg c ⟨frame ++ rest, false⟩ = (.ok msg, ⟨rest, false⟩) := by
  obtain ⟨body, hbody, hlen, rfl⟩ := writeMsg_ok h
  have hvalue : beValue (beBytes 4 body.length) = body.length :=
    beValue_beBytes (by simp only [maxFrame] at hlen; omega)
  have hhead : Incoming.readExact ⟨beBytes 4 body.length ++ body ++ rest, false⟩ 4 =
      (.ok (beBytes 4 body.length), ⟨body ++ rest, false⟩) := by
    simp [Incoming.readExact, List.append_assoc]
  have htail : Incoming.readExact ⟨body ++ rest, false⟩ body.length =
      (.ok body, ⟨rest, false⟩) := by
    simp [Incoming.readExact]
  simp only [readMsg, hhead, hvalue, if_neg (Nat.not_lt.2 hlen), htail, hc msg body hbody]

/-- A part of a frame: it is taken for the end of the stream if it ends in the header, and is an
error of the connection if it ends in the body. -/
theorem readMsg_cut {msg : T} {frame : List Byte} (h : writeMsg c msg = .ok frame) {k : ℕ}
    (hk : k < frame.length) :
    (readMsg c ⟨frame.take k, false⟩).1 = .error (if k < 4 then .closed else .io) := by
  obtain ⟨body, hbody, hlen, rfl⟩ := writeMsg_ok h
  rw [List.length_append, length_beBytes] at hk
  have hvalue : beValue (beBytes 4 body.length) = body.length :=
    beValue_beBytes (by simp only [maxFrame] at hlen; omega)
  by_cases hhead : k < 4
  · have hshort : ¬ 4 ≤ ((beBytes 4 body.length ++ body).take k).length := by
      rw [List.length_take]
      omega
    have heof : Incoming.readExact ⟨(beBytes 4 body.length ++ body).take k, false⟩ 4 =
        (.error .unexpectedEof, ⟨[], false⟩) := by
      simp only [Incoming.readExact, if_neg hshort]
      rfl
    simp only [readMsg, heof, if_pos hhead]
  · have hsplit : (beBytes 4 body.length ++ body).take k =
        beBytes 4 body.length ++ body.take (k - 4) := by
      rw [List.take_append, List.take_of_length_le (by rw [length_beBytes]; omega),
        length_beBytes]
    have hread : Incoming.readExact ⟨(beBytes 4 body.length ++ body).take k, false⟩ 4 =
        (.ok (beBytes 4 body.length), ⟨body.take (k - 4), false⟩) := by
      simp [hsplit, Incoming.readExact]
    have hshort : ¬ body.length ≤ (body.take (k - 4)).length := by
      rw [List.length_take]
      omega
    have heof : Incoming.readExact ⟨body.take (k - 4), false⟩ body.length =
        (.error .unexpectedEof, ⟨[], false⟩) := by
      simp only [Incoming.readExact, if_neg hshort]
      rfl
    simp only [readMsg, hread, hvalue, if_neg (Nat.not_lt.2 hlen), heof, if_neg hhead]

/-- The encoding of the message fits into a frame. -/
def Codec.Fits (c : Codec T) (msg : T) : Prop :=
  ∃ body, c.serialize msg = some body ∧ body.length ≤ maxFrame

theorem writeMsgs_ok {msgs : List T} (h : ∀ msg ∈ msgs, c.Fits msg) :
    ∃ frames, writeMsgs c msgs = .ok frames := by
  induction msgs with
  | nil => exact ⟨[], rfl⟩
  | cons msg msgs ih =>
    obtain ⟨body, hbody, hlen⟩ := h msg (List.mem_cons_self ..)
    obtain ⟨frames, hframes⟩ := ih fun m hm => h m (List.mem_cons_of_mem _ hm)
    have hframe : writeMsg c msg = .ok (beBytes 4 (body.length % 2 ^ 32) ++ body) := by
      simp only [writeMsg, hbody, if_neg (Nat.not_lt.2 hlen)]
    exact ⟨(beBytes 4 (body.length % 2 ^ 32) ++ body) :: frames,
      by simp only [writeMsgs, hframe, hframes]⟩

theorem readMsgs_of_ok {s s' : Incoming} {msg : T} (h : readMsg c s = (.ok msg, s')) :
    readMsgs c s = (msg :: (readMsgs c s').1, (readMsgs c s').2) := by
  rw [readMsgs]
  split
  · rename_i h'
    cases h.symm.trans h'
    rfl
  · rename_i h'
    cases h.symm.trans h'

theorem readMsgs_of_error {s : Incoming} {e : ProtoError} (h : (readMsg c s).1 = .error e) :
    readMsgs c s = ([], e) := by
  rw [readMsgs]
  split
  · rename_i h'
    rw [h'] at h
    cases h
  · rename_i h'
    rw [h'] at h
    cases h
    rfl

/-- What repeated reads make of a cut-off stream. -/
theorem readMsgs_cut (hc : c.RoundTrips) {msgs : List T} {frames : List (List Byte)}
    (hframes : writeMsgs c msgs = .ok frames) (k : ℕ) :
    readMsgs c ⟨frames.flatten.take k, false⟩ =
      (msgs.take (cutAt frames k).1, if (cutAt frames k).2 < 4 then .closed else .io) := by
  induction msgs generalizing frames k with
  | nil =>
    cases hframes
    have hempty : (readMsg c ⟨[], false⟩).1 = .error .closed := rfl
    rw [List.flatten_nil, List.take_nil, readMsgs_of_error hempty]
    rfl
  | cons msg msgs ih =>
    simp only [writeMsgs] at hframes
    split at hframes
    · cases hframes
    · rename_i frame hframe
      split at hframes
      · cases hframes
      · rename_i rest hrest
        cases hframes
        rw [List.flatten_cons, List.take_append]
        by_cases hwhole : frame.length ≤ k
        · have hread := readMsg_frame hc hframe (rest.flatten.take (k - frame.length))
          rw [List.take_of_length_le hwhole, readMsgs_of_ok hread, ih hrest]
          simp only [cutAt, if_pos hwhole, List.take_succ_cons]
        · have hk : k < frame.length := Nat.not_le.1 hwhole
          have hnone : k - frame.length = 0 := by omega
          rw [hnone, List.take_zero, List.append_nil, readMsgs_of_error (readMsg_cut hframe hk)]
          simp only [cutAt, if_neg hwhole, List.take_zero]

/-- **A cut in a length header passes for a close.**  Of a stream of messages that is cut off
anywhere, repeated reads give the messages it contains wholly, and then `closed` for a cut between
two frames and an error of the connection for one in a frame, exactly if the cut does not leave a
part of a length header; and a header that announces too much is refused with the body unread. -/
theorem readMsgs_cut_iff (hc : c.RoundTrips) (msgs : List T) (hfits : ∀ msg ∈ msgs, c.Fits msg) :
    ∃ frames, writeMsgs c msgs = .ok frames ∧
      (∀ k, readMsgs c ⟨frames.flatten.take k, false⟩ =
          (msgs.take (cutAt frames k).1, if (cutAt frames k).2 = 0 then .closed else .io) ↔
        (cutAt frames k).2 = 0 ∨ 4 ≤ (cutAt frames k).2) ∧
      ∀ header body breaks, header.length = 4 → maxFrame < beValue header →
        readMsg c ⟨header ++ body, breaks⟩ =
          (.error (.tooLarge (beValue header)), ⟨body, breaks⟩) := by
  obtain ⟨frames, hframes⟩ := writeMsgs_ok hfits
  refine ⟨frames, hframes, fun k => ?_, fun header body breaks hheader hlarge => ?_⟩
  · rw [readMsgs_cut hc hframes k]
    simp only [Prod.mk.injEq, true_and]
    split_ifs <;> simp <;> omega
  · have hread : Incoming.readExact ⟨header ++ body, breaks⟩ 4 = (.ok header, ⟨body, breaks⟩) := by
      simp [Incoming.readExact, ← hheader]
    simp only [readMsg, hread, if_pos hlarge]

/-! ### A codec of bytes -/

/-- Single bytes, which are encoded as themselves. -/
def byteCodec : Codec Byte where
  serialize b := some [b]
  deserialize
    | [b] => some b
    | _ => none

theorem byteCodec_roundTrips : byteCodec.RoundTrips := by
  intro msg body h
  cases h
  rfl

/-- Two messages, the second cut in its body. -/
theorem readMsgs_cut_bytes :
    ∃ frames, writeMsgs byteCodec [7, 8] = .ok frames ∧
      readMsgs byteCodec ⟨frames.flatten.take 9, false⟩ = ([7], .io) := by
  obtain ⟨frames, hframes, hcut, -⟩ := readMsgs_cut_iff byteCodec_roundTrips [7, 8]
    (fun msg _ => ⟨[msg], rfl, by simp [maxFrame]⟩)
  cases hframes
  exact ⟨_, rfl, (hcut 9).2 (.inr (by decide))⟩

/-- **A frame of which two header bytes have arrived reads as a closed stream.** -/
theorem readMsgs_cut_header :
    ∃ frames, writeMsgs byteCodec [7] = .ok frames ∧
      ¬ ∀ k, readMsgs byteCodec ⟨frames.flatten.take k, false⟩ =
        (([7] : List Byte).take (cutAt frames k).1,
          if (cutAt frames k).2 = 0 then .closed else .io) := by
  have hframes : writeMsgs byteCodec [7] = .ok [[0, 0, 0, 1, 7]] := rfl
  refine ⟨_, hframes, fun hall => ?_⟩
  have hcut := (readMsgs_cut byteCodec_roundTrips hframes 2).symm.trans (hall 2)
  exact absurd (congrArg Prod.snd hcut) (by decide)

end Replicore
