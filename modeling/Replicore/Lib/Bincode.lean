import Mathlib.Tactic.NormNum
import Replicore.Lib.Bytes

/-!
# Bincode

The encodings of the `bincode` crate, as combinators.  A `Format` is an encoder with
a decoder that takes the encoding off the front of a byte string again, for every value that is
within the ranges of the wire (`Format.Valid`).

* integers take 1, 3, 5 or 9 bytes (`Format.varint`), signed ones through the zigzag map
  (`Format.zigzag`), or as many as their type has (`Format.fixed`);
* byte arrays are themselves (`Format.raw`), sequences stand behind their length (`Format.seq`);
* a record is the pairing of its fields (`Format.pair`), a type read off another one is the image of
  that one's format (`Format.via`).

The length of an encoding is computed by the simp set; `Format.serialize` refuses what is longer
than its limit.
-/

namespace Bincode

open Bytes

/-- An encoding, and a decoder that takes it off the front of a byte string. -/
structure Format (α : Type*) where
  enc : α → List Byte
  dec : List Byte → Option (α × List Byte)
  /-- The value is within the ranges of the wire. -/
  Valid : α → Prop
  dec_enc : ∀ a rest, Valid a → dec (enc a ++ rest) = some (a, rest)

/-- The next `w` bytes. -/
def takeBytes (w : ℕ) (bs : List Byte) : Option (List Byte × List Byte) :=
  if w ≤ bs.length then some (bs.take w, bs.drop w) else none

theorem takeBytes_append {w : ℕ} {bs : List Byte} (h : bs.length = w) (rest : List Byte) :
    takeBytes w (bs ++ rest) = some (bs, rest) := by
  subst h
  simp [takeBytes]

/-- A little-endian integer of `w` bytes. -/
def takeLe (w : ℕ) (bs : List Byte) : Option (ℕ × List Byte) :=
  (takeBytes w bs).map fun x => (leValue x.1, x.2)

theorem takeLe_append {w n : ℕ} (h : n < 256 ^ w) (rest : List Byte) :
    takeLe w (leBytes w n ++ rest) = some (n, rest) := by
  rw [takeLe, takeBytes_append (length_leBytes w n), Option.map_some, leValue_leBytes h]

/-- A signed integer as an unsigned one: the sign is the lowest bit. -/
def zigzagNat (i : ℤ) : ℕ := if 0 ≤ i then (2 * i).toNat else (-2 * i - 1).toNat

/-- The signed integer of an unsigned one. -/
def zigzagInt (n : ℕ) : ℤ := if n % 2 = 0 then n / 2 else -((n / 2 : ℕ) : ℤ) - 1

theorem zigzagInt_zigzagNat (i : ℤ) : zigzagInt (zigzagNat i) = i := by
  unfold zigzagInt zigzagNat
  split_ifs <;> omega

/-- `k` values one after the other. -/
def decMany {α : Type*} (dec : List Byte → Option (α × List Byte)) :
    ℕ → List Byte → Option (List α × List Byte)
  | 0, bs => some ([], bs)
  | k + 1, bs =>
    (dec bs).bind fun x => (decMany dec k x.2).map fun y => (x.1 :: y.1, y.2)

theorem decMany_flatMap {α : Type*} (f : Format α) {as : List α} (h : ∀ a ∈ as, f.Valid a)
    (rest : List Byte) :
    decMany f.dec as.length (as.flatMap f.enc ++ rest) = some (as, rest) := by
  induction as with
  | nil => rfl
  | cons a as ih =>
    have htail := ih fun b hb => h b (List.mem_cons_of_mem a hb)
    rw [List.flatMap_cons, List.append_assoc, List.length_cons, decMany,
      f.dec_enc a _ (h a List.mem_cons_self), Option.bind_some, htail]
    rfl

namespace Format

variable {α β : Type*}

/-! ### Formats -/

/-- An unsigned integer of at most 64 bits. -/
def varint : Format ℕ where
  enc n :=
    if n < 251 then [byte n]
    else if n < 2 ^ 16 then byte 251 :: leBytes 2 n
    else if n < 2 ^ 32 then byte 252 :: leBytes 4 n
    else byte 253 :: leBytes 8 n
  dec
    | [] => none
    | b :: bs =>
      if b.val < 251 then some (b.val, bs)
      else if b.val = 251 then takeLe 2 bs
      else if b.val = 252 then takeLe 4 bs
      else if b.val = 253 then takeLe 8 bs
      else none
  Valid n := n < 2 ^ 64
  dec_enc n rest h := by
    split_ifs with h1 h2 h3
    · have hn : (byte n).val = n := by
        simp only [byte]
        omega
      simp only [List.singleton_append, hn, if_pos h1]
    · exact takeLe_append (w := 2) (h2.trans_eq (by norm_num)) rest
    · exact takeLe_append (w := 4) (h3.trans_eq (by norm_num)) rest
    · exact takeLe_append (w := 8) (h.trans_eq (by norm_num)) rest

/-- Exactly `w` bytes. -/
def raw (w : ℕ) : Format (List Byte) where
  enc bs := bs
  dec := takeBytes w
  Valid bs := bs.length = w
  dec_enc _ rest h := takeBytes_append h rest

/-- The values that `read` reads off those of another format, where `write` puts them. -/
def via (f : Format α) (read : α → Option β) (write : β → α) (h : ∀ b, read (write b) = some b) :
    Format β where
  enc b := f.enc (write b)
  dec bs := (f.dec bs).bind fun x => (read x.1).map fun b => (b, x.2)
  Valid b := f.Valid (write b)
  dec_enc b rest hb := by
    rw [f.dec_enc _ rest hb, Option.bind_some, h b]
    rfl

/-- Two values, one after the other. -/
def pair (f : Format α) (g : Format β) : Format (α × β) where
  enc x := f.enc x.1 ++ g.enc x.2
  dec bs := (f.dec bs).bind fun x => (g.dec x.2).map fun y => ((x.1, y.1), y.2)
  Valid x := f.Valid x.1 ∧ g.Valid x.2
  dec_enc x rest h := by
    rw [List.append_assoc, f.dec_enc _ _ h.1, Option.bind_some, g.dec_enc _ _ h.2]
    rfl

/-- Nothing. -/
def unit : Format Unit where
  enc _ := []
  dec bs := some ((), bs)
  Valid _ := True
  dec_enc _ _ _ := rfl

/-- An optional value: absent is 0, present is 1. -/
def option (f : Format α) : Format (Option α) where
  enc
    | none => [0]
    | some a => 1 :: f.enc a
  dec
    | [] => none
    | b :: bs =>
      if b = 0 then some (none, bs)
      else if b = 1 then (f.dec bs).map fun x => (some x.1, x.2)
      else none
  Valid o := ∀ a, o = some a → f.Valid a
  dec_enc o rest h := by
    cases o with
    | none => rfl
    | some a =>
      change (f.dec (f.enc a ++ rest)).map _ = _
      rw [f.dec_enc a rest (h a rfl)]
      rfl

/-- A sequence behind its length. -/
def seq (f : Format α) : Format (List α) where
  enc as := varint.enc as.length ++ as.flatMap f.enc
  dec bs := (varint.dec bs).bind fun x => decMany f.dec x.1 x.2
  Valid as := as.length < 2 ^ 64 ∧ ∀ a ∈ as, f.Valid a
  dec_enc as rest h := by
    rw [List.append_assoc, varint.dec_enc _ _ h.1, Option.bind_some]
    exact decMany_flatMap f h.2 rest

/-- An unsigned integer below `n`. -/
def fin (n : ℕ) : Format (Fin n) :=
  varint.via (fun k => if h : k < n then some ⟨k, h⟩ else none) Fin.val fun b => dif_pos b.isLt

/-- A signed integer. -/
def zigzag : Format ℤ :=
  varint.via (fun n => some (zigzagInt n)) zigzagNat fun i =>
    congrArg some (zigzagInt_zigzagNat i)

/-- A truth value. -/
def bool : Format Bool :=
  (raw 1).via (fun bs => if bs = [0] then some false else if bs = [1] then some true else none)
    (fun b => [if b then 1 else 0]) fun b => by cases b <;> rfl

/-- Bytes behind their length. -/
def bytes : Format (List Byte) :=
  (seq ((raw 1).via (fun bs => bs.head?) (fun b => [b]) fun _ => rfl))

/-- A text behind the length of its UTF-8 encoding. -/
def text : Format (List Char) :=
  bytes.via utf8Decode utf8 fun _ => utf8Decode_eq_some.2 rfl

/-- A big-endian integer in `w` bytes. -/
def be (w n : ℕ) [NeZero n] (h : n ≤ 256 ^ w) : Format (Fin n) :=
  (raw w).via (fun bs => some (Fin.ofNat n (beValue bs))) (fun b => beBytes w b.val) fun b => by
    rw [beValue_beBytes (b.isLt.trans_le h)]
    exact congrArg some (Fin.ext (Nat.mod_eq_of_lt b.isLt))

/-! ### Fixed widths

The other encoding of the crate: integers are little-endian in their own width, and a sequence
stands behind its length in 8 bytes. -/

/-- A little-endian integer in `w` bytes. -/
def fixed (w : ℕ) : Format ℕ where
  enc := leBytes w
  dec := takeLe w
  Valid n := n < 256 ^ w
  dec_enc _ rest h := takeLe_append h rest

/-- An unsigned integer below `n`, in `w` bytes. -/
def leFin (w n : ℕ) : Format (Fin n) :=
  (fixed w).via (fun k => if h : k < n then some ⟨k, h⟩ else none) Fin.val fun b => dif_pos b.isLt

/-- A signed 64-bit integer in two's complement. -/
def leInt64 : Format Int64 :=
  (fixed 8).via (fun k => some (UInt64.ofNat k).toInt64) (fun i => i.toUInt64.toNat) fun i => by
    rw [UInt64.ofNat_toNat]
    rfl

/-- Bytes behind their length in 8 bytes. -/
def leBlob : Format (List Byte) where
  enc bs := leBytes 8 bs.length ++ bs
  dec bs := (takeLe 8 bs).bind fun x => takeBytes x.1 x.2
  Valid bs := bs.length < 256 ^ 8
  dec_enc bs rest h := by
    rw [List.append_assoc, takeLe_append h, Option.bind_some]
    exact takeBytes_append rfl rest

/-- A sequence behind its length in 8 bytes. -/
def leSeq (f : Format α) : Format (List α) where
  enc as := leBytes 8 as.length ++ as.flatMap f.enc
  dec bs := (takeLe 8 bs).bind fun x => decMany f.dec x.1 x.2
  Valid as := as.length < 256 ^ 8 ∧ ∀ a ∈ as, f.Valid a
  dec_enc as rest h := by
    rw [List.append_assoc, takeLe_append h.1, Option.bind_some]
    exact decMany_flatMap f h.2 rest

/-- The value at the front; bytes after it are allowed. -/
def front (f : Format α) (bs : List Byte) : Option α := (f.dec bs).map Prod.fst

theorem front_enc {f : Format α} {a : α} (ha : f.Valid a) : f.front (f.enc a) = some a := by
  have hdec := f.dec_enc a [] ha
  rw [List.append_nil] at hdec
  rw [front, hdec, Option.map_some]

/-! ### Lengths -/

theorem length_varint (n : ℕ) :
    (varint.enc n).length =
      if n < 251 then 1 else if n < 2 ^ 16 then 3 else if n < 2 ^ 32 then 5 else 9 := by
  simp only [varint, apply_ite List.length, List.length_cons, List.length_nil, length_leBytes,
    Nat.zero_add, Nat.reduceAdd]

@[simp] theorem length_raw (w : ℕ) (bs : List Byte) : ((raw w).enc bs).length = bs.length := rfl

@[simp] theorem length_via (f : Format α) (read : α → Option β) (write : β → α)
    (h : ∀ b, read (write b) = some b) (b : β) :
    ((f.via read write h).enc b).length = (f.enc (write b)).length := rfl

@[simp] theorem length_pair (f : Format α) (g : Format β) (x : α × β) :
    ((f.pair g).enc x).length = (f.enc x.1).length + (g.enc x.2).length := List.length_append

@[simp] theorem length_unit (x : Unit) : (unit.enc x).length = 0 := rfl

@[simp] theorem length_option (f : Format α) (o : Option α) :
    ((option f).enc o).length = 1 + (o.map fun a => (f.enc a).length).getD 0 := by
  cases o with
  | none => rfl
  | some a => exact Nat.add_comm _ 1

@[simp] theorem length_seq (f : Format α) (as : List α) :
    ((seq f).enc as).length =
      (varint.enc as.length).length + (as.map fun a => (f.enc a).length).sum := by
  simp only [seq, List.length_append, List.length_flatMap]

@[simp] theorem length_fin {n : ℕ} (k : Fin n) :
    ((fin n).enc k).length = (varint.enc k.val).length := rfl

@[simp] theorem length_zigzag (i : ℤ) :
    (zigzag.enc i).length = (varint.enc (zigzagNat i)).length := rfl

@[simp] theorem length_bool (b : Bool) : (bool.enc b).length = 1 := rfl

@[simp] theorem length_bytes (bs : List Byte) :
    (bytes.enc bs).length = (varint.enc bs.length).length + bs.length := by
  rw [bytes, length_seq]
  show _ + (bs.map fun _ => 1).sum = _
  simp

@[simp] theorem length_text (s : List Char) :
    (text.enc s).length = (varint.enc (utf8 s).length).length + (utf8 s).length :=
  length_bytes (utf8 s)

@[simp] theorem length_be {w n : ℕ} [NeZero n] (h : n ≤ 256 ^ w) (k : Fin n) :
    ((be w n h).enc k).length = w :=
  length_beBytes w k.val

/-! ### Serialization within a limit -/

/-- The encoding, unless it is longer than the limit. -/
def serialize (f : Format α) (limit : ℕ) (a : α) : Option (List Byte) :=
  if (f.enc a).length ≤ limit then some (f.enc a) else none

/-- The value of an encoding that is not longer than the limit; bytes that are left over are
refused. -/
def deserialize (f : Format α) (limit : ℕ) (bs : List Byte) : Option α :=
  if bs.length ≤ limit then
    (f.dec bs).bind fun x => if x.2 = [] then some x.1 else none
  else none

theorem deserialize_serialize {f : Format α} {limit : ℕ} {a : α} {bs : List Byte} (ha : f.Valid a)
    (h : f.serialize limit a = some bs) : f.deserialize limit bs = some a := by
  unfold serialize at h
  split_ifs at h with hlen
  cases h
  have hdec := f.dec_enc a [] ha
  rw [List.append_nil] at hdec
  rw [deserialize, if_pos hlen, hdec]
  rfl

end Format

end Bincode
