import Mathlib.Algebra.Group.Int.Defs
import Mathlib.Algebra.GroupWithZero.Nat
import Mathlib.Data.List.Infix
import Mathlib.Order.Fin.Basic

/-!
# Fixed-width byte encodings

Big- and little-endian encodings of natural numbers into a fixed number of bytes, and lower-case
hexadecimal.  The encodings are injective on the numbers that fit (`beBytes_inj`, `leBytes_inj`)
and their length depends on the width only, so that a concatenation of them can be split again.  A
text can be read off its UTF-8 encoding (`utf8Decode_eq_some`), and one without NUL off its
encoding and a NUL byte, whatever follows (`utf8_nul_inj`).
-/

/-- A byte. -/
abbrev Byte := Fin 256

instance neZero_byte : NeZero 256 := ⟨by decide⟩

instance lawfulBEq_byte : LawfulBEq Byte := inferInstance

namespace Bytes

/-- The byte with the value of `n` modulo 256. -/
def byte (n : ℕ) : Byte := ⟨n % 256, Nat.mod_lt _ (by decide)⟩

/-- The UTF-8 encoding of a string. -/
def utf8 (s : List Char) : List Byte :=
  s.flatMap fun c => (String.utf8EncodeChar c).map fun b => byte b.toNat

/-- The `w` low bytes of `n`, most significant first. -/
def beBytes : ℕ → ℕ → List Byte
  | 0, _ => []
  | w + 1, n => byte (n / 256 ^ w) :: beBytes w n

/-- The `w` low bytes of `n`, least significant first. -/
def leBytes : ℕ → ℕ → List Byte
  | 0, _ => []
  | w + 1, n => byte n :: leBytes w (n / 256)

/-- One lower-case hexadecimal digit. -/
def hexDigit (n : ℕ) : Char := Char.ofNat (if n < 10 then 48 + n else 87 + n)

/-- Lower-case hexadecimal, two digits a byte. -/
def hexEncode : List Byte → List Char
  | [] => []
  | b :: bs => hexDigit (b.val / 16) :: hexDigit (b.val % 16) :: hexEncode bs

@[simp] theorem length_beBytes (w n : ℕ) : (beBytes w n).length = w := by
  induction w with
  | zero => rfl
  | succ w ih => simp [beBytes, ih]

@[simp] theorem length_leBytes (w n : ℕ) : (leBytes w n).length = w := by
  induction w generalizing n with
  | zero => rfl
  | succ w ih => simp [leBytes, ih]

@[simp] theorem length_hexEncode (bs : List Byte) : (hexEncode bs).length = 2 * bs.length := by
  induction bs with
  | nil => rfl
  | cons b bs ih => simp [hexEncode, ih]; omega

theorem hexDigit_inj {m n : ℕ} (hm : m < 16) (hn : n < 16) (h : hexDigit m = hexDigit n) :
    m = n := by
  have hall : ∀ m n : Fin 16, hexDigit m = hexDigit n → m = n := by decide
  exact congrArg Fin.val (hall ⟨m, hm⟩ ⟨n, hn⟩ h)

theorem hexEncode_injective : Function.Injective hexEncode := by
  intro bs
  induction bs with
  | nil =>
    intro bs' h
    cases bs' with
    | nil => rfl
    | cons b' bs' => cases h
  | cons b bs ih =>
    intro bs' h
    cases bs' with
    | nil => cases h
    | cons b' bs' =>
      simp only [hexEncode, List.cons.injEq] at h
      have hhigh := hexDigit_inj (by omega) (by omega) h.1
      have hlow := hexDigit_inj (by omega) (by omega) h.2.1
      have hb : b = b' := Fin.ext (by omega)
      rw [hb, ih h.2.2]

theorem byte_inj_mod {a b : ℕ} (h : byte a = byte b) : a % 256 = b % 256 :=
  congrArg Fin.val h

theorem leBytes_mod {w a b : ℕ} (h : leBytes w a = leBytes w b) : a % 256 ^ w = b % 256 ^ w := by
  induction w generalizing a b with
  | zero => simp [Nat.mod_one]
  | succ w ih =>
    simp only [leBytes, List.cons.injEq] at h
    have h0 := byte_inj_mod h.1
    have h1 := ih h.2
    rw [Nat.pow_succ', Nat.mod_mul, Nat.mod_mul, h0, h1]

/-- The little-endian encoding is injective on the numbers that fit. -/
theorem leBytes_inj {w a b : ℕ} (ha : a < 256 ^ w) (hb : b < 256 ^ w)
    (h : leBytes w a = leBytes w b) : a = b := by
  simpa [Nat.mod_eq_of_lt ha, Nat.mod_eq_of_lt hb] using leBytes_mod h

theorem beBytes_mod {w a b : ℕ} (h : beBytes w a = beBytes w b) : a % 256 ^ w = b % 256 ^ w := by
  induction w with
  | zero => simp [Nat.mod_one]
  | succ w ih =>
    simp only [beBytes, List.cons.injEq] at h
    have h0 := byte_inj_mod h.1
    have h1 := ih h.2
    rw [Nat.pow_succ, Nat.mod_mul, Nat.mod_mul, h0, h1]

/-- The big-endian encoding is injective on the numbers that fit. -/
theorem beBytes_inj {w a b : ℕ} (ha : a < 256 ^ w) (hb : b < 256 ^ w)
    (h : beBytes w a = beBytes w b) : a = b := by
  simpa [Nat.mod_eq_of_lt ha, Nat.mod_eq_of_lt hb] using beBytes_mod h

/-- The value of a big-endian encoding. -/
def beValue (bs : List Byte) : ℕ := bs.foldl (fun n b => n * 256 + b.val) 0

theorem foldl_beBytes (w n a : ℕ) :
    (beBytes w n).foldl (fun n b => n * 256 + b.val) a = a * 256 ^ w + n % 256 ^ w := by
  induction w generalizing a with
  | zero => simp [beBytes, Nat.mod_one]
  | succ w ih =>
    rw [beBytes, List.foldl_cons, ih, Nat.pow_succ, Nat.mod_mul]
    simp only [byte]
    rw [Nat.add_mul, Nat.mul_assoc, Nat.mul_comm 256, Nat.mul_comm (n / 256 ^ w % 256)]
    omega

/-- The big-endian encoding of a number that fits can be read back. -/
theorem beValue_beBytes {w n : ℕ} (h : n < 256 ^ w) : beValue (beBytes w n) = n := by
  rw [beValue, foldl_beBytes, Nat.mod_eq_of_lt h]
  omega

/-- The value of a little-endian encoding. -/
def leValue : List Byte → ℕ
  | [] => 0
  | b :: bs => b.val + 256 * leValue bs

/-- The little-endian encoding of a number that fits can be read back. -/
theorem leValue_leBytes {w n : ℕ} (h : n < 256 ^ w) : leValue (leBytes w n) = n := by
  induction w generalizing n with
  | zero =>
    have hzero : n = 0 := by simpa using h
    rw [hzero]
    rfl
  | succ w ih =>
    rw [Nat.pow_succ] at h
    have hdiv : n / 256 < 256 ^ w := Nat.div_lt_of_lt_mul (by omega)
    rw [leBytes, leValue, ih hdiv]
    simp only [byte]
    omega

theorem leValue_lt (bs : List Byte) : leValue bs < 256 ^ bs.length := by
  induction bs with
  | nil => exact Nat.one_pos
  | cons b bs ih =>
    have hb := b.isLt
    rw [leValue, List.length_cons, Nat.pow_succ]
    omega

/-! ### The length of a text -/

theorem utf8_append (s t : List Char) : utf8 (s ++ t) = utf8 s ++ utf8 t := List.flatMap_append

/-- A text of ASCII characters has one byte for each. -/
theorem length_utf8_of_ascii {s : List Char} (h : ∀ c ∈ s, c.toNat < 128) :
    (utf8 s).length = s.length := by
  have hone : ∀ c : Char, c.toNat < 128 → (String.utf8EncodeChar c).length = 1 := by
    intro c hc
    have hle : c.val.toNat ≤ 127 := Nat.le_of_lt_succ hc
    rw [String.utf8EncodeChar]
    simp only [hle, if_true, List.length_singleton]
  induction s with
  | nil => rfl
  | cons c s ih =>
    have hc := hone c (h c List.mem_cons_self)
    have hs := ih fun x hx => h x (List.mem_cons_of_mem _ hx)
    rw [utf8] at hs ⊢
    rw [List.flatMap_cons, List.length_append, List.length_map, hc, hs, List.length_cons]
    omega

theorem toNat_hexDigit_lt {n : ℕ} (h : n < 16) : (hexDigit n).toNat < 128 := by
  have hall : ∀ k : Fin 16, (hexDigit k).toNat < 128 := by decide
  exact hall ⟨n, h⟩

theorem length_utf8_hexEncode (bs : List Byte) : (utf8 (hexEncode bs)).length = 2 * bs.length := by
  rw [length_utf8_of_ascii, length_hexEncode]
  induction bs with
  | nil => simp [hexEncode]
  | cons b bs ih =>
    intro c hc
    simp only [hexEncode, List.mem_cons] at hc
    obtain rfl | rfl | hc := hc
    · exact toNat_hexDigit_lt (by omega)
    · exact toNat_hexDigit_lt (by omega)
    · exact ih c hc

theorem length_utf8_toDigits (n : ℕ) : (utf8 (Nat.toDigits 10 n)).length = (Nat.toDigits 10 n).length := by
  refine length_utf8_of_ascii fun c hc => ?_
  have hdigit := Nat.isDigit_of_mem_toDigits (by decide) (by decide) hc
  rw [Char.isDigit, Bool.and_eq_true, decide_eq_true_iff, decide_eq_true_iff] at hdigit
  have hle : c.toNat ≤ 57 := hdigit.2
  omega

/-! ### Reading a text off its encoding -/

theorem ofNat_byte (b : UInt8) : UInt8.ofNat (byte b.toNat).val = b := by
  have hlt : b.toNat < 256 := b.toNat_lt
  simp [byte, Nat.mod_eq_of_lt hlt]

/-- The encoding of one character. -/
def charBytes (c : Char) : List Byte := (String.utf8EncodeChar c).map fun b => byte b.toNat

theorem byte_ofNat (n : ℕ) : byte (UInt8.ofNat n).toNat = byte n := by
  rw [UInt8.toNat_ofNat', byte, byte]
  exact Fin.ext (Nat.mod_mod n 256)

/-- The bytes of a character outside ASCII are not those of an ASCII character. -/
theorem charBytes_cases (c : Char) :
    (c.toNat < 128 ∧ charBytes c = [byte c.toNat]) ∨ ∀ b ∈ charBytes c, 128 ≤ b.val := by
  rw [charBytes, String.utf8EncodeChar, Char.toNat_val]
  by_cases h : c.toNat ≤ 127
  · refine .inl ⟨Nat.lt_succ_of_le h, ?_⟩
    simp only [h, if_true, List.map_cons, List.map_nil, byte_ofNat]
  · refine .inr ?_
    simp only [h, if_false]
    have hbyte : ∀ n < 256, 128 ≤ n → 128 ≤ (byte n).val := fun n hn hle => by
      rw [byte, Fin.val_mk, Nat.mod_eq_of_lt hn]
      exact hle
    split_ifs <;> simp only [List.map_cons, List.map_nil, List.forall_mem_cons, byte_ofNat]
    · exact ⟨hbyte _ (by omega) (by omega), hbyte _ (by omega) (by omega), by simp⟩
    · exact ⟨hbyte _ (by omega) (by omega), hbyte _ (by omega) (by omega),
        hbyte _ (by omega) (by omega), by simp⟩
    · exact ⟨hbyte _ (by omega) (by omega), hbyte _ (by omega) (by omega),
        hbyte _ (by omega) (by omega), hbyte _ (by omega) (by omega), by simp⟩

/-- The byte of an ASCII character is in a text only where the character is. -/
theorem mem_of_byte_mem_utf8 {c : Char} (hc : c.toNat < 128) {s : List Char}
    (h : byte c.toNat ∈ utf8 s) : c ∈ s := by
  have hval : (byte c.toNat).val = c.toNat := Nat.mod_eq_of_lt (by omega)
  obtain ⟨d, hd, hmem⟩ := List.mem_flatMap.1 h
  change _ ∈ charBytes d at hmem
  obtain ⟨hlt, heq⟩ | hhigh := charBytes_cases d
  · rw [heq, List.mem_singleton] at hmem
    have hval' : (byte d.toNat).val = d.toNat := Nat.mod_eq_of_lt (by omega)
    have hnat : c.toNat = d.toNat := by rw [← hval, hmem, hval']
    exact Char.toNat_inj.1 hnat ▸ hd
  · have hle := hhigh _ hmem
    omega

theorem utf8_cons (c : Char) (p : List Char) : utf8 (c :: p) = charBytes c ++ utf8 p := rfl

theorem charBytes_nul : charBytes '\x00' = [byte 0] := rfl

/-- The first character of a text can be read off its encoding, whatever follows. -/
theorem charBytes_append_inj {c c' : Char} {s s' : List Byte}
    (h : charBytes c ++ s = charBytes c' ++ s') : c = c' ∧ s = s' := by
  have hback : ∀ c : Char, (charBytes c).map (fun b => UInt8.ofNat b.val) =
      String.utf8EncodeChar c := by
    intro c
    rw [charBytes, List.map_map]
    exact (List.map_congr_left fun b _ => ofNat_byte b).trans (List.map_id _)
  have hbytes := congrArg (fun l : List Byte => (l.map fun b => UInt8.ofNat b.val).toByteArray) h
  rw [List.map_append, List.map_append, hback, hback, List.toByteArray_append,
    List.toByteArray_append] at hbytes
  have hdec := congrArg (fun b : ByteArray => b.utf8DecodeChar? 0) hbytes
  rw [ByteArray.utf8DecodeChar?_utf8EncodeChar_append,
    ByteArray.utf8DecodeChar?_utf8EncodeChar_append] at hdec
  obtain rfl := Option.some.inj hdec
  exact ⟨rfl, List.append_cancel_left h⟩

/-- The bytes in the form that the decoder takes. -/
def toByteArray (bs : List Byte) : ByteArray := (bs.map fun b => UInt8.ofNat b.val).toByteArray

/-- `to_str`: the text of which these bytes are the encoding, if they are one. -/
def utf8Decode (bs : List Byte) : Option (List Char) := (toByteArray bs).utf8Decode?.map Array.toList

theorem toByteArray_utf8 (p : List Char) : toByteArray (utf8 p) = p.utf8Encode := by
  rw [toByteArray, utf8, List.utf8Encode, List.map_flatMap]
  congr 2
  funext c
  rw [List.map_map]
  exact (List.map_congr_left fun b _ => ofNat_byte b).trans (List.map_id _)

theorem toByteArray_inj {bs bs' : List Byte} (h : toByteArray bs = toByteArray bs') : bs = bs' := by
  have hmap := congrArg (fun b : ByteArray => b.data.toList) h
  simp only [toByteArray, List.data_toByteArray] at hmap
  refine List.map_injective_iff.2 (fun a b hab => ?_) hmap
  have hval := congrArg UInt8.toNat hab
  rw [UInt8.toNat_ofNat_of_lt' a.isLt, UInt8.toNat_ofNat_of_lt' b.isLt] at hval
  exact Fin.ext hval

theorem utf8Decode_eq_some {bs : List Byte} {p : List Char} :
    utf8Decode bs = some p ↔ bs = utf8 p := by
  constructor
  · intro h
    obtain ⟨chars, hchars, rfl⟩ := Option.map_eq_some_iff.1 h
    have hget := ByteArray.utf8Encode_get_utf8Decode? (b := toByteArray bs) (h := by rw [hchars]; rfl)
    simp only [hchars, Option.get_some] at hget
    rw [← toByteArray_utf8] at hget
    exact (toByteArray_inj hget).symm
  · rintro rfl
    rw [utf8Decode, toByteArray_utf8, List.utf8Decode?_utf8Encode]
    rfl

theorem utf8_injective : Function.Injective utf8 := fun _ _ h =>
  Option.some.inj ((utf8Decode_eq_some.2 rfl).symm.trans (utf8Decode_eq_some.2 h))

/-- A text without NUL can be read off what begins with it and a NUL byte. -/
theorem utf8_nul_inj {p p' : List Char} (hp : '\x00' ∉ p) (hp' : '\x00' ∉ p') {s s' : List Byte}
    (h : utf8 p ++ byte 0 :: s = utf8 p' ++ byte 0 :: s') : p = p' ∧ s = s' := by
  have hnul : ∀ s : List Byte, byte 0 :: s = charBytes '\x00' ++ s := fun s => by
    rw [charBytes_nul, List.singleton_append]
  induction p generalizing p' with
  | nil =>
    cases p' with
    | nil => exact ⟨rfl, List.tail_eq_of_cons_eq h⟩
    | cons c' p' =>
      rw [utf8_cons, List.append_assoc] at h
      obtain ⟨hc, -⟩ := charBytes_append_inj ((hnul s).symm.trans h)
      exact absurd (hc ▸ List.mem_cons_self) hp'
  | cons c p ih =>
    cases p' with
    | nil =>
      rw [utf8_cons, List.append_assoc] at h
      obtain ⟨hc, -⟩ := charBytes_append_inj ((hnul s').symm.trans h.symm)
      exact absurd (hc ▸ List.mem_cons_self) hp
    | cons c' p' =>
      rw [utf8_cons, utf8_cons, List.append_assoc, List.append_assoc] at h
      obtain ⟨rfl, hrest⟩ := charBytes_append_inj h
      obtain ⟨rfl, hs⟩ := ih (fun hc => hp (List.mem_cons_of_mem _ hc))
        (fun hc => hp' (List.mem_cons_of_mem _ hc)) hrest
      exact ⟨rfl, hs⟩

end Bytes
