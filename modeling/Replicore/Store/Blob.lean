import Replicore.Merkle.Leaf

/-!
# Vectors in blobs and frames

`encode_vv` and `decode_vv` of `state.rs`; a frame carries a vector in the same form.  Decoding
reads the number of entries and inserts them as they come: it neither drops a zero counter nor
keeps the larger of two counters of one node, so what is decoded is any map of 64-bit counters
(`VersionVector.fitsU64_decodeVv`).  What was encoded is decoded again
(`VersionVector.decodeVv_encodeVv`).
-/

namespace Replicore

open Bytes

namespace VersionVector

/-- `encode_vv`. -/
def encodeVv (v : VersionVector) : List Byte := v.serialize

/-- The entries that follow, taken into a map one by one. -/
def decodeEntries : ℕ → List Byte → OrdMap NodeId ℕ → Option (OrdMap NodeId ℕ)
  | 0, _, m => some m
  | count + 1, bs, m =>
    if bs.length < 24 then none
    else decodeEntries count (bs.drop 24)
      (m.insert (Fin.ofNat _ (beValue (bs.take 16))) (leValue ((bs.drop 16).take 8)))

/-- `decode_vv`: the number of entries, then the entries.  Bytes after them are allowed. -/
def decodeVv (bs : List Byte) : Option VersionVector :=
  if bs.length < 8 then none
  else (decodeEntries (leValue (bs.take 8)) (bs.drop 8) OrdMap.empty).map VersionVector.mk

/-- The bytes of one entry. -/
def entryBytes (e : NodeId × ℕ) : List Byte := NodeId.bytes e.1 ++ leBytes 8 e.2

theorem length_entryBytes (e : NodeId × ℕ) : (entryBytes e).length = 24 := by
  simp [entryBytes, NodeId.bytes]

/-- An entry that was encoded is read back. -/
theorem decodeEntries_cons {e : NodeId × ℕ} (he : e.2 < u64Bound) (count : ℕ) (rest : List Byte)
    (m : OrdMap NodeId ℕ) :
    decodeEntries (count + 1) (entryBytes e ++ rest) m =
      decodeEntries count rest (m.insert e.1 e.2) := by
  have hid : (NodeId.bytes e.1).length = 16 := by simp [NodeId.bytes]
  have hcount : (leBytes 8 e.2).length = 8 := by simp
  have htake : (entryBytes e ++ rest).take 16 = NodeId.bytes e.1 := by
    rw [entryBytes, List.append_assoc, List.take_left' hid]
  have hdrop : (entryBytes e ++ rest).drop 16 = leBytes 8 e.2 ++ rest := by
    rw [entryBytes, List.append_assoc, List.drop_left' hid]
  have hlen : ¬ (entryBytes e ++ rest).length < 24 := by
    rw [List.length_append, length_entryBytes]
    omega
  have hnode : Fin.ofNat (2 ^ 128) (beValue (NodeId.bytes e.1)) = e.1 := by
    rw [NodeId.bytes, beValue_beBytes (lt_of_lt_of_eq e.1.isLt (by norm_num))]
    exact Fin.ofNat_val_eq_self e.1
  rw [decodeEntries, if_neg hlen, htake, hdrop, List.take_left' hcount,
    List.drop_left' (length_entryBytes e), hnode,
    leValue_leBytes (lt_of_lt_of_eq he (by norm_num [u64Bound]))]

theorem decodeEntries_encode {es : List (NodeId × ℕ)} (hes : ∀ e ∈ es, e.2 < u64Bound)
    (rest : List Byte) (m : OrdMap NodeId ℕ) :
    decodeEntries es.length (es.flatMap entryBytes ++ rest) m = some (m.upsertAll es) := by
  induction es generalizing m with
  | nil => rfl
  | cons e es ih =>
    rw [List.flatMap_cons, List.append_assoc, List.length_cons,
      decodeEntries_cons (hes e List.mem_cons_self),
      ih fun x hx => hes x (List.mem_cons_of_mem _ hx), OrdMap.upsertAll_cons]

theorem decodeEntries_lt {count : ℕ} {bs : List Byte} {m m' : OrdMap NodeId ℕ}
    (h : decodeEntries count bs m = some m') (hm : ∀ n c, m.get? n = some c → c < u64Bound) :
    ∀ n c, m'.get? n = some c → c < u64Bound := by
  induction count generalizing bs m with
  | zero =>
    obtain rfl := Option.some.inj h
    exact hm
  | succ count ih =>
    rw [decodeEntries] at h
    split_ifs at h with hlen
    refine ih h fun n c hc => ?_
    rw [OrdMap.get?_insert] at hc
    split_ifs at hc
    · obtain rfl := Option.some.inj hc
      have hshort : ((bs.drop 16).take 8).length = 8 := by
        rw [List.length_take, List.length_drop]
        omega
      have hlt := leValue_lt ((bs.drop 16).take 8)
      rw [hshort] at hlt
      exact lt_of_lt_of_eq hlt (by norm_num [u64Bound])
    · exact hm n c hc

/-- Decoding gives 64-bit counters. -/
theorem fitsU64_decodeVv {bs : List Byte} {v : VersionVector} (h : decodeVv bs = some v) :
    v.FitsU64 := by
  unfold decodeVv at h
  split_ifs at h
  obtain ⟨m, hm, rfl⟩ := Option.map_eq_some_iff.1 h
  intro e he
  exact decodeEntries_lt hm (fun n c hc => by cases hc) e.1 e.2 (OrdMap.mem_entries.1 he)

/-- What was encoded is decoded again, whatever follows. -/
theorem decodeVv_encodeVv {v : VersionVector} (hv : v.FitsU64)
    (hlen : v.map.entries.length < u64Bound) (rest : List Byte) :
    decodeVv (v.encodeVv ++ rest) = some v := by
  have hcount : (leBytes 8 v.map.entries.length).length = 8 := by simp
  have hbytes : v.encodeVv ++ rest = leBytes 8 v.map.entries.length ++
      (v.map.entries.flatMap entryBytes ++ rest) := by
    rw [encodeVv, serialize, List.append_assoc]
    rfl
  have hlong : ¬ (v.encodeVv ++ rest).length < 8 := by
    rw [hbytes, List.length_append, hcount]
    omega
  have hmap : (OrdMap.empty : OrdMap NodeId ℕ).upsertAll v.map.entries = v.map :=
    OrdMap.ext_get? fun n => by
      rw [OrdMap.get?_upsertAll_entries, OrdMap.get?_empty, Option.or_none]
  rw [decodeVv, if_neg hlong, hbytes, List.take_left' hcount, List.drop_left' hcount,
    leValue_leBytes (lt_of_lt_of_eq hlen (by norm_num [u64Bound])), decodeEntries_encode hv, hmap]
  rfl

end VersionVector

end Replicore
