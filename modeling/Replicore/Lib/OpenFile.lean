import Replicore.Lib.Bytes

/-!
# Writing a file with holes

The content of an open file and the position of its next write.  A write past the end of the content
fills the gap with zeros, and so does setting a length beyond it; a seek alone changes no content.

A file `ReadsAs` a string if it holds that string up to a trailing hole: what is missing are zeros,
and the position is its end.  Appending, by writing or by skipping zeros, and setting the length at
last are the rules.
-/

namespace Posix

/-- An open file. -/
structure OpenFile where
  data : List Byte := []
  pos : ℕ := 0
  deriving DecidableEq

namespace OpenFile

/-- The content, filled up with zeros to the length `n`. -/
def fillTo (n : ℕ) (data : List Byte) : List Byte := data ++ List.replicate (n - data.length) 0

/-- Write all bytes at the position. -/
def write (f : OpenFile) (bytes : List Byte) : OpenFile :=
  if bytes = [] then f
  else
    { data := (fillTo f.pos f.data).take f.pos ++ bytes ++ f.data.drop (f.pos + bytes.length)
      pos := f.pos + bytes.length }

/-- Go to the position `n`. -/
def seek (f : OpenFile) (n : ℕ) : OpenFile := { f with pos := n }

/-- Cut the content off at, or extend it with zeros to, the length `n`. -/
def setLen (f : OpenFile) (n : ℕ) : OpenFile := { f with data := (fillTo n f.data).take n }

/-- The file holds `content` up to a trailing hole, and is at its end. -/
structure ReadsAs (f : OpenFile) (content : List Byte) : Prop where
  short : f.data.length ≤ content.length
  filled : fillTo content.length f.data = content
  pos : f.pos = content.length

variable {f : OpenFile} {content : List Byte}

theorem fillTo_length (data : List Byte) : fillTo data.length data = data := by
  simp [fillTo]

/-- Filling up further appends zeros. -/
theorem fillTo_add {n : ℕ} {data : List Byte} (h : data.length ≤ n) (k : ℕ) :
    fillTo (n + k) data = fillTo n data ++ List.replicate k 0 := by
  have hsplit : n + k - data.length = (n - data.length) + k := by omega
  rw [fillTo, fillTo, hsplit, List.replicate_add, List.append_assoc]

theorem ReadsAs.empty : ReadsAs {} [] := ⟨Nat.le_refl _, rfl, rfl⟩

theorem ReadsAs.write (h : f.ReadsAs content) (bytes : List Byte) :
    (f.write bytes).ReadsAs (content ++ bytes) := by
  by_cases hnil : bytes = []
  · subst hnil
    simpa [OpenFile.write] using h
  · have hdata : (f.write bytes).data = content ++ bytes := by
      have htake : (fillTo f.pos f.data).take f.pos = content := by
        rw [h.pos, h.filled, List.take_length]
      have hdrop : f.data.drop (f.pos + bytes.length) = [] :=
        List.drop_eq_nil_of_le (h.short.trans (h.pos ▸ Nat.le_add_right _ _))
      simp only [OpenFile.write, if_neg hnil, htake, hdrop, List.append_nil]
    refine ⟨by rw [hdata], by rw [hdata, fillTo_length], ?_⟩
    simp only [OpenFile.write, if_neg hnil, h.pos, List.length_append]

/-- Skipping `n` bytes leaves a hole of `n` zeros. -/
theorem ReadsAs.skip (h : f.ReadsAs content) (n : ℕ) :
    (f.seek (content.length + n)).ReadsAs (content ++ List.replicate n 0) := by
  have hlen : (content ++ List.replicate n (0 : Byte)).length = content.length + n := by
    rw [List.length_append, List.length_replicate]
  refine ⟨?_, ?_, hlen.symm⟩
  · rw [hlen]
    exact h.short.trans (Nat.le_add_right _ _)
  · rw [hlen]
    exact (fillTo_add h.short n).trans (by rw [h.filled])

/-- Setting the length realises the trailing hole. -/
theorem ReadsAs.setLen (h : f.ReadsAs content) : (f.setLen content.length).data = content := by
  rw [OpenFile.setLen, h.filled, List.take_length]

end OpenFile

end Posix
