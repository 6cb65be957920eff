import Mathlib.Data.List.Basic
import Mathlib.Algebra.Group.Defs

/-!
# File contents

The effect of `ftruncate` and `pwrite` on a file's contents, over any type of
cells with a zero: a gap before the written range is filled with zeros.
-/

namespace Bytes

variable {α : Type*} [Zero α]

/-- `ftruncate(n)`: the contents cut to `n` cells, or extended with zeros. -/
def setLen (n : Nat) (b : List α) : List α := b.take n ++ List.replicate (n - b.length) 0

/-- `pwrite(data, off)`. Writing nothing changes nothing, even past the end. -/
def writeAt (off : Nat) (data b : List α) : List α :=
  if data.isEmpty then b else setLen off b ++ data ++ b.drop (off + data.length)

@[simp] theorem length_setLen (n : Nat) (b : List α) : (setLen n b).length = n := by
  simp [setLen]
  omega

@[simp] theorem setLen_nil (n : Nat) : setLen n ([] : List α) = List.replicate n 0 := by
  simp [setLen]

@[simp] theorem writeAt_nil (off : Nat) (b : List α) : writeAt off [] b = b := by
  simp [writeAt]

theorem length_writeAt {off : Nat} {data : List α} (hd : data ≠ []) (b : List α) :
    (writeAt off data b).length = max b.length (off + data.length) := by
  simp [writeAt, hd]
  omega

/-- A write that stays inside the file keeps its length. -/
theorem length_writeAt_of_le {off : Nat} {data b : List α} (h : off + data.length ≤ b.length) :
    (writeAt off data b).length = b.length := by
  by_cases hd : data = []
  · simp [hd]
  · rw [length_writeAt hd]
    omega

/-- A write at the end of the file appends. -/
theorem writeAt_length (data b : List α) : writeAt b.length data b = b ++ data := by
  unfold writeAt
  split
  · rename_i hd
    simp_all
  · simp [setLen]

/-- A write that stays inside the file changes the cells it covers and no other. -/
theorem getElem?_writeAt {off : Nat} {data b : List α} (h : off + data.length ≤ b.length)
    (p : Nat) :
    (writeAt off data b)[p]? =
      if off ≤ p ∧ p < off + data.length then data[p - off]? else b[p]? := by
  unfold writeAt
  split
  · -- nothing is written
    rename_i hd
    rw [List.isEmpty_iff.mp hd, if_neg]
    rw [List.length_nil]
    omega
  · have htake : setLen off b = b.take off := by
      have hzero : off - b.length = 0 := by omega
      rw [setLen, hzero, List.replicate_zero, List.append_nil]
    have hlen : (b.take off).length = off := by
      rw [List.length_take]
      omega
    rw [htake, List.append_assoc]
    by_cases hlow : p < off
    · rw [List.getElem?_append_left (by omega), if_neg (by omega), List.getElem?_take_of_lt hlow]
    · rw [List.getElem?_append_right (by omega), hlen]
      by_cases hhigh : p < off + data.length
      · rw [List.getElem?_append_left (by omega), if_pos ⟨by omega, hhigh⟩]
      · rw [List.getElem?_append_right (by omega), if_neg (by omega), List.getElem?_drop]
        congr 1
        omega

end Bytes
