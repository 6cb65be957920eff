import Rs5cmd.Lib.Bytes

/-!
# Files as POSIX has them

A file is a length and a cell at every position, zero from the length on. Reading a
hole gives zeros, and so does what a shrunk file held when it is extended again. The
operations on lists of cells compute the same files.
-/

@[ext]
structure PosixFile (α : Type*) [Zero α] where
  length : Nat
  cell : Nat → α
  cell_eq_zero : ∀ p, length ≤ p → cell p = 0

namespace PosixFile

variable {α : Type*} [Zero α]

/-- The contents. -/
def toList (f : PosixFile α) : List α := (List.range f.length).map f.cell

/-- The file with the given contents. -/
def ofList (b : List α) : PosixFile α where
  length := b.length
  cell p := b[p]?.getD 0
  cell_eq_zero p hp := by rw [List.getElem?_eq_none hp, Option.getD_none]

/-- `pwrite`: nothing happens when there is nothing to write. -/
def write (offset : Nat) (data : List α) (f : PosixFile α) : PosixFile α where
  length := if data = [] then f.length else max f.length (offset + data.length)
  cell p := if offset ≤ p ∧ p < offset + data.length then data[p - offset]?.getD 0 else f.cell p
  cell_eq_zero p hp := by
    split at hp
    · rename_i hdata
      rw [hdata, List.length_nil, if_neg (by omega)]
      exact f.cell_eq_zero p hp
    · rw [if_neg (by omega)]
      exact f.cell_eq_zero p (by omega)

/-- `ftruncate`. -/
def truncate (n : Nat) (f : PosixFile α) : PosixFile α where
  length := n
  cell p := if p < n then f.cell p else 0
  cell_eq_zero p hp := if_neg (by omega)

/-- `pread`: up to `size` cells. -/
def read (offset size : Nat) (f : PosixFile α) : List α :=
  (List.range (min size (f.length - offset))).map fun i => f.cell (offset + i)

@[simp] theorem length_ofList (b : List α) : (ofList b).length = b.length := rfl

@[simp] theorem length_toList (f : PosixFile α) : f.toList.length = f.length := by
  rw [toList, List.length_map, List.length_range]

@[simp] theorem toList_ofList (b : List α) : (ofList b).toList = b := by
  refine List.ext_getElem (length_toList _) fun i _ hi => ?_
  simp [toList, ofList, hi]

@[simp] theorem ofList_toList (f : PosixFile α) : ofList f.toList = f := by
  ext p
  · exact length_toList f
  · show f.toList[p]?.getD 0 = f.cell p
    by_cases hp : p < f.length
    · simp [toList, hp]
    · rw [List.getElem?_eq_none (by rw [length_toList]; omega), Option.getD_none,
        f.cell_eq_zero p (by omega)]

/-! ## The operations on lists -/

theorem ofList_setLen (n : Nat) (b : List α) :
    ofList (Bytes.setLen n b) = (ofList b).truncate n := by
  ext p
  · exact Bytes.length_setLen n b
  · show (Bytes.setLen n b)[p]?.getD 0 = if p < n then b[p]?.getD 0 else 0
    rw [Bytes.setLen]
    by_cases hb : p < (b.take n).length
    · rw [List.getElem?_append_left hb]
      rw [List.length_take] at hb
      rw [List.getElem?_take_of_lt (by omega), if_pos (by omega)]
    · rw [List.getElem?_append_right (by omega), List.getElem?_replicate]
      rw [List.length_take] at hb
      by_cases hp : p < n
      · rw [if_pos hp, List.getElem?_eq_none (l := b) (by omega), Option.getD_none]
        split
        · rfl
        · rfl
      · rw [if_neg hp]
        split
        · rfl
        · rfl

theorem ofList_writeAt (offset : Nat) (data b : List α) :
    ofList (Bytes.writeAt offset data b) = (ofList b).write offset data := by
  by_cases hdata : data = []
  · subst hdata
    ext p
    · rw [Bytes.writeAt_nil]
      rfl
    · show (Bytes.writeAt offset [] b)[p]?.getD 0 = if _ then _ else _
      rw [Bytes.writeAt_nil, List.length_nil, if_neg (by omega)]
      rfl
  · ext p
    · show (Bytes.writeAt offset data b).length = if data = [] then _ else _
      rw [Bytes.length_writeAt hdata, if_neg hdata]
      rfl
    · -- the part before the data is the file cut or extended to the offset
      have hbefore := congrArg (fun f => f.cell p) (ofList_setLen offset b)
      have hstart : (Bytes.setLen offset b)[p]?.getD 0 = if p < offset then b[p]?.getD 0 else 0 :=
        hbefore
      show (Bytes.writeAt offset data b)[p]?.getD 0 =
        if offset ≤ p ∧ p < offset + data.length then data[p - offset]?.getD 0 else b[p]?.getD 0
      rw [Bytes.writeAt, if_neg (by simpa using hdata), List.append_assoc]
      by_cases hlow : p < offset
      · rw [List.getElem?_append_left (by simpa using hlow), hstart, if_pos hlow, if_neg (by omega)]
      · rw [List.getElem?_append_right (by simp; omega), Bytes.length_setLen]
        by_cases hhigh : p < offset + data.length
        · rw [List.getElem?_append_left (by omega), if_pos ⟨by omega, hhigh⟩]
        · rw [List.getElem?_append_right (by omega), if_neg (by omega), List.getElem?_drop]
          congr 2
          omega

theorem toList_write (offset : Nat) (data : List α) (f : PosixFile α) :
    (f.write offset data).toList = Bytes.writeAt offset data f.toList := by
  rw [← toList_ofList (Bytes.writeAt offset data f.toList), ofList_writeAt, ofList_toList]

theorem toList_truncate (n : Nat) (f : PosixFile α) :
    (f.truncate n).toList = Bytes.setLen n f.toList := by
  rw [← toList_ofList (Bytes.setLen n f.toList), ofList_setLen, ofList_toList]

theorem read_ofList (offset size : Nat) (b : List α) :
    (ofList b).read offset size = (b.drop offset).take size := by
  refine List.ext_getElem ?_ fun i hi hi' => ?_
  · simp [read]
  · simp only [List.length_take, List.length_drop] at hi'
    simp [read, ofList, List.getElem?_eq_getElem (l := b) (i := offset + i) (by omega)]

theorem read_eq (offset size : Nat) (f : PosixFile α) :
    f.read offset size = (f.toList.drop offset).take size := by
  rw [← read_ofList, ofList_toList]

end PosixFile
