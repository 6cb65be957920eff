import Rs5cmd.Lib.Checked
import Rs5cmd.Storage.S3.Copy

/-!
# Part plans (`storage/s3.rs`)

The arithmetic of `upload_parts` and `copy_parts` on `u64` and `i32`, with every
operation checked: a plan is what the parts are when nothing overflows and no cast
loses anything.
-/

namespace Rs5cmd

/-- A part: its number, and the bytes it covers. -/
structure PartRange where
  partNumber : Nat
  offset : Nat
  len : Nat
  deriving DecidableEq, Repr

/-- Part `i` of a file, counted from 0. -/
def planPart (partSize size i : Nat) : Option PartRange := do
  let partNumber ← Checked.add (2 ^ 31) i 1
  let offset ← Checked.mul (2 ^ 64) i partSize
  let rest ← Checked.sub size offset
  return ⟨partNumber, offset, min partSize rest⟩

/-- The parts of `upload_parts`. -/
def uploadPlan (partSize size : Nat) : Option (List PartRange) := do
  let n ← Checked.fit (2 ^ 31) (nParts size partSize)
  (List.range n).mapM (planPart partSize size)

/-- A part of `copy_parts`, with the last byte of its range. -/
structure CopyRange extends PartRange where
  last : Nat
  deriving DecidableEq, Repr

/-- `copyPartSize`, checked. -/
def plannedCopyPartSize (partSize size : Nat) : Option Nat :=
  let minPart := nParts size maxMultipartParts
  if partSize < minPart then do
    let grown ← Checked.mul (2 ^ 64) (nParts minPart (1024 * 1024)) 1024
    Checked.mul (2 ^ 64) grown 1024
  else some partSize

/-- Part `i` of a copy. -/
def planCopyPart (partSize size i : Nat) : Option CopyRange := do
  let part ← planPart partSize size i
  let stop ← Checked.add (2 ^ 64) part.offset part.len
  let last ← Checked.sub stop 1
  return { part with last }

/-- The parts of `copy_parts`. -/
def copyPlan (partSize size : Nat) : Option (List CopyRange) := do
  let partSize ← plannedCopyPartSize partSize size
  let n ← Checked.fit (2 ^ 31) (nParts size partSize)
  (List.range n).mapM (planCopyPart partSize size)

/-- The store takes the parts: they are numbered from 1, are not too many, cover the
bytes in order, and all but the last have the same length, of at least 5 MiB. -/
structure WithinLimits (size : Nat) (parts : List PartRange) : Prop where
  numbered : parts.map PartRange.partNumber = List.range' 1 parts.length
  count : parts.length ≤ maxMultipartParts
  covers : (parts.flatMap fun p => List.range' p.offset p.len) = List.range size
  even : ∃ len, 5 * 1024 * 1024 ≤ len ∧ (∀ p ∈ parts.dropLast, p.len = len) ∧
    ∀ p ∈ parts, 0 < p.len ∧ p.len ≤ len

/-- The tasks of the parts of a file send the parts of the plan. -/
structure Issues (opts : UploadOpts) (env : UploadEnv) (data : List UInt8) (plan : List PartRange) :
    Prop where
  count : (uploadTasks opts env data).count = plan.length
  parts : ∀ i p, plan[i]? = some p → p.partNumber = (completedPart env data opts.partSize i).partNumber ∧
    (p.offset, p.len) = partRange data.length opts.partSize i

/-! ## The ranges of the parts -/

section Ranges

variable {partSize size : Nat}

theorem lt_nParts_iff (hpos : 0 < partSize) {i : Nat} : i < nParts size partSize ↔ i * partSize < size := by
  unfold nParts
  rw [Nat.lt_iff_add_one_le, Nat.le_div_iff_mul_le hpos, Nat.succ_mul]
  omega

theorem nParts_le_iff (hpos : 0 < partSize) {n : Nat} : nParts size partSize ≤ n ↔ size ≤ n * partSize := by
  rw [← Nat.not_lt, lt_nParts_iff hpos, Nat.not_lt]

theorem nParts_mul_le (total partSize : Nat) : nParts total partSize * partSize ≤ total + partSize - 1 :=
  Nat.div_mul_le_self _ _

/-- Part `i`, where nothing overflows. -/
def partOf (partSize size i : Nat) : PartRange := ⟨i + 1, i * partSize, min partSize (size - i * partSize)⟩

/-- The parts of a file, where nothing overflows. -/
def partRanges (partSize size : Nat) : List PartRange :=
  (List.range (nParts size partSize)).map (partOf partSize size)

theorem length_partRanges : (partRanges partSize size).length = nParts size partSize := by
  simp [partRanges]

/-- A part in the plan does not overflow. -/
theorem planPart_eq (hpos : 0 < partSize) (hcount : nParts size partSize < 2 ^ 31)
    (hsize : size ≤ 2 ^ 64) {i : Nat} (hi : i < nParts size partSize) :
    planPart partSize size i = some (partOf partSize size i) := by
  have hlt := (lt_nParts_iff hpos).mp hi
  have hsub := Checked.sub_of_le (Nat.le_of_lt hlt)
  unfold planPart
  rw [Checked.add_of_lt (by omega), Checked.mul_of_lt (by omega)]
  simp only [bind, Option.bind, hsub]
  rfl

theorem uploadPlan_eq (hpos : 0 < partSize) (hcount : nParts size partSize < 2 ^ 31)
    (hsize : size ≤ 2 ^ 64) : uploadPlan partSize size = some (partRanges partSize size) := by
  unfold uploadPlan
  rw [Checked.fit_of_lt hcount]
  exact mapM_eq_map fun i hi => planPart_eq hpos hcount hsize (List.mem_range.mp hi)

/-- **The parts cover the file in order.** -/
theorem covers_partRanges (hpos : 0 < partSize) :
    ((partRanges partSize size).flatMap fun p => List.range' p.offset p.len) = List.range size := by
  have hchunk : ∀ i, ((List.range size).drop (i * partSize)).take partSize =
      List.range' (i * partSize) (min partSize (size - i * partSize)) := by
    intro i
    rw [List.range_eq_range', List.drop_range', Nat.zero_add, Nat.mul_one]
    rcases Nat.le_total (size - i * partSize) partSize with hle | hle
    · rw [List.take_range'_of_length_le hle, Nat.min_eq_right hle]
    · rw [List.take_range'_of_length_ge hle, Nat.min_eq_left hle]
  have hall := flatten_chunks (List.range size) partSize (nParts size partSize)
  rw [List.take_of_length_le (by rw [List.length_range]; exact le_nParts_mul hpos)] at hall
  rw [← hall, partRanges, List.flatMap_map, List.flatMap_def]
  congr 1
  refine List.map_congr_left fun i _ => ?_
  rw [hchunk i]
  rfl

/-- **The parts are within the limits** just when they are not too many. -/
theorem withinLimits_partRanges (hpart : 5 * 1024 * 1024 ≤ partSize) :
    WithinLimits size (partRanges partSize size) ↔ size ≤ maxMultipartParts * partSize := by
  have hpos : 0 < partSize := by omega
  rw [← nParts_le_iff hpos]
  constructor
  · intro h
    have hcount := h.count
    rwa [length_partRanges] at hcount
  · intro h
    refine ⟨?_, ?_, covers_partRanges hpos, partSize, hpart, ?_, ?_⟩
    · rw [length_partRanges, partRanges, List.map_map, List.range'_eq_map_range]
      refine List.map_congr_left fun i _ => ?_
      exact Nat.add_comm i 1
    · rwa [length_partRanges]
    · -- another part begins where one that is not the last ends
      intro p hp
      rw [partRanges, List.dropLast_eq_take, List.length_map, List.length_range, ← List.map_take,
        List.take_range] at hp
      obtain ⟨i, hi, rfl⟩ := List.mem_map.mp hp
      have hi := List.mem_range.mp hi
      have hlt : (i + 1) * partSize < size := (lt_nParts_iff hpos).mp (by omega)
      rw [Nat.succ_mul] at hlt
      exact Nat.min_eq_left (by omega)
    · intro p hp
      obtain ⟨i, hi, rfl⟩ := List.mem_map.mp hp
      have hlt := (lt_nParts_iff hpos).mp (List.mem_range.mp hi)
      exact ⟨Nat.lt_min.mpr ⟨hpos, by omega⟩, Nat.min_le_left _ _⟩

/-- The cast to `i32` is exact. -/
theorem uploadPartCount_of_lt (h : nParts size partSize < 2 ^ 31) :
    uploadPartCount size partSize = nParts size partSize := by
  unfold uploadPartCount
  rw [Int.bmod_eq_of_le (by omega) (by omega), Int.toNat_natCast]

theorem issues_partRanges {opts : UploadOpts} {env : UploadEnv} {data : List UInt8}
    (h : nParts data.length opts.partSize < 2 ^ 31) :
    Issues opts env data (partRanges opts.partSize data.length) := by
  constructor
  · rw [length_partRanges, ← uploadPartCount_of_lt h]
    simp only [uploadTasks]
  · intro i p hp
    rw [partRanges, List.getElem?_map, Option.map_eq_some_iff] at hp
    obtain ⟨j, hj, rfl⟩ := hp
    obtain ⟨hlt, rfl⟩ := List.getElem?_eq_some_iff.mp hj
    rw [List.getElem_range]
    exact ⟨rfl, rfl⟩

end Ranges

/-! ## The parts of a copy -/

section Copies

variable {partSize size : Nat}

/-- The part size is grown enough. -/
theorem size_le_mul_copyPartSize (partSize size : Nat) :
    size ≤ maxMultipartParts * copyPartSize partSize size := by
  have hmin : size ≤ nParts size maxMultipartParts * maxMultipartParts := le_nParts_mul (by decide)
  have hle : nParts size maxMultipartParts ≤ copyPartSize partSize size := by
    unfold copyPartSize
    dsimp only
    split
    · rw [Nat.mul_assoc]
      exact le_nParts_mul (by decide)
    · omega
  calc size ≤ nParts size maxMultipartParts * maxMultipartParts := hmin
    _ ≤ copyPartSize partSize size * maxMultipartParts := Nat.mul_le_mul_right _ hle
    _ = maxMultipartParts * copyPartSize partSize size := Nat.mul_comm _ _

/-- Rounding up to a whole MiB does not overflow. -/
theorem roundUp_eq {minPart : Nat} (h : minPart ≤ 2 ^ 63) :
    (do let grown ← Checked.mul (2 ^ 64) (nParts minPart (1024 * 1024)) 1024
        Checked.mul (2 ^ 64) grown 1024) = some (nParts minPart (1024 * 1024) * 1024 * 1024) := by
  have hle := nParts_mul_le minPart (1024 * 1024)
  rw [Checked.mul_of_lt (by omega), Option.bind_eq_bind, Option.bind_some]
  exact Checked.mul_of_lt (by omega)

theorem plannedCopyPartSize_eq (hsize : size ≤ 2 ^ 63) :
    plannedCopyPartSize partSize size = some (copyPartSize partSize size) := by
  have hmin : nParts size maxMultipartParts ≤ size :=
    (nParts_le_iff (by decide)).mpr (Nat.le_mul_of_pos_right size (by decide))
  by_cases hgrow : partSize < nParts size maxMultipartParts
  · rw [plannedCopyPartSize, copyPartSize, if_pos hgrow, if_pos hgrow]
    exact roundUp_eq (Nat.le_trans hmin hsize)
  · rw [plannedCopyPartSize, copyPartSize, if_neg hgrow, if_neg hgrow]

/-- A part with the last byte of its range. -/
def copyRangeOf (partSize size i : Nat) : CopyRange :=
  { partOf partSize size i with last := i * partSize + min partSize (size - i * partSize) - 1 }

theorem copyPlan_eq (hpart : 0 < partSize) (hsize : size ≤ 2 ^ 63) :
    copyPlan partSize size = some ((List.range (nParts size (copyPartSize partSize size))).map
      (copyRangeOf (copyPartSize partSize size) size)) := by
  have hpos : 0 < copyPartSize partSize size := Nat.lt_of_lt_of_le hpart (le_copyPartSize _ _)
  have hcount : nParts size (copyPartSize partSize size) ≤ maxMultipartParts :=
    (nParts_le_iff hpos).mpr (size_le_mul_copyPartSize partSize size)
  have hlt : nParts size (copyPartSize partSize size) < 2 ^ 31 :=
    Nat.lt_of_le_of_lt hcount (by decide)
  unfold copyPlan
  rw [plannedCopyPartSize_eq hsize, Option.bind_eq_bind, Option.bind_some, Checked.fit_of_lt hlt]
  refine mapM_eq_map fun i hi => ?_
  have hi := List.mem_range.mp hi
  have hoff := (lt_nParts_iff hpos).mp hi
  unfold planCopyPart
  rw [planPart_eq hpos hlt (by omega) hi, Option.bind_eq_bind, Option.bind_some]
  simp only [partOf]
  rw [Checked.add_of_lt (by omega), Option.bind_eq_bind, Option.bind_some, Checked.sub_of_le (by omega)]
  rfl

theorem map_copyRangeOf (partSize size n : Nat) :
    ((List.range n).map (copyRangeOf partSize size)).map CopyRange.toPartRange =
      (List.range n).map (partOf partSize size) := by
  rw [List.map_map]
  rfl

end Copies

end Rs5cmd
