import Rs5cmd.Storage.S3.PartPlan

/-!
# Part plans within the store's limits

A copy grows its parts where there would be too many, an upload does not.
-/

namespace Rs5cmd

/-- **When an upload stays within the limits, exactly**: 10,000 parts of the
configured size hold the file. -/
theorem upload_plan_iff (opts : UploadOpts) (env : UploadEnv) (data : List UInt8)
    (hsize : data.length ≤ 5 * 2 ^ 40) :
    (∃ plan, uploadPlan opts.partSize data.length = some plan ∧ Issues opts env data plan ∧
        WithinLimits data.length plan) ↔
      data.length ≤ maxMultipartParts * opts.partSize := by
  have hpos : 0 < opts.partSize := Nat.lt_of_lt_of_le (by decide) opts.le_partSize
  have hcount : nParts data.length opts.partSize < 2 ^ 31 := by
    have hle : nParts data.length opts.partSize ≤ 2 ^ 20 := (nParts_le_iff hpos).mpr (by
      have hmul := Nat.mul_le_mul_left (2 ^ 20) opts.le_partSize
      omega)
    omega
  rw [← withinLimits_partRanges opts.le_partSize, uploadPlan_eq hpos hcount (by omega)]
  constructor
  · rintro ⟨plan, hplan, -, hlimits⟩
    rwa [Option.some.inj hplan]
  · intro h
    exact ⟨_, rfl, issues_partRanges hcount, h⟩

namespace PartPlanSample

/-- Parts of 50 MiB. -/
def opts : UploadOpts where
  partSize := 50 * 1024 * 1024
  concurrency_pos := Nat.one_pos

/-- A file of 120 MiB and a byte. -/
def several : List UInt8 := List.replicate (120 * 1024 * 1024 + 1) 0

theorem length_several : several.length = 120 * 1024 * 1024 + 1 :=
  List.length_replicate

/-- The file goes up in two parts of 50 MiB and a shorter one. -/
theorem upload_plan_several :
    ∃ plan, uploadPlan opts.partSize several.length = some plan ∧ Issues opts {} several plan ∧
      WithinLimits several.length plan ∧ plan.length = 3 := by
  have hsize : several.length ≤ 5 * 2 ^ 40 := by
    rw [length_several]
    decide
  have hfits : several.length ≤ maxMultipartParts * opts.partSize := by
    rw [length_several]
    decide
  obtain ⟨plan, hplan, hissues, hlimits⟩ := (upload_plan_iff opts {} several hsize).mpr hfits
  have heq := hplan
  rw [length_several, uploadPlan_eq (by decide) (by decide) (by decide)] at heq
  refine ⟨plan, hplan, hissues, hlimits, ?_⟩
  rw [← Option.some.inj heq, length_partRanges]
  decide

/-- A file of 5 TiB. -/
def large : List UInt8 := List.replicate (5 * 2 ^ 40) 0

/-- A file of 5 TiB takes 104,858 parts. -/
theorem upload_plan_large : large.length ≤ 5 * 2 ^ 40 ∧
    ¬ ∃ plan, uploadPlan opts.partSize large.length = some plan ∧ Issues opts {} large plan ∧
      WithinLimits large.length plan := by
  have hlen : large.length = 5 * 2 ^ 40 := List.length_replicate
  rw [hlen]
  refine ⟨Nat.le_refl _, ?_⟩
  rintro ⟨plan, hplan, -, hlimits⟩
  rw [uploadPlan_eq (by decide) (by decide) (by decide)] at hplan
  rw [← Option.some.inj hplan, withinLimits_partRanges (by decide)] at hlimits
  exact absurd hlimits (by decide)

end PartPlanSample

/-- **A copy stays within the limits**, of whatever size its source is: nothing
overflows, each range ends where its part does, and the parts are completed in the
order of their numbers whatever the order in which they end. -/
theorem copy_plan (opts : CopyOpts) (env : CopyEnv) (data : List UInt8)
    (hsize : data.length ≤ 2 ^ 63) :
    ∃ plan, copyPlan opts.partSize data.length = some plan ∧
      WithinLimits data.length (plan.map CopyRange.toPartRange) ∧
      (∀ r ∈ plan, r.last + 1 = r.offset + r.len) ∧
      Issues (opts.forParts data.length) env.multipart data (plan.map CopyRange.toPartRange) ∧
      ∀ sched stored completed, copyParts opts env sched data = some (stored, .ok completed) →
        completed.map CompletedPart.partNumber = plan.map (·.partNumber) ∧
          completed.Pairwise fun a b => a.partNumber < b.partNumber := by
  have hpos : 0 < opts.partSize := Nat.lt_of_lt_of_le (by decide) opts.le_partSize
  have hle := le_copyPartSize opts.partSize data.length
  have hlimits := (withinLimits_partRanges
    (Nat.le_trans opts.le_partSize hle)).mpr (size_le_mul_copyPartSize _ _)
  have hcount : nParts data.length (opts.forParts data.length).partSize < 2 ^ 31 := by
    have hn := hlimits.count
    rw [length_partRanges] at hn
    exact Nat.lt_of_le_of_lt hn (by decide)
  refine ⟨_, copyPlan_eq hpos hsize, ?_, ?_, ?_, ?_⟩
  · rw [map_copyRangeOf]
    exact hlimits
  · intro r hr
    obtain ⟨i, hi, rfl⟩ := List.mem_map.mp hr
    have hlt := (lt_nParts_iff (by omega)).mp (List.mem_range.mp hi)
    simp only [copyRangeOf, partOf]
    omega
  · rw [map_copyRangeOf]
    have hissues : Issues _ env.multipart data _ := issues_partRanges hcount
    rw [partRanges] at hissues
    exact hissues
  · intro sched stored completed hrun
    rw [copyParts] at hrun
    have hcompleted := uploadParts_completed hrun
    rw [uploadPartCount_of_lt hcount] at hcompleted
    rw [hcompleted]
    refine ⟨?_, pairwise_allParts _ _ _ _⟩
    rw [allParts, List.map_map, List.map_map]
    rfl

open PartPlanSample in
/-- A copy in 25 parts of 5 MiB. -/
theorem copy_plan_several :
    ∃ plan, copyPlan (5 * 1024 * 1024) several.length = some plan ∧
      WithinLimits several.length (plan.map CopyRange.toPartRange) ∧ plan.length = 25 := by
  have hsize : several.length ≤ 2 ^ 63 := by
    rw [length_several]
    decide
  obtain ⟨plan, hplan, hlimits, -⟩ := copy_plan {} {} several hsize
  have heq := hplan
  rw [length_several, copyPlan_eq (by decide) (by decide)] at heq
  refine ⟨plan, hplan, hlimits, ?_⟩
  rw [← Option.some.inj heq, List.length_map, List.length_range]
  decide

end Rs5cmd
