import Rs5cmd.Theorems.RoundTrip

/-!
# Downloads of an object that is overwritten

The parts of a download are fetched by requests of their own, and nothing ties a
request to the version that answered the one before it. A file is therefore one
version of the object when one version answers all of its requests, and else it is
put together from the versions that answer them, byte by byte.
-/

namespace Rs5cmd

/-- The requests whose answers a successful download writes to its file: one for
each part of the size that the first one reports, or the fallback's. -/
def DownloadEnv.answered (opts : DownloadOpts) (env : DownloadEnv) : List (Option (Nat × Nat)) :=
  match env.get (some (0, opts.partSize - 1)) with
  | .error _ => [none]
  | .ok resp =>
    (List.range (nParts resp.total opts.partSize)).map (partRequest resp.total opts.partSize)

section Overwritten

variable {opts : DownloadOpts} {env : DownloadEnv} {sched : List (Pool.Event (Nat × Int))}
  {before : Option LocalFile} {out : DownloadOutcome} {version : Option (Nat × Nat) → List UInt8}

theorem assembled_of_answered {total partSize : Nat} {v : List UInt8} (hpos : 0 < partSize)
    (htotal : v.length = total) (h : ∀ i < nParts total partSize,
      version (partRequest total partSize i) = v) : assembled version total partSize = v := by
  apply List.ext_getElem?
  intro p
  by_cases hp : p < total
  · rw [getElem?_assembled hp, h _ (div_lt_nParts hpos hp), List.getElem?_eq_getElem (by omega),
      Option.getD_some]
  · rw [List.getElem?_eq_none (by simpa using hp), List.getElem?_eq_none (by omega)]

/-- The first answer reports the size of its content. -/
theorem ServesVersions.total_eq (hs : ServesVersions version env.get) {resp : GetResponse}
    (hget : env.get (some (0, opts.partSize - 1)) = .ok resp) :
    resp.total = (version (some (0, opts.partSize - 1))).length ∧
      0 < (version (some (0, opts.partSize - 1))).length := by
  obtain ⟨hpos, hcr, -⟩ := hs.answers (some (0, opts.partSize - 1)) resp hget
  have hlt := Nat.lt_trans (hs.size_lt (some (0, opts.partSize - 1))) (by decide : 2 ^ 63 < 2 ^ 64)
  exact ⟨by rw [GetResponse.total, hcr, parseContentRangeTotal_text hlt], hpos⟩

/-- **Downloads and overwrites.** Let the object have the content `contents k` after
`k` overwrites, and let `served r` of them come before the request `r` is served.
When the download returns success, its file is the complete content of a version
if that version answers all its requests (so if the first answer's version fits in
one part, or the object was empty at first). In every case each of its bytes is
from the version that answered the request of its part, or zero past the end of
that version, and the file has the length of the first answer's version. -/
theorem download_written_by_versions (opts : DownloadOpts) (env : DownloadEnv)
    (sched : List (Pool.Event (Nat × Int))) (before : Option LocalFile) (out : DownloadOutcome)
    (contents : Nat → List UInt8) (served : Option (Nat × Nat) → Nat) (hdry : opts.dryRun = false)
    (hs : ServesVersions (fun r => contents (served r)) env.get)
    (h : download opts env sched before = some out) (hok : out.result = .ok ()) :
    ∃ f, out.file = some f ∧
      (∀ k, (∀ r ∈ env.answered opts, contents (served r) = contents k) → f.bytes = contents k) ∧
      ((∃ e, env.get (some (0, opts.partSize - 1)) = .error e) → f.bytes = contents (served none)) ∧
      ∀ resp v, env.get (some (0, opts.partSize - 1)) = .ok resp →
        contents (served (some (0, opts.partSize - 1))) = v →
        f.bytes.length = v.length ∧ (v.length ≤ opts.partSize → f.bytes = v) ∧
          ∀ p < v.length, f.bytes[p]? = some (((contents (served
            (partRequest v.length opts.partSize (p / opts.partSize))))[p]?).getD 0) := by
  have hps : 0 < opts.partSize := Nat.lt_of_lt_of_le (by decide) opts.le_partSize
  obtain ⟨f, hf, ⟨⟨e, hget, -⟩, hbytes⟩ | ⟨⟨resp, hget⟩, hbytes⟩⟩ := download_assembled hdry hs h hok
  · -- the fallback asks once
    refine ⟨f, hf, ?_, fun _ => hbytes, ?_⟩
    · intro k hk
      rw [hbytes, hk none (by simp [DownloadEnv.answered, hget])]
    · intro resp v hresp
      rw [hget] at hresp
      cases hresp
  · obtain ⟨htotal, hpos⟩ := hs.total_eq hget
    have hmem : ∀ i < nParts resp.total opts.partSize,
        partRequest resp.total opts.partSize i ∈ env.answered opts := by
      intro i hi
      simp only [DownloadEnv.answered, hget, List.mem_map, List.mem_range]
      exact ⟨i, hi, rfl⟩
    have hparts : 0 < nParts resp.total opts.partSize := by
      rw [htotal]
      exact Nat.lt_of_le_of_lt (Nat.zero_le _) (div_lt_nParts hps hpos)
    rw [← htotal] at hbytes
    refine ⟨f, hf, ?_, ?_, ?_⟩
    · intro k hk
      have hfirst : contents (served (some (0, opts.partSize - 1))) = contents k :=
        hk _ (hmem 0 hparts)
      rw [hbytes]
      refine assembled_of_answered hps ?_ fun i hi => hk _ (hmem i hi)
      rw [htotal, hfirst]
    · rintro ⟨e, he⟩
      rw [hget] at he
      cases he
    · rintro resp' v - rfl
      rw [htotal] at hbytes
      refine ⟨by rw [hbytes, length_assembled], ?_, ?_⟩
      · intro hle
        rw [hbytes]
        refine assembled_of_answered hps rfl fun i hi => ?_
        -- there is only the first part
        have hone : nParts (contents (served (some (0, opts.partSize - 1)))).length opts.partSize ≤ 1 :=
          Nat.le_of_lt_succ ((Nat.div_lt_iff_lt_mul hps).mpr (by omega))
        obtain rfl : i = 0 := by omega
        rfl
      · intro p hp
        rw [hbytes, getElem?_assembled hp]

end Overwritten

/-! ## A mixed file -/

/-- An answer depends on the content only through its size and the range. -/
theorem serveObject_congr {obj obj' : List UInt8} {a b : Nat} (hlen : obj.length = obj'.length)
    (hcut : (obj.drop a).take (b + 1 - a) = (obj'.drop a).take (b + 1 - a)) :
    serveObject obj (some (a, b)) = serveObject obj' (some (a, b)) := by
  simp only [serveObject, hlen, hcut]

/-- A download whose first request is answered depends on the answers to that one
and to the ranges behind it. -/
theorem download_congr {opts : DownloadOpts} (env : DownloadEnv)
    (get' : Option (Nat × Nat) → Except GetError GetResponse) {resp : GetResponse}
    (hfirst : env.get (some (0, opts.partSize - 1)) = .ok resp)
    (hsame : get' (some (0, opts.partSize - 1)) = .ok resp)
    (hrest : ∀ a b, opts.partSize ≤ a → get' (some (a, b)) = env.get (some (a, b)))
    (sched : List (Pool.Event (Nat × Int))) (before : Option LocalFile) :
    download opts { env with get := get' } sched before = download opts env sched before := by
  have hwork : ∀ total, (fun j => partWork { env with get := get' } total opts.partSize (j + 1)) =
      fun j => partWork env total opts.partSize (j + 1) := by
    intro total
    funext j ph e f
    cases ph with
    | fetching =>
      have hoff : opts.partSize ≤ (partRange total opts.partSize (j + 1)).1 :=
        Nat.le_mul_of_pos_left _ (Nat.succ_pos j)
      simp only [partWork, fetchPart, hrest _ _ hoff]
      rfl
    | writing off data result => rfl
  have hparts : ∀ total f, downloadRemainingParts opts { env with get := get' } sched total f =
      downloadRemainingParts opts env sched total f := by
    intro total f
    rw [downloadRemainingParts, partTasks, hwork total]
    rfl
  simp only [download, downloadParts, hfirst, hsame, hparts]
  rfl

namespace Overwritten

/-- Six MiB of ones are overwritten by six MiB of twos. -/
def contents : Nat → List UInt8
  | 0 => List.replicate (6 * 1024 * 1024) 1
  | _ + 1 => List.replicate (6 * 1024 * 1024) 2

/-- The overwrite comes between the first request and all others. -/
def served (r : Option (Nat × Nat)) : Nat := if r = some (0, 5 * 1024 * 1024 - 1) then 0 else 1

def env : DownloadEnv where
  get r := serveObject (contents (served r)) r

theorem env_get (r : Option (Nat × Nat)) : env.get r = serveObject (contents (served r)) r := rfl

/-- What comes of it. -/
def mixed : List UInt8 := List.replicate (5 * 1024 * 1024) 1 ++ List.replicate (1024 * 1024) 2

def mixedEnv : DownloadEnv := { get := serveObject mixed }

theorem mixedEnv_get (r : Option (Nat × Nat)) : mixedEnv.get r = serveObject mixed r := rfl

theorem length_contents (k : Nat) : (contents k).length = 6 * 1024 * 1024 := by
  cases k with
  | zero => rw [contents, List.length_replicate]
  | succ k => rw [contents, List.length_replicate]

theorem length_mixed : mixed.length = 6 * 1024 * 1024 := by
  rw [mixed, List.length_append, List.length_replicate, List.length_replicate]

theorem serves : ServesVersions (fun r => contents (served r)) env.get where
  size_lt r := by
    rw [length_contents]
    omega
  answers r := by
    have hlt : (contents (served r)).length < 2 ^ 63 := by
      rw [length_contents]
      omega
    cases r with
    | none => exact (servesRanges_serveObject hlt).whole
    | some r => exact (servesRanges_serveObject hlt).range r.1 r.2

theorem get_first :
    env.get (some (0, 5 * 1024 * 1024 - 1)) = serveObject mixed (some (0, 5 * 1024 * 1024 - 1)) := by
  have hserved : served (some (0, 5 * 1024 * 1024 - 1)) = 0 := if_pos rfl
  rw [env_get, hserved]
  refine serveObject_congr ((length_contents 0).trans length_mixed.symm) ?_
  rw [List.drop_zero, List.drop_zero, contents, mixed,
    List.take_append_of_le_length (by rw [List.length_replicate]), List.take_replicate,
    List.take_replicate]
  congr 1

theorem get_rest {a b : Nat} (ha : 5 * 1024 * 1024 ≤ a) :
    env.get (some (a, b)) = serveObject mixed (some (a, b)) := by
  have hserved : served (some (a, b)) = 1 := by
    refine if_neg fun h => ?_
    simp only [Option.some.injEq, Prod.mk.injEq] at h
    omega
  rw [env_get, hserved]
  refine serveObject_congr ((length_contents 1).trans length_mixed.symm) ?_
  rw [contents, mixed, List.drop_append, List.drop_replicate, List.drop_replicate,
    List.drop_replicate, List.length_replicate, show 5 * 1024 * 1024 - a = 0 by omega,
    List.replicate_zero, List.nil_append,
    show 6 * 1024 * 1024 - a = 1024 * 1024 - (a - 5 * 1024 * 1024) by omega]

/-- The download of the two versions is that of the mixed content. -/
theorem download_mixed (sched : List (Pool.Event (Nat × Int))) :
    download {} env sched none = download {} mixedEnv sched none := by
  have hsize : ({} : DownloadOpts).partSize = 5 * 1024 * 1024 := rfl
  obtain ⟨resp, hget⟩ : ∃ resp, serveObject mixed (some (0, 5 * 1024 * 1024 - 1)) = .ok resp := by
    rw [serveObject, if_pos (by rw [length_mixed]; omega)]
    exact ⟨_, rfl⟩
  apply download_congr mixedEnv env.get
  · show mixedEnv.get _ = .ok resp
    rw [hsize, mixedEnv_get, hget]
  · rw [hsize, get_first, hget]
  · intro a b ha
    rw [hsize] at ha
    rw [mixedEnv_get, get_rest ha]

/-- There is such a download, and it returns success. -/
theorem exists_download_mixed : ∃ sched out f, download {} env sched none = some out ∧
    out.result = .ok () ∧ out.file = some f ∧ f.bytes = mixed := by
  have hlt : mixed.length < 2 ^ 63 := by
    rw [length_mixed]
    omega
  obtain ⟨sched, out, hout⟩ := exists_download {} mixedEnv none
  have hok := download_faultless ⟨rfl, rfl, rfl, fun _ => rfl, fun _ => rfl, rfl⟩
    (answersRanges_serveObject hlt) hout
  obtain ⟨f, hf, hbytes⟩ := download_success rfl (servesRanges_serveObject hlt) hout hok
  exact ⟨sched, out, f, (download_mixed sched).trans hout, hok, hf, hbytes⟩

theorem mixed_ne_contents (k : Nat) : mixed ≠ contents k := by
  intro heq
  cases k with
  | zero =>
    -- the last part is from the other version
    have hbyte := congrArg (fun l : List UInt8 => l[5 * 1024 * 1024]?) heq
    simp only [mixed, contents] at hbyte
    rw [List.getElem?_append_right (by rw [List.length_replicate]), List.length_replicate,
      List.getElem?_replicate, List.getElem?_replicate, if_pos (by omega), if_pos (by omega)] at hbyte
    exact absurd hbyte (by decide)
  | succ k =>
    have hbyte := congrArg (fun l : List UInt8 => l[0]?) heq
    simp only [mixed, contents] at hbyte
    rw [List.getElem?_append_left (by rw [List.length_replicate]; omega),
      List.getElem?_replicate, List.getElem?_replicate, if_pos (by omega), if_pos (by omega)] at hbyte
    exact absurd hbyte (by decide)

/-- The two parts of the file are from two versions. -/
theorem download_written_by_versions_mixed :
    ∃ sched out f, download {} env sched none = some out ∧ out.file = some f ∧
      f.bytes.length = 6 * 1024 * 1024 ∧ f.bytes[0]? = some 1 ∧ f.bytes[5 * 1024 * 1024]? = some 2 := by
  obtain ⟨sched, out, -, hout, hok, -, -⟩ := exists_download_mixed
  obtain ⟨resp, hresp⟩ : ∃ resp, env.get (some (0, 5 * 1024 * 1024 - 1)) = .ok resp := by
    rw [get_first, serveObject, if_pos (by rw [length_mixed]; omega)]
    exact ⟨_, rfl⟩
  obtain ⟨f, hf, -, -, hall⟩ := download_written_by_versions {} env sched none out contents served rfl
    serves hout hok
  obtain ⟨hlen, -, hbytes⟩ := hall resp (contents 0) hresp rfl
  rw [length_contents] at hlen hbytes
  refine ⟨sched, out, f, hout, hf, hlen, ?_, ?_⟩
  · have hserved : served (partRequest (6 * 1024 * 1024) ({} : DownloadOpts).partSize
        (0 / ({} : DownloadOpts).partSize)) = 0 := by decide +kernel
    rw [hbytes 0 (by omega), hserved, contents, List.getElem?_replicate, if_pos (by omega)]
    rfl
  · have hserved : served (partRequest (6 * 1024 * 1024) ({} : DownloadOpts).partSize
        (5 * 1024 * 1024 / ({} : DownloadOpts).partSize)) = 1 := by decide +kernel
    rw [hbytes (5 * 1024 * 1024) (by omega), hserved, contents, List.getElem?_replicate,
      if_pos (by omega)]
    rfl

/-- The download returns success and its file is no version of the object. -/
theorem mixed_download_is_no_version :
    ServesVersions (fun r => contents (served r)) env.get ∧
      ∃ sched out f, download {} env sched none = some out ∧ out.result = .ok () ∧
        out.file = some f ∧ ∀ k, f.bytes ≠ contents k := by
  obtain ⟨sched, out, f, hout, hok, hf, hbytes⟩ := exists_download_mixed
  refine ⟨serves, sched, out, f, hout, hok, hf, fun k => ?_⟩
  rw [hbytes]
  exact mixed_ne_contents k

end Overwritten

end Rs5cmd
