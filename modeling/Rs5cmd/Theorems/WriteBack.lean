import Rs5cmd.Mount.WriterRun

/-!
# Write-back semantics

Whatever is done to a writer, its cache file is the file that POSIX prescribes, its
size is the length of that file, and it is clean only when the store has exactly
those bytes.
-/

namespace Rs5cmd

open Cmd

/-- What a call does to the file. -/
def WriterOp.apply (f : PosixFile UInt8) : WriterOp → PosixFile UInt8
  | .write offset data => f.write offset data
  | .truncate newSize => f.truncate newSize
  | .read _ _ => f
  | .flush => f

namespace WriterRun

variable {io : Io} {fh ino : Nat} {s : WriterRun} {f : PosixFile UInt8}

/-- The file after the calls. -/
def posixFile (f : PosixFile UInt8) (calls : List WriterCall) : PosixFile UInt8 :=
  calls.foldl (fun f c => WriterOp.apply f c.op) f

/-- The local file operations of a call succeed, and a write writes something. No
local file is longer than `i64::MAX`. -/
def LocalOk (c : WriterCall) : Prop :=
  c.io.write = none ∧ c.io.setLen = none ∧
    match c.op with
    | .write offset data => data ≠ [] ∧ offset + data.length < 2 ^ 63
    | _ => True

/-- The writer holds the file `f`. -/
structure WriteBack (f : PosixFile UInt8) (s : WriterRun) : Prop where
  file : s.vfs.cache s.writer.path = some f.toList
  size : s.writer.size = f.length
  saved : s.writer.dirty = false → s.carried = some f.toList

/-! ## One call -/

theorem WriteBack.fileOf (h : WriteBack f s) : s.vfs.fileOf s.writer = f.toList := by
  rw [Vfs.fileOf, h.file, Option.getD_some]

theorem WriteBack.write (h : WriteBack f s) (hio : io.write = none) {offset : Nat}
    {data : List UInt8} (hdata : data ≠ []) (hfits : offset + data.length < 2 ^ 63) :
    WriteBack (f.write offset data) (s.after fh ino ⟨io, .write offset data⟩) := by
  have hrun : Vfs.writeWriter io fh ino s.writer offset data s.vfs =
      (.ok (s.writer.wrote offset data),
        (s.vfs.withFile s.writer.path (some (f.write offset data).toList)).withHandle fh
          ⟨ino, .write (s.writer.wrote offset data)⟩) := by
    rw [PosixFile.toList_write, ← h.fileOf]
    simp only [Vfs.writeWriter, get_bind, hio]
    rfl
  simp only [WriterRun.after, hrun, writerAfter]
  refine ⟨Vfs.cache_withFile_self _ _ _, ?_, ?_⟩
  · show max s.writer.size (min (offset + data.length) (2 ^ 64 - 1)) =
      if data = [] then f.length else max f.length (offset + data.length)
    rw [h.size, if_neg hdata, Nat.min_eq_left (by omega)]
  · intro hclean
    cases hclean

theorem WriteBack.truncate (h : WriteBack f s) (hio : io.setLen = none) (newSize : Nat) :
    WriteBack (f.truncate newSize) (s.after fh ino ⟨io, .truncate newSize⟩) := by
  have hrun : Vfs.truncateWriter io fh ino s.writer newSize s.vfs =
      (.ok (s.writer.truncated newSize),
        (s.vfs.withFile s.writer.path (some (f.truncate newSize).toList)).withHandle fh
          ⟨ino, .write (s.writer.truncated newSize)⟩) := by
    rw [PosixFile.toList_truncate, ← h.fileOf]
    simp only [Vfs.truncateWriter, get_bind, hio]
    rfl
  simp only [WriterRun.after, hrun, writerAfter]
  refine ⟨Vfs.cache_withFile_self _ _ _, rfl, ?_⟩
  intro hclean
  cases hclean

/-- A read returns the bytes of the file and changes nothing. -/
theorem WriteBack.read (h : WriteBack f s) (hio : io.readAt = none) (offset size : Nat) :
    Vfs.readWriter io s.writer offset size s.vfs = (.ok (f.read offset size), s.vfs) := by
  have hfile : (s.vfs.cache s.writer.path).getD [] = f.toList := h.fileOf
  rw [PosixFile.read_eq]
  unfold Vfs.readWriter
  rw [h.size]
  split
  · rename_i hpast
    have hnil : f.toList.drop offset = [] := by
      rw [List.drop_eq_nil_iff, PosixFile.length_toList]
      exact hpast
    rw [hnil, List.take_nil]
    rfl
  · simp only [hio, get_bind, hfile]
    have hlen : (f.toList.drop offset).length = f.length - offset := by
      rw [List.length_drop, PosixFile.length_toList]
    have htake : (f.toList.drop offset).take (min size (f.length - offset)) =
        (f.toList.drop offset).take size := by
      rw [List.take_eq_take_iff, hlen]
      omega
    rw [htake]
    rfl

theorem readWriter_same (io : Io) (w : Writer) (offset size : Nat) (v : Vfs) :
    (Vfs.readWriter io w offset size v).2 = v := by
  unfold Vfs.readWriter
  split
  · rfl
  · cases io.readAt with
    | some e => rfl
    | none => rfl

/-- A flush leaves the file, whether or not the upload succeeds. -/
theorem WriteBack.flush (h : WriteBack f s) : WriteBack f (s.after fh ino ⟨io, .flush⟩) := by
  rcases flushWriter_cases io s.writer s.vfs with
    ⟨hclean, hrun⟩ | ⟨hdirty, b, hb, hrun⟩ | ⟨hdirty, e, t, hrun, ht⟩
  · simp only [WriterRun.after, hrun, writerAfter, hclean, Bool.false_eq_true, if_false]
    exact h
  · obtain rfl : f.toList = b := Option.some.inj (h.file.symm.trans hb)
    simp only [WriterRun.after, hrun, writerAfter, hdirty, if_true, Vfs.bucket_put_self]
    exact ⟨h.file, h.size, fun _ => rfl⟩
  · simp only [WriterRun.after, hrun, writerAfter]
    refine ⟨?_, h.size, h.saved⟩
    rcases ht with rfl | ⟨b, -, rfl⟩
    · exact h.file
    · exact h.file

theorem WriteBack.after (h : WriteBack f s) {c : WriterCall} (hok : LocalOk c) :
    WriteBack (WriterOp.apply f c.op) (s.after fh ino c) := by
  obtain ⟨io, op⟩ := c
  obtain ⟨hwrite, hset, hop⟩ := hok
  cases op with
  | write offset data => exact h.write hwrite hop.1 hop.2
  | truncate newSize => exact h.truncate hset newSize
  | read offset size =>
    simp only [WriterRun.after, readWriter_same]
    exact h
  | flush => exact h.flush

/-! ## Runs -/

theorem WriteBack.run (h : WriteBack f s) {calls : List WriterCall} (hok : ∀ c ∈ calls, LocalOk c) :
    WriteBack (posixFile f calls) (s.run fh ino calls) := by
  induction calls generalizing f s with
  | nil => exact h
  | cons c calls ih =>
    exact ih (h.after (hok c List.mem_cons_self)) fun d hd => hok d (List.mem_cons_of_mem c hd)

/-- The drop removes the file of a clean writer only. -/
theorem WriteBack.drop (h : WriteBack f s) :
    (Vfs.dropWriter s.writer s.vfs).2.cache s.writer.path = none ↔ s.writer.dirty = false := by
  unfold Vfs.dropWriter
  cases hdirty : s.writer.dirty with
  | true =>
    refine ⟨fun hgone => ?_, fun hclean => by cases hclean⟩
    exact absurd (h.file.symm.trans hgone) (Option.some_ne_none _)
  | false => exact ⟨fun _ => rfl, fun _ => Vfs.cache_withFile_self s.vfs _ none⟩

/-! ## From `open` to the drop -/

/-- The writer that `open` makes of a populated cache file. -/
def opened (dst : Url) (p : CacheFile) (before : Vfs) (size : Nat) (dirty : Bool) (v : Vfs) :
    WriterRun where
  vfs := v
  writer := ⟨p, dst, size, dirty⟩
  carried := if dirty then none else (before.bucket dst.path).map Stored.bytes

/-- The size that `open` takes is the length of the file. -/
def Measured (p : CacheFile) (r : Nat × Bool) (v : Vfs) : Prop :=
  ∃ b, v.cache p = some b ∧ r.1 = b.length

theorem triple_openCacheFile (io : Io) (p : CacheFile) (trunc : Bool) :
    Triple (fun _ => True) (Vfs.openCacheFile io p trunc)
      (fun _ v => ∃ b, v.cache p = some b ∧ (trunc = true → b = [])) (fun _ _ => True) := by
  intro v _
  cases hio : io.openCache with
  | some e =>
    rw [openCacheFile_error hio]
    trivial
  | none =>
    rw [openCacheFile_ok hio]
    refine ⟨_, Vfs.cache_withFile_self _ _ _, fun htrunc => ?_⟩
    rw [htrunc, if_pos rfl]

theorem triple_startEmpty (io : Io) (p : CacheFile) :
    Triple (fun _ => True) (do
      Vfs.openCacheFile io p true
      return (0, true)) (Measured p) (fun _ _ => True) := by
  refine (triple_openCacheFile io p true).bind fun _ => triple_pure ?_
  rintro v ⟨b, hb, hempty⟩
  exact ⟨b, hb, by rw [hempty rfl, List.length_nil]⟩

theorem triple_populate (hmeta : io.metadata = none) (trunc : Bool) (dst : Url) (p : CacheFile) :
    Triple (fun _ => True) (Vfs.populate io trunc dst p) (Measured p) (fun _ _ => True) := by
  have htrivial : ∀ {α : Type} (m : VfsM α), Triple (fun _ => True) (attempt m)
      (fun _ _ => True) (fun _ _ => True) := fun _ _ _ => trivial
  unfold Vfs.populate
  split
  · exact triple_startEmpty io p
  · refine (htrivial _).bind fun found => ?_
    cases found with
    | error e =>
      dsimp only
      split
      · exact triple_startEmpty io p
      · exact triple_fail fun _ _ => trivial
    | ok obj =>
      refine (htrivial _).bind fun downloaded => ?_
      cases downloaded with
      | ok _ =>
        refine (triple_openCacheFile io p false).bind fun _ => ?_
        rintro v ⟨b, hb, -⟩
        rw [get_bind, hmeta]
        exact ⟨b, hb, by rw [hb, Option.getD_some]⟩
      | error e =>
        refine (triple_modify (f := _) (Q := fun _ _ => True) fun _ _ => trivial).bind fun _ => ?_
        split
        · exact triple_startEmpty io p
        · exact triple_fail fun _ _ => trivial

/-- A clean start is the object that was downloaded. -/
theorem opened_clean {trunc : Bool} {object : Option Stored}
    (h : (Image.opened io trunc object).unsaved = false) :
    object.map Stored.bytes = some (Image.opened io trunc object).bytes := by
  unfold Image.opened at h ⊢
  split
  · rename_i htrunc
    rw [if_pos htrunc] at h
    cases h
  · rename_i htrunc
    rw [if_neg htrunc] at h
    split
    · rfl
    · rename_i hnot
      split at h
      · rename_i o hstat hdown
        exact absurd rfl (hnot o hstat hdown)
      · cases h

theorem opened_writeBack {trunc dirty : Bool} {dst : Url} {p : CacheFile} {before v : Vfs} {size : Nat}
    (hopen : Vfs.populate io trunc dst p before = (.ok (size, dirty), v))
    (hmeta : io.metadata = none) :
    WriteBack (.ofList (Image.opened io trunc (before.bucket dst.path)).bytes)
      (opened dst p before size dirty v) := by
  have hmeasured := triple_populate hmeta trunc dst p before trivial
  have hspec := populate_spec io trunc dst p before
  rw [hopen] at hmeasured hspec
  obtain ⟨content, hfile, hsize⟩ := hmeasured
  rcases hspec with ⟨n, heq⟩ | ⟨e, c, heq⟩
  · obtain ⟨hvalue, rfl⟩ := Prod.mk.inj heq
    obtain ⟨-, rfl⟩ := Prod.mk.inj (Except.ok.inj hvalue)
    obtain rfl := Option.some.inj ((Vfs.cache_withFile_self before p _).symm.trans hfile)
    refine ⟨?_, hsize, fun hclean => ?_⟩
    · rw [PosixFile.toList_ofList]
      exact hfile
    · have hsaved : (Image.opened io trunc (before.bucket dst.path)).unsaved = false := hclean
      have hobject := opened_clean hsaved
      rw [opened, PosixFile.toList_ofList]
      simp only [hsaved, Bool.false_eq_true, if_false]
      exact hobject
  · cases (Prod.mk.inj heq).1

/-- A writer whose file is `f`. -/
structure ActsAs (f : PosixFile UInt8) (t : WriterRun) : Prop where
  file : t.vfs.cache t.writer.path = some f.toList
  size : t.writer.size = f.toList.length
  reads : ∀ io offset size, io.readAt = none →
    (Vfs.readWriter io t.writer offset size t.vfs).1 = .ok ((f.toList.drop offset).take size)
  /-- It is clean only when the last successful upload, or the download before any,
  carried these bytes. -/
  saved : t.writer.dirty = false → t.carried = some f.toList
  /-- The drop removes the file just when it is clean. -/
  dropped : (Vfs.dropWriter t.writer t.vfs).2.cache t.writer.path = none ↔ t.writer.dirty = false

/-- **Write-back.** A writer opened on any object, through any calls whose local file
operations succeed and whose uploads may fail, acts as the file that the writes and
truncations make of what was opened. -/
theorem write_back_posix {trunc dirty : Bool} {dst : Url} {p : CacheFile} {before v : Vfs} {size : Nat}
    (hopen : Vfs.populate io trunc dst p before = (.ok (size, dirty), v))
    (hmeta : io.metadata = none) (fh ino : Nat) (calls : List WriterCall)
    (hok : ∀ c ∈ calls, LocalOk c) :
    ActsAs (posixFile (.ofList (Image.opened io trunc (before.bucket dst.path)).bytes) calls)
      ((opened dst p before size dirty v).run fh ino calls) := by
  have h : WriteBack _ ((opened dst p before size dirty v).run fh ino calls) :=
    (opened_writeBack hopen hmeta).run hok
  refine ⟨h.file, ?_, ?_, h.saved, h.drop⟩
  · rw [PosixFile.length_toList]
    exact h.size
  · intro io offset size hio
    rw [h.read hio, PosixFile.read_eq]

end WriterRun

namespace WriteBackSample

open WriterRun

/-- A bucket with one object of three bytes. -/
def before : Vfs :=
  .new [] fun key => if key = "a".toList then some ⟨[1, 2, 3], none⟩ else none

def dst : Url := Url.parsed .remote "s3".toList "data".toList "a".toList {}

/-- A write past the end, a truncation, an upload that fails and one that succeeds. -/
def calls : List WriterCall :=
  [⟨{}, .write 5 [9]⟩, ⟨{}, .truncate 4⟩, ⟨{ upload := some (.msg [], false) }, .flush⟩, ⟨{}, .flush⟩]

/-- The hole is read as zeros. -/
example : (posixFile (.ofList [1, 2, 3]) calls).toList = [1, 2, 3, 0] := by decide

theorem write_back_sample :
    ActsAs (posixFile (.ofList (Image.opened {} false (before.bucket dst.path)).bytes) calls)
      ((opened dst (.h 1) before 3 false (Vfs.populate {} false dst (.h 1) before).2).run 1 2
        calls) := by
  have hopen : (Vfs.populate {} false dst (.h 1) before).1 = .ok (3, false) := rfl
  refine write_back_posix (Prod.ext hopen rfl) rfl 1 2 calls ?_
  intro c hc
  simp only [calls, List.mem_cons, List.not_mem_nil, or_false] at hc
  rcases hc with rfl | rfl | rfl | rfl
  · exact ⟨rfl, rfl, by decide, by decide⟩
  · exact ⟨rfl, rfl, trivial⟩
  · exact ⟨rfl, rfl, trivial⟩
  · exact ⟨rfl, rfl, trivial⟩

end WriteBackSample

end Rs5cmd
