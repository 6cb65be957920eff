import Rs5cmd.Mount.Held

/-!
# Two writers of one file

Each write handle has a cache file of its own, filled with the object when the
handle was opened, and uploads that file whole. Two handles on one file do not
see each other's writes: the object ends up as the file of the handle that
uploaded last.
-/

namespace Rs5cmd

open Cmd

variable {cfg : VfsConfig} {io : Io} {s : Vfs} {key : Str}

/-! ## What the handles do -/

/-- A write, flush or release of one of the two handles that succeeds. -/
def MountEvent.SucceedsOn (fh₁ fh₂ : Nat) : MountEvent → Prop
  | .op io (.write fh _ _) => (fh = fh₁ ∨ fh = fh₂) ∧ io.write = none
  | .op io (.flush fh) => (fh = fh₁ ∨ fh = fh₂) ∧ io.syncAll = none ∧ io.upload = none
  | .op io (.release fh) => (fh = fh₁ ∨ fh = fh₂) ∧ io.syncAll = none ∧ io.upload = none
  | _ => False

/-- The contents of the handle's file after its own writes. -/
def contentAfter (fh : Nat) : List MountEvent → List UInt8 → List UInt8
  | [], b => b
  | .op _ (.write k offset data) :: es, b =>
    contentAfter fh es (if k = fh then Bytes.writeAt offset data b else b)
  | .op _ (.release k) :: es, b => if k = fh then b else contentAfter fh es b
  | _ :: es, b => contentAfter fh es b

/-- The handle whose upload is the last one, given which open handles are dirty. -/
def lastUploader (dirty : Nat → Option Bool) : List MountEvent → Option Nat
  | [] => none
  | .op _ (.write k _ _) :: es =>
    lastUploader (Function.update dirty k ((dirty k).map fun _ => true)) es
  | .op _ (.flush k) :: es =>
    (lastUploader (Function.update dirty k ((dirty k).map fun _ => false)) es).or
      (if dirty k = some true then some k else none)
  | .op _ (.release k) :: es =>
    (lastUploader (Function.update dirty k none) es).or (if dirty k = some true then some k else none)
  | _ :: es => lastUploader dirty es

/-- The handle that an event releases. -/
def MountEvent.releases : MountEvent → Option Nat
  | .op _ (.release fh) => some fh
  | _ => none

/-- The handle is released at some point. -/
def Releases (fh : Nat) (es : List MountEvent) : Prop := ∃ e ∈ es, e.releases = some fh

theorem Releases.tail {fh : Nat} {e : MountEvent} {es : List MountEvent} (h : Releases fh (e :: es))
    (he : e.releases ≠ some fh) : Releases fh es := by
  obtain ⟨e', hmem, hrel⟩ := h
  rcases List.mem_cons.mp hmem with rfl | hmem
  · exact absurd hrel he
  · exact ⟨e', hmem, hrel⟩

theorem releases_other {e : MountEvent} (h : ∀ io fh, e ≠ .op io (.release fh)) (fh : Nat) :
    e.releases ≠ some fh := by
  unfold MountEvent.releases
  split
  · rename_i io fh'
    exact absurd rfl (h io fh')
  · simp

/-- Only an open handle uploads. -/
theorem lastUploader_open {dirty : Nat → Option Bool} {es : List MountEvent} {fh : Nat}
    (h : lastUploader dirty es = some fh) : dirty fh ≠ none := by
  fun_induction lastUploader dirty es with
  | case1 => cases h
  | case2 dirty io k offset data es ih =>
    intro hnone
    by_cases hk : fh = k
    · subst hk
      exact ih h (by simp [hnone])
    · exact ih h ((Function.update_of_ne hk _ _).trans hnone)
  | case3 dirty io k es ih =>
    intro hnone
    rcases Option.or_eq_some_iff.mp h with hlast | ⟨-, hthis⟩
    · by_cases hk : fh = k
      · subst hk
        exact ih hlast (by simp [hnone])
      · exact ih hlast ((Function.update_of_ne hk _ _).trans hnone)
    · split at hthis
      · rename_i hk
        obtain rfl := Option.some.inj hthis
        exact absurd (hnone.symm.trans hk) (by simp)
      · cases hthis
  | case4 dirty io k es ih =>
    intro hnone
    rcases Option.or_eq_some_iff.mp h with hlast | ⟨-, hthis⟩
    · by_cases hk : fh = k
      · subst hk
        exact ih hlast (by simp)
      · exact ih hlast ((Function.update_of_ne hk _ _).trans hnone)
    · split at hthis
      · rename_i hk
        obtain rfl := Option.some.inj hthis
        exact absurd (hnone.symm.trans hk) (by simp)
      · cases hthis
  | case5 dirty e es _ _ _ ih => exact ih h

/-- A dirty handle that is released uploads. -/
theorem lastUploader_ne_none {dirty : Nat → Option Bool} {es : List MountEvent} {fh : Nat}
    (hd : dirty fh = some true) (hrel : Releases fh es) : lastUploader dirty es ≠ none := by
  fun_induction lastUploader dirty es with
  | case1 =>
    obtain ⟨e, he, -⟩ := hrel
    cases he
  | case2 dirty io k offset data es ih =>
    refine ih ?_ (hrel.tail (by simp [MountEvent.releases]))
    by_cases hk : fh = k
    · subst hk
      simp [hd]
    · exact (Function.update_of_ne hk _ _).trans hd
  | case3 dirty io k es ih =>
    intro hnone
    obtain ⟨hlast, hthis⟩ := Option.or_eq_none_iff.mp hnone
    by_cases hk : fh = k
    · subst hk
      simp [hd] at hthis
    · exact ih ((Function.update_of_ne hk _ _).trans hd) (hrel.tail (by simp [MountEvent.releases])) hlast
  | case4 dirty io k es ih =>
    intro hnone
    obtain ⟨hlast, hthis⟩ := Option.or_eq_none_iff.mp hnone
    by_cases hk : fh = k
    · subst hk
      simp [hd] at hthis
    · refine ih ((Function.update_of_ne hk _ _).trans hd) (hrel.tail ?_) hlast
      simpa [MountEvent.releases] using Ne.symm hk
  | case5 dirty e es _ _ hno ih => exact ih hd (hrel.tail (releases_other hno fh))

/-- A clean handle that is released and does not upload was not written to. -/
theorem contentAfter_of_no_upload {dirty : Nat → Option Bool} {es : List MountEvent} {fh : Nat}
    (hd : dirty fh = some false) (hrel : Releases fh es) (h : lastUploader dirty es = none)
    (b : List UInt8) : contentAfter fh es b = b := by
  fun_induction lastUploader dirty es with
  | case1 => rfl
  | case2 dirty io k offset data es ih =>
    rw [contentAfter]
    have htail : Releases fh es := hrel.tail (by simp [MountEvent.releases])
    by_cases hk : k = fh
    · -- the write would be uploaded at the release
      subst hk
      exact absurd h (lastUploader_ne_none (by simp [hd]) htail)
    · rw [if_neg hk]
      exact ih ((Function.update_of_ne (Ne.symm hk) _ _).trans hd) htail h
  | case3 dirty io k es ih =>
    show contentAfter fh es b = b
    refine ih ?_ (hrel.tail (by simp [MountEvent.releases])) (Option.or_eq_none_iff.mp h).1
    by_cases hk : fh = k
    · subst hk
      simp [hd]
    · exact (Function.update_of_ne hk _ _).trans hd
  | case4 dirty io k es ih =>
    rw [contentAfter]
    by_cases hk : k = fh
    · rw [if_pos hk]
    · rw [if_neg hk]
      refine ih ((Function.update_of_ne (Ne.symm hk) _ _).trans hd) (hrel.tail ?_)
        (Option.or_eq_none_iff.mp h).1
      simpa [MountEvent.releases] using hk
  | case5 dirty e es hw hf hr ih =>
    rw [contentAfter]
    · exact ih hd (hrel.tail (releases_other hr fh)) h
    · exact hw
    · exact hr

/-! ## The abstract file -/

/-- A file shared by write handles: which are open and whether they are dirty,
the file of each, and the object. -/
structure SharedFile where
  dirty : Nat → Option Bool
  file : Nat → List UInt8
  object : Option (List UInt8)

namespace SharedFile

def write (v : SharedFile) (k offset : Nat) (data : List UInt8) : SharedFile :=
  match v.dirty k with
  | none => v
  | some _ =>
    { v with
      dirty := Function.update v.dirty k (some true)
      file := Function.update v.file k (Bytes.writeAt offset data (v.file k)) }

/-- An upload of a dirty handle, which is then clean or closed. -/
def upload (v : SharedFile) (k : Nat) (after : Option Bool) : SharedFile :=
  { v with
    dirty := Function.update v.dirty k after
    object := if v.dirty k = some true then some (v.file k) else v.object }

def step (v : SharedFile) : MountEvent → SharedFile
  | .op _ (.write k offset data) => v.write k offset data
  | .op _ (.flush k) => v.upload k ((v.dirty k).map fun _ => false)
  | .op _ (.release k) => v.upload k none
  | _ => v

/-- What the last upload stored, or the object as it was. -/
def outcome (v : SharedFile) (es : List MountEvent) : Option (List UInt8) :=
  match lastUploader v.dirty es with
  | some fh => some (contentAfter fh es (v.file fh))
  | none => v.object

theorem outcome_write (v : SharedFile) (io : Io) (k offset : Nat) (data : List UInt8)
    (es : List MountEvent) :
    (v.write k offset data).outcome es = v.outcome (.op io (.write k offset data) :: es) := by
  unfold outcome
  rw [lastUploader]
  unfold write
  cases hk : v.dirty k with
  | none =>
    have hsame : Function.update v.dirty k ((none : Option Bool).map fun _ => true) = v.dirty := by
      rw [Option.map_none, ← hk, Function.update_eq_self]
    rw [hsame]
    cases hlast : lastUploader v.dirty es with
    | none => rfl
    | some fh =>
      have hne : k ≠ fh := by
        rintro rfl
        exact lastUploader_open hlast hk
      dsimp only [contentAfter]
      rw [if_neg hne]
  | some u =>
    dsimp only [Option.map_some]
    cases lastUploader (Function.update v.dirty k (some true)) es with
    | none => rfl
    | some fh =>
      dsimp only [contentAfter]
      by_cases hkf : k = fh
      · subst hkf
        simp
      · simp [hkf, Ne.symm hkf]

/-- An upload is the outcome unless a later one follows. -/
theorem outcome_upload (v : SharedFile) (k : Nat) (after : Option Bool) (e : MountEvent)
    (es : List MountEvent)
    (hlast : lastUploader v.dirty (e :: es) =
      (lastUploader (Function.update v.dirty k after) es).or
        (if v.dirty k = some true then some k else none))
    (hcontent : ∀ fh b, lastUploader (Function.update v.dirty k after) es = some fh →
      contentAfter fh (e :: es) b = contentAfter fh es b)
    (hthis : v.dirty k = some true → lastUploader (Function.update v.dirty k after) es = none →
      contentAfter k (e :: es) (v.file k) = v.file k) :
    (v.upload k after).outcome es = v.outcome (e :: es) := by
  unfold outcome upload
  rw [hlast]
  dsimp only
  cases hrest : lastUploader (Function.update v.dirty k after) es with
  | some fh =>
    rw [Option.some_or]
    dsimp only
    rw [hcontent fh _ hrest]
  | none =>
    rw [Option.none_or]
    by_cases hd : v.dirty k = some true
    · rw [if_pos hd, if_pos hd]
      dsimp only
      rw [hthis hd hrest]
    · rw [if_neg hd, if_neg hd]

/-- The object after a schedule that releases each open handle. -/
theorem object_foldl (v : SharedFile) (es : List MountEvent)
    (hrel : ∀ k, v.dirty k ≠ none → Releases k es) :
    (es.foldl step v).object = v.outcome es := by
  induction es generalizing v with
  | nil => rfl
  | cons e es ih =>
    rw [List.foldl_cons]
    -- handles that are open after the event were open before, and are released later
    have hrest : ∀ k, v.dirty k ≠ none → e.releases ≠ some k → Releases k es :=
      fun k hk he => (hrel k hk).tail he
    cases e with
    | unmount removed => exact ih v fun k hk => hrest k hk (by simp [MountEvent.releases])
    | op io o =>
      cases o with
      | write k offset data =>
        rw [show v.step (.op io (.write k offset data)) = v.write k offset data from rfl,
          ← v.outcome_write io k offset data es]
        refine ih _ fun j hj => hrest j ?_ (by simp [MountEvent.releases])
        intro hnone
        apply hj
        unfold write
        cases hk : v.dirty k with
        | none => exact hnone
        | some u =>
          have hne : j ≠ k := by
            rintro rfl
            exact absurd (hnone.symm.trans hk) (by simp)
          exact (Function.update_of_ne hne _ _).trans hnone
      | flush k =>
        have hopen : ∀ j, (v.upload k ((v.dirty k).map fun _ => false)).dirty j ≠ none →
            v.dirty j ≠ none := by
          intro j hj hnone
          apply hj
          by_cases hjk : j = k
          · subst hjk
            simp [upload, hnone]
          · exact (Function.update_of_ne hjk _ _).trans hnone
        have hrel' := fun j hj => hrest j (hopen j hj) (by simp [MountEvent.releases])
        refine (ih _ hrel').trans (v.outcome_upload k _ _ es rfl (fun fh b _ => rfl) ?_)
        intro hd hno
        exact contentAfter_of_no_upload (by simp [hd])
          (hrest k (by simp [hd]) (by simp [MountEvent.releases])) hno _
      | release k =>
        have hrel' : ∀ j, (v.upload k none).dirty j ≠ none → Releases j es := by
          intro j hj
          have hjk : j ≠ k := by
            rintro rfl
            exact hj (Function.update_self _ _ _)
          refine hrest j ?_ (by simpa [MountEvent.releases] using Ne.symm hjk)
          rw [show (v.upload k none).dirty j = v.dirty j from Function.update_of_ne hjk _ _] at hj
          exact hj
        refine (ih _ hrel').trans (v.outcome_upload k _ _ es rfl ?_ ?_)
        · intro fh b hlast
          have hne : k ≠ fh := by
            rintro rfl
            exact lastUploader_open hlast (Function.update_self _ _ _)
          rw [contentAfter, if_neg hne]
        · intro _ _
          rw [contentAfter, if_pos rfl]
      | _ => exact ih v fun k hk => hrest k hk (by simp [MountEvent.releases])

end SharedFile

/-! ## The VFS refines it -/

theorem writer_withHandle (s : Vfs) (fh ino : Nat) (w : Writer) :
    (s.withHandle fh ⟨ino, .write w⟩).writer = Function.update s.writer fh (some w) := by
  funext k
  by_cases hk : k = fh
  · subst hk
    rw [Function.update_self]
    exact writer_of_handle (s.handles_withHandle_self k _)
  · rw [Function.update_of_ne hk]
    exact writer_congr (s.handles_withHandle_of_ne hk _)

theorem writer_close (s : Vfs) (fh : Nat) : (s.close fh).writer = Function.update s.writer fh none := by
  funext k
  by_cases hk : k = fh
  · subst hk
    rw [Function.update_self]
    simp [Vfs.writer]
  · rw [Function.update_of_ne hk]
    exact writer_congr (s.handles_close_of_ne hk)

/-- The handles of `P` share the object `key` as the abstract file says. -/
structure Shares (P : Nat → Prop) (key : Str) (s : Vfs) (v : SharedFile) : Prop where
  dirty : ∀ k, P k → v.dirty k = (s.writer k).map Writer.dirty
  file : ∀ k w, P k → s.writer k = some w →
    w.path = .h k ∧ w.dst.path = key ∧ s.cache (.h k) = some (v.file k)
  object : v.object = (s.bucket key).map Stored.bytes

variable {P : Nat → Prop} {v : SharedFile}

theorem shares_cacheFree : CacheFree fun s => Shares P key s v where
  attrCache _ _ h := ⟨h.dirty, h.file, h.object⟩
  dirCache _ _ h := ⟨h.dirty, h.file, h.object⟩
  dirtySizes _ _ h := ⟨h.dirty, h.file, h.object⟩

theorem Shares.write (h : Shares P key s v) {k : Nat} (hk : P k) (hio : io.write = none)
    (offset : Nat) (data : List UInt8) :
    Shares P key (Vfs.writeHandle io k offset data s).2 (v.write k offset data) := by
  have hd := h.dirty k hk
  unfold SharedFile.write
  rcases writer_eq_none_or s k with hno | ⟨ino, w, hh⟩
  · obtain ⟨e, he⟩ := writeHandle_noWriter io hno offset data
    rw [hno] at hd
    rw [he, hd]
    exact h
  · have hw := writer_of_handle hh
    obtain ⟨hpath, hkey, hcache⟩ := h.file k w hk hw
    have hfile : s.fileOf w = v.file k := by
      rw [Vfs.fileOf, hpath, hcache]
      rfl
    obtain ⟨u, hu, hup, -⟩ := writeHandle_ok hh hio offset data
    rw [hw] at hd
    rw [hu, hd]
    dsimp only [Option.map_some]
    refine shares_cacheFree.apply ?_ hup
    refine ⟨fun j hj => ?_, fun j x hj hx => ?_, h.object⟩
    · rw [writer_withHandle]
      by_cases hjk : j = k
      · subst hjk
        simp [Writer.wrote]
      · simp only [Function.update_of_ne hjk]
        exact h.dirty j hj
    · rw [writer_withHandle] at hx
      by_cases hjk : j = k
      · subst hjk
        rw [Function.update_self] at hx
        obtain rfl := Option.some.inj hx
        refine ⟨hpath, hkey, ?_⟩
        dsimp only
        rw [hpath, hfile, Function.update_self]
        exact s.cache_withFile_self (.h j) _
      · rw [Function.update_of_ne hjk] at hx
        obtain ⟨hp, hkey', hc⟩ := h.file j x hj hx
        refine ⟨hp, hkey', ?_⟩
        dsimp only
        rw [Function.update_of_ne hjk, ← hc, hpath]
        exact s.cache_withFile_of_ne (fun heq => hjk (CacheFile.h.inj heq)) _

/-- The handle `k` uploads if it is dirty, and is clean or closed then. -/
theorem Shares.upload (h : Shares P key s v) {k : Nat} (s' : Vfs) (after : Option Writer)
    (hwriter : s'.writer = Function.update s.writer k after)
    (hcache : ∀ j, j ≠ k ∨ after ≠ none → s'.cache (.h j) = s.cache (.h j))
    (hafter : ∀ w', after = some w' → ∃ w, s.writer k = some w ∧ w'.path = w.path ∧ w'.dst = w.dst)
    (hobject : (s'.bucket key).map Stored.bytes =
      if v.dirty k = some true then some (v.file k) else v.object) :
    Shares P key s' (v.upload k (after.map Writer.dirty)) := by
  refine ⟨fun j hj => ?_, fun j x hj hx => ?_, hobject.symm⟩
  · rw [hwriter]
    by_cases hjk : j = k
    · subst hjk
      simp [SharedFile.upload]
    · simp only [SharedFile.upload, Function.update_of_ne hjk]
      exact h.dirty j hj
  · rw [hwriter] at hx
    by_cases hjk : j = k
    · subst hjk
      rw [Function.update_self] at hx
      obtain ⟨w, hw, hpath, hdst⟩ := hafter x hx
      obtain ⟨hp, hkey, hc⟩ := h.file j w hj hw
      rw [hcache j (Or.inr (by simp [hx])), hpath, hdst]
      exact ⟨hp, hkey, hc⟩
    · rw [Function.update_of_ne hjk] at hx
      rw [hcache j (Or.inl hjk)]
      exact h.file j x hj hx

/-- Nothing happens to a handle that is closed. -/
theorem SharedFile.upload_closed {k : Nat} (h : v.dirty k = none) : v.upload k none = v := by
  have hsame : Function.update v.dirty k none = v.dirty := by
    rw [← h, Function.update_eq_self]
  unfold SharedFile.upload
  rw [hsame, h]
  rfl

/-- The flush of a handle that succeeds, and what is stored then. -/
theorem Shares.flushWriter (h : Shares P key s v) {k : Nat} (hk : P k) {w : Writer}
    (hw : s.writer k = some w) (hsync : io.syncAll = none) (hup : io.upload = none) {t : Vfs}
    (ht : t.cache = s.cache) (hb : t.bucket = s.bucket) :
    ∃ u, Vfs.flushWriter io w t = (.ok { w with dirty := false }, u) ∧ u.cache = t.cache ∧
      u.handles = t.handles ∧ (u.bucket key).map Stored.bytes =
        if v.dirty k = some true then some (v.file k) else v.object := by
  obtain ⟨hpath, hkey, hcache⟩ := h.file k w hk hw
  have hd := h.dirty k hk
  rw [hw] at hd
  cases hdirty : w.dirty with
  | false =>
    refine ⟨t, ?_, rfl, rfl, ?_⟩
    · rw [flushWriter_clean hdirty, ← hdirty]
    · rw [hd, Option.map_some, hdirty, hb, h.object]
      rfl
  | true =>
    have hfile : t.cache w.path = some (v.file k) := by rw [ht, hpath, hcache]
    refine ⟨_, flushWriter_dirty hdirty hfile hsync hup, rfl, rfl, ?_⟩
    rw [hd, Option.map_some, hdirty, hkey, Vfs.bucket_put_self]
    rfl

theorem Shares.flush (h : Shares P key s v) {k : Nat} (hk : P k) (hsync : io.syncAll = none)
    (hup : io.upload = none) :
    Shares P key (Vfs.flushHandle io k s).2 (v.upload k ((v.dirty k).map fun _ => false)) := by
  have hd := h.dirty k hk
  rcases writer_eq_none_or s k with hno | ⟨ino, w, hh⟩
  · rw [hno] at hd
    rw [flushHandle_noWriter io hno, hd, Option.map_none, Option.map_none, SharedFile.upload_closed hd]
    exact h
  · have hw := writer_of_handle hh
    obtain ⟨u, hu, hcache, hhandles, hobject⟩ := h.flushWriter hk hw hsync hup rfl rfl
    rw [flushHandle_ok hh hu, hd, hw]
    refine h.upload (u.withHandle k _) (some { w with dirty := false }) ?_
      (fun j _ => congrFun hcache _) ?_ hobject
    · rw [writer_withHandle]
      congr 1
      funext j
      exact writer_congr (by rw [hhandles])
    · intro w' hw'
      obtain rfl := Option.some.inj hw'
      exact ⟨w, hw, rfl, rfl⟩

theorem Shares.release (h : Shares P key s v) {k : Nat} (hk : P k) (hsync : io.syncAll = none)
    (hup : io.upload = none) : Shares P key (Vfs.release io k s).2 (v.upload k none) := by
  have hd := h.dirty k hk
  rcases writer_eq_none_or s k with hno | ⟨ino, w, hh⟩
  · rw [hno] at hd
    rw [SharedFile.upload_closed hd]
    rcases release_noWriter io hno with hrun | hrun
    · rw [hrun]
      exact h
    · have hsame : (s.close k).writer = s.writer := by
        rw [writer_close, ← hno, Function.update_eq_self]
      rw [hrun]
      exact ⟨fun j hj => by rw [hsame]; exact h.dirty j hj,
        fun j x hj hx => h.file j x hj (by rw [← hsame]; exact hx), h.object⟩
  · have hw := writer_of_handle hh
    obtain ⟨u, hu, hcache, hhandles, hobject⟩ := h.flushWriter hk hw hsync hup
      (t := s.close k) rfl rfl
    obtain ⟨r, hr, hup', -⟩ := release_ok hh hu
    rw [hr]
    refine shares_cacheFree.apply ?_ hup'
    refine h.upload (u.withFile w.path none) none ?_ (fun j hj => ?_) (by simp) hobject
    · rw [← writer_close]
      funext j
      exact writer_congr (show u.handles[j]? = _ by rw [hhandles])
    · have hjk : j ≠ k := hj.resolve_right (by simp)
      have hpath := (h.file k w hk hw).1
      refine (u.cache_withFile_of_ne ?_ none).trans (congrFun hcache _)
      show CacheFile.h j ≠ w.path
      rw [hpath]
      exact fun heq => hjk (CacheFile.h.inj heq)

/-! ## Runs of two handles -/

namespace Mounted

variable {m t : Mounted} {fh₁ fh₂ : Nat}

theorem exec_shares {e : MountEvent} (he : e.SucceedsOn fh₁ fh₂) (hstep : step cfg m e = some t)
    (h : Shares (fun k => k = fh₁ ∨ k = fh₂) key m.vfs v) :
    Shares (fun k => k = fh₁ ∨ k = fh₂) key t.vfs (v.step e) := by
  cases e with
  | unmount removed => cases he
  | op io o =>
    obtain ⟨-, rfl⟩ := step_op hstep
    show Shares _ key (o.exec cfg io m.vfs).2 _
    cases o with
    | write k offset data =>
      simp only [Op.exec, bind_pure_run]
      exact h.write he.1 he.2 offset data
    | flush k =>
      simp only [Op.exec, bind_pure_run]
      exact h.flush he.1 he.2.1 he.2.2
    | release k =>
      simp only [Op.exec, bind_pure_run]
      exact h.release he.1 he.2.1 he.2.2
    | _ => cases he

theorem run_shares {es : List MountEvent} (hes : ∀ e ∈ es, e.SucceedsOn fh₁ fh₂)
    (hrun : run cfg m es = some t) (h : Shares (fun k => k = fh₁ ∨ k = fh₂) key m.vfs v) :
    Shares (fun k => k = fh₁ ∨ k = fh₂) key t.vfs (es.foldl SharedFile.step v) := by
  induction es generalizing m v with
  | nil =>
    obtain rfl := Option.some.inj hrun
    exact h
  | cons e es ih =>
    obtain ⟨u, hu, hrest⟩ := Machine.run_cons_eq_some.mp hrun
    refine ih (fun e' he' => hes e' (List.mem_cons_of_mem e he')) hrest ?_
    exact exec_shares (hes e List.mem_cons_self) hu h

theorem running_of_run {es : List MountEvent} (hrun : run cfg m es = some t) (hne : es ≠ []) :
    m.running = true := by
  cases es with
  | nil => exact absurd rfl hne
  | cons e es =>
    obtain ⟨u, hu, -⟩ := Machine.run_cons_eq_some.mp hrun
    cases e with
    | op io o => exact (step_op hu).1
    | unmount removed => exact (step_unmount hu).1

/-- Which of the two handles have unsaved data. -/
def unsavedOf (m : Mounted) (fh₁ fh₂ fh : Nat) : Option Bool :=
  if fh = fh₁ ∨ fh = fh₂ then (m.images fh).map Image.unsaved else none

/-- **The last upload wins.** Two write handles are open on one file and upload to
one key. After any interleaving of their writes, flushes and releases that all
succeed and release both, the object is the file of the handle that uploaded last:
what that handle saw before, with its own writes. Without an upload the object is
what it was. -/
theorem last_upload_wins (cfg : VfsConfig) (rootKey : Str) (bucket : Str → Option Stored)
    {es₀ es : List MountEvent} (h₀ : run cfg (new rootKey bucket) es₀ = some m) {ino : Nat}
    {w₁ w₂ : Writer} (hw₁ : m.vfs.handles[fh₁]? = some ⟨ino, .write w₁⟩)
    (hw₂ : m.vfs.handles[fh₂]? = some ⟨ino, .write w₂⟩) (hdst : w₂.dst.path = w₁.dst.path)
    (hes : ∀ e ∈ es, e.SucceedsOn fh₁ fh₂) (hrel₁ : Releases fh₁ es) (hrel₂ : Releases fh₂ es)
    (hrun : run cfg m es = some t) :
    (t.vfs.bucket w₁.dst.path).map Stored.bytes =
      match lastUploader (m.unsavedOf fh₁ fh₂) es with
      | some fh => (m.images fh).map fun image => contentAfter fh es image.bytes
      | none => (m.vfs.bucket w₁.dst.path).map Stored.bytes := by
  have hne : es ≠ [] := by
    rintro rfl
    obtain ⟨e, he, -⟩ := hrel₁
    cases he
  have hheld := run_running_held h₀ (running_of_run hrun hne)
  -- the abstract file of the two handles
  let v : SharedFile :=
    ⟨m.unsavedOf fh₁ fh₂, fun k => ((m.images k).map Image.bytes).getD [],
      (m.vfs.bucket w₁.dst.path).map Stored.bytes⟩
  have hpair : ∀ k, k = fh₁ ∨ k = fh₂ →
      ∃ w, m.vfs.handles[k]? = some ⟨ino, .write w⟩ ∧ w.dst.path = w₁.dst.path := by
    rintro k (rfl | rfl)
    · exact ⟨w₁, hw₁, rfl⟩
    · exact ⟨w₂, hw₂, hdst⟩
  have hshares : Shares (fun k => k = fh₁ ∨ k = fh₂) w₁.dst.path m.vfs v := by
    refine ⟨fun k hk => ?_, fun k w hk hw => ?_, rfl⟩
    · obtain ⟨w, hh, -⟩ := hpair k hk
      obtain ⟨-, b, hg, -⟩ := hheld.writer k ino w hh
      show m.unsavedOf fh₁ fh₂ k = _
      rw [unsavedOf, if_pos hk, hg, writer_of_handle hh]
      rfl
    · obtain ⟨w', hh, hkey⟩ := hpair k hk
      obtain rfl : w' = w := Option.some.inj ((writer_of_handle hh).symm.trans hw)
      obtain ⟨hpath, b, hg, hcache⟩ := hheld.writer k ino w' hh
      refine ⟨hpath, hkey, ?_⟩
      show m.vfs.cache (.h k) = some (((m.images k).map Image.bytes).getD [])
      rw [hcache, hg]
      rfl
  have hrel : ∀ k, v.dirty k ≠ none → Releases k es := by
    intro k hk
    by_cases hp : k = fh₁ ∨ k = fh₂
    · rcases hp with rfl | rfl
      · exact hrel₁
      · exact hrel₂
    · exact absurd (if_neg hp) hk
  have hobject := (run_shares hes hrun hshares).object
  rw [v.object_foldl es hrel, SharedFile.outcome] at hobject
  rw [← hobject]
  cases hlast : lastUploader (m.unsavedOf fh₁ fh₂) es with
  | none => rfl
  | some fh =>
    dsimp only
    -- the uploader is open, so it has an image
    have hopen : m.unsavedOf fh₁ fh₂ fh ≠ none := lastUploader_open hlast
    unfold unsavedOf at hopen
    split at hopen
    · cases himage : m.images fh with
      | none => simp [himage] at hopen
      | some image =>
        show some (contentAfter fh es (((m.images fh).map Image.bytes).getD [])) = _
        rw [himage]
        rfl
    · exact absurd rfl hopen

/-- A mount of a bucket with an object of two zero bytes. -/
def twoZeros : Mounted :=
  new [] fun k => if k = "a".toList then some ⟨[0, 0], none⟩ else none

/-- The object is opened twice for writing. -/
def openTwice : List MountEvent :=
  [.op {} (.lookup rootInode "a".toList), .op {} (.openFile 2 1), .op {} (.openFile 2 1)]

/-- Each handle writes one byte, and both are released. -/
def writeApart : List MountEvent :=
  [.op {} (.write 1 0 [1]), .op {} (.write 2 1 [2]), .op {} (.release 1), .op {} (.release 2)]

theorem last_upload_wins_apart :
    ∃ m t, run .sample twoZeros openTwice = some m ∧ run .sample m writeApart = some t ∧
      (t.vfs.bucket "a".toList).map Stored.bytes =
        (m.images 2).map fun image => contentAfter 2 writeApart image.bytes := by
  obtain ⟨m, hm, hino₁, hkey₁, hino₂, hkey₂, hlast, hany⟩ :
      ∃ m, run .sample twoZeros openTwice = some m ∧
        (m.vfs.handles[1]?).map OpenFile.ino = some 2 ∧
        (m.vfs.writer 1).map (fun w => w.dst.path) = some "a".toList ∧
        (m.vfs.handles[2]?).map OpenFile.ino = some 2 ∧
        (m.vfs.writer 2).map (fun w => w.dst.path) = some "a".toList ∧
        lastUploader (m.unsavedOf 1 2) writeApart = some 2 ∧
        ((run .sample m writeApart).any fun t => decide (t.vfs.nextFh = 2)) = true :=
    Machine.exists_run_of_any (by decide +kernel)
  obtain ⟨w₁, hw₁, hdst₁⟩ := handle_of_writer hino₁ hkey₁
  obtain ⟨w₂, hw₂, hdst₂⟩ := handle_of_writer hino₂ hkey₂
  obtain ⟨t, ht, -⟩ := Machine.exists_run_of_any hany
  have hwins := last_upload_wins .sample [] _ hm hw₁ hw₂ (hdst₂.trans hdst₁.symm)
    (show ∀ e ∈ writeApart, e.SucceedsOn 1 2 by simp [writeApart, MountEvent.SucceedsOn])
    ⟨.op {} (.release 1), by simp [writeApart], rfl⟩ ⟨.op {} (.release 2), by simp [writeApart], rfl⟩ ht
  rw [hdst₁, hlast] at hwins
  exact ⟨m, t, hm, ht, hwins⟩

/-- The byte of the handle that was released first is lost. -/
theorem first_handle_update_lost :
    ∃ t, run .sample twoZeros (openTwice ++ writeApart) = some t ∧
      t.vfs.writer 1 = none ∧ t.vfs.writer 2 = none ∧
      (t.vfs.bucket "a".toList).map Stored.bytes = some [0, 2] :=
  Machine.exists_run_of_any (by decide +kernel)

end Mounted

end Rs5cmd
