import Rs5cmd.Mount.TableSpec

/-!
# Accounting for unflushed sizes

`dirty_sizes` is kept by inode, the writers by handle. The ledger beside the VFS
remembers what the map alone cannot tell: which writer of an inode was opened or
modified last, whether a release failed to upload since the last one that did not,
and whether a release has cleared the entry of a file that is still open.
-/

namespace Rs5cmd

open Cmd

/-! ## Writers -/

/-- The inode and the size of the writer behind a handle. -/
def Vfs.writerSize (s : Vfs) (fh : Nat) : Option (Nat × Nat) :=
  match s.handles[fh]? with
  | some ⟨ino, .write w⟩ => some (ino, w.size)
  | _ => none

/-- A handle is open for writing on the inode. -/
def Vfs.OpenOn (s : Vfs) (ino : Nat) : Prop := ∃ fh size, s.writerSize fh = some (ino, size)

/-- `OpenOn`, computed. -/
def Vfs.openOn (s : Vfs) (ino : Nat) : Bool :=
  s.handles.toList.any fun e =>
    match e.2.kind with
    | .write _ => e.2.ino = ino
    | .read _ _ => false

theorem writerSize_eq_some {s : Vfs} {fh ino size : Nat} :
    s.writerSize fh = some (ino, size) ↔
      ∃ w, s.handles[fh]? = some ⟨ino, .write w⟩ ∧ w.size = size := by
  unfold Vfs.writerSize
  constructor
  · intro h
    split at h
    · rename_i i w hh
      obtain ⟨rfl, rfl⟩ := Prod.mk.inj (Option.some.inj h)
      exact ⟨w, hh, rfl⟩
    · cases h
  · rintro ⟨w, hh, rfl⟩
    rw [hh]

theorem writerSize_of_handle {s : Vfs} {fh ino : Nat} {w : Writer}
    (h : s.handles[fh]? = some ⟨ino, .write w⟩) : s.writerSize fh = some (ino, w.size) :=
  writerSize_eq_some.mpr ⟨w, h, rfl⟩

theorem writerSize_of_noWriter {s : Vfs} {fh : Nat} (h : s.writer fh = none) :
    s.writerSize fh = none := by
  rcases hw : s.writerSize fh with _ | ⟨ino, size⟩
  · rfl
  · obtain ⟨w, hh, -⟩ := writerSize_eq_some.mp hw
    exact absurd (h.symm.trans (writer_of_handle hh)) (by simp)

theorem writerSize_congr {s s' : Vfs} {fh : Nat} (h : s'.handles[fh]? = s.handles[fh]?) :
    s'.writerSize fh = s.writerSize fh := by
  unfold Vfs.writerSize
  rw [h]

theorem openOn_iff {s : Vfs} {ino : Nat} : s.openOn ino = true ↔ s.OpenOn ino := by
  unfold Vfs.openOn Vfs.OpenOn
  rw [List.any_eq_true]
  constructor
  · rintro ⟨⟨fh, i, kind⟩, hmem, h⟩
    have hh := Std.ExtTreeMap.mem_toList_iff_getElem?_eq_some.mp hmem
    cases kind with
    | read _ _ => cases h
    | write w =>
      obtain rfl : i = ino := of_decide_eq_true h
      exact ⟨fh, w.size, writerSize_of_handle hh⟩
  · rintro ⟨fh, size, h⟩
    obtain ⟨w, hh, -⟩ := writerSize_eq_some.mp h
    exact ⟨_, Std.ExtTreeMap.mem_toList_iff_getElem?_eq_some.mpr hh, decide_eq_true rfl⟩

/-! ## The ledger -/

/-- For each inode, the handle and the size of the writer that was last opened or
modified; whether a release of one of its writers failed and none succeeded since;
and whether the last of these events was a release while another writer was open. -/
structure Ledger where
  recent : Nat → Option (Nat × Nat) := fun _ => none
  unsaved : Nat → Bool := fun _ => false
  early : Nat → Bool := fun _ => false

namespace Ledger

/-- A writer is opened or modified. -/
def touch (l : Ledger) (ino fh size : Nat) : Ledger :=
  { l with
    recent := Function.update l.recent ino (some (fh, size))
    early := Function.update l.early ino false }

/-- The writer of a handle after it was opened or modified. -/
def touched (l : Ledger) (s' : Vfs) (fh : Nat) : Ledger :=
  match s'.writerSize fh with
  | some (ino, size) => l.touch ino fh size
  | none => l

/-- A writer is released. -/
def released (l : Ledger) (ino : Nat) (others : Bool) : Ledger :=
  { l with
    unsaved := Function.update l.unsaved ino false
    early := Function.update l.early ino others }

/-- A writer is dropped with its upload failed. -/
def lost (l : Ledger) (ino : Nat) : Ledger :=
  { l with unsaved := Function.update l.unsaved ino true }

/-- The ledger after an operation that took `s` to `s'` and returned `r`. -/
def step (l : Ledger) (io : Io) (s : Vfs) (o : Op) (r : Except MountError Reply) (s' : Vfs) : Ledger :=
  match o, r with
  | .openFile _ _, .ok (.opened fh) => l.touched s' fh
  | .create _ _, .ok (.created _ fh _) => l.touched s' fh
  | .write fh _ _, .ok _ => l.touched s' fh
  -- a truncation may fail after it changed the writer, when it asks for the attributes
  | .setattr ino (some _) given, _ =>
    match s.findWriteHandle io ino given with
    | some (fh, _) => if io.setLen.isNone then l.touched s' fh else l
    | none => l
  | .release fh, r =>
    match s.writerSize fh with
    | none => l
    | some (ino, _) =>
      match r with
      | .ok _ => l.released ino (s'.openOn ino)
      | .error _ => l.lost ino
  | _, _ => l

end Ledger

/-- What the ledger explains about an inode: it has an entry if and only if a
handle is open for writing on it or a release of one has failed to upload, and the
entry has the size of the writer that was last opened or modified, which is still
open or among those whose upload failed. -/
structure Accounted (l : Ledger) (s : Vfs) (ino : Nat) : Prop where
  entry : s.dirtySizes[ino]?.isSome = true ↔ s.OpenOn ino ∨ l.unsaved ino = true
  size : ∀ size t, s.dirtySizes[ino]? = some (size, t) → ∃ fh, l.recent ino = some (fh, size) ∧
    (s.writerSize fh = some (ino, size) ∨
      l.unsaved ino = true ∧ ∀ n, s.writerSize fh ≠ some (ino, n))

/-! ## Effects -/

section Effects

variable {l : Ledger} {s s' : Vfs} {i fh ino size : Nat}

/-- The sizes and the writers are the same. -/
structure Quiet (s s' : Vfs) : Prop where
  dirtySizes : s'.dirtySizes = s.dirtySizes
  writers : ∀ fh, s'.writerSize fh = s.writerSize fh
  nextFh : s.nextFh ≤ s'.nextFh

theorem Quiet.refl (s : Vfs) : Quiet s s := ⟨rfl, fun _ => rfl, le_rfl⟩

theorem Quiet.accounted (hq : Quiet s s') (h : Accounted l s i) : Accounted l s' i where
  entry := by
    unfold Vfs.OpenOn
    simp only [hq.dirtySizes, hq.writers]
    exact h.entry
  size := by
    simp only [hq.dirtySizes, hq.writers]
    exact h.size

/-- A writer with its inode and size is opened or modified. -/
structure Touches (s s' : Vfs) (fh ino size : Nat) : Prop where
  dirtySizes : ∃ t, s'.dirtySizes = s.dirtySizes.insert ino (size, t)
  writer : s'.writerSize fh = some (ino, size)
  others : ∀ k, k ≠ fh → s'.writerSize k = s.writerSize k
  before : ∀ j n, s.writerSize fh = some (j, n) → j = ino
  nextFh : s.nextFh ≤ s'.nextFh
  known : fh ≤ s'.nextFh

theorem Touches.openOn (ht : Touches s s' fh ino size) (hi : i ≠ ino) : s'.OpenOn i ↔ s.OpenOn i := by
  constructor
  · rintro ⟨k, n, hk⟩
    by_cases hkf : k = fh
    · subst hkf
      rw [ht.writer] at hk
      exact absurd (Prod.mk.inj (Option.some.inj hk)).1.symm hi
    · exact ⟨k, n, (ht.others k hkf).symm.trans hk⟩
  · rintro ⟨k, n, hk⟩
    by_cases hkf : k = fh
    · subst hkf
      exact absurd (ht.before i n hk) hi
    · exact ⟨k, n, (ht.others k hkf).trans hk⟩

theorem Touches.accounted (ht : Touches s s' fh ino size) (h : i ≠ ino → Accounted l s i) :
    Accounted (l.touch ino fh size) s' i := by
  obtain ⟨t, hdirty⟩ := ht.dirtySizes
  by_cases hi : i = ino
  · subst hi
    refine ⟨?_, ?_⟩
    · rw [hdirty, Std.ExtTreeMap.getElem?_insert_self]
      exact ⟨fun _ => Or.inl ⟨fh, size, ht.writer⟩, fun _ => rfl⟩
    · intro size' t' hentry
      rw [hdirty, Std.ExtTreeMap.getElem?_insert_self] at hentry
      obtain ⟨rfl, rfl⟩ := Prod.mk.inj (Option.some.inj hentry)
      exact ⟨fh, Function.update_self .., Or.inl ht.writer⟩
  · have hget : s'.dirtySizes[i]? = s.dirtySizes[i]? := by
      rw [hdirty, Maps.getElem?_insert_of_ne (Ne.symm hi)]
    refine ⟨?_, ?_⟩
    · rw [hget, ht.openOn hi]
      exact (h hi).entry
    · intro size' t' hentry
      rw [hget] at hentry
      obtain ⟨k, hk, hopen⟩ := (h hi).size size' t' hentry
      refine ⟨k, (Function.update_of_ne hi ..).trans hk, ?_⟩
      by_cases hkf : k = fh
      · subst hkf
        -- the touched writer is on another inode, before and after
        have hno : ∀ n, s'.writerSize k ≠ some (i, n) := by
          intro n hn
          rw [ht.writer] at hn
          exact hi (Prod.mk.inj (Option.some.inj hn)).1.symm
        rcases hopen with hopen | ⟨hu, -⟩
        · exact absurd (ht.before i _ hopen) hi
        · exact Or.inr ⟨hu, hno⟩
      · rw [ht.others k hkf]
        exact hopen

/-- The writer of a handle is gone. -/
structure Closes (s s' : Vfs) (fh ino : Nat) : Prop where
  writer : s'.writerSize fh = none
  others : ∀ k, k ≠ fh → s'.writerSize k = s.writerSize k
  before : ∃ n, s.writerSize fh = some (ino, n)
  nextFh : s.nextFh ≤ s'.nextFh

theorem Closes.writerSize_of_some (hc : Closes s s' fh ino) {k j n : Nat}
    (h : s'.writerSize k = some (j, n)) : s.writerSize k = some (j, n) := by
  by_cases hkf : k = fh
  · subst hkf
    rw [hc.writer] at h
    cases h
  · exact (hc.others k hkf).symm.trans h

theorem Closes.writerSize_of_ne (hc : Closes s s' fh ino) {k j n : Nat} (hj : j ≠ ino)
    (h : s.writerSize k = some (j, n)) : s'.writerSize k = some (j, n) := by
  by_cases hkf : k = fh
  · subst hkf
    obtain ⟨m, hm⟩ := hc.before
    rw [hm] at h
    exact absurd (Prod.mk.inj (Option.some.inj h)).1.symm hj
  · exact (hc.others k hkf).trans h

/-- An inode of which no writer is closed keeps its entry and its ledger. -/
theorem Closes.accounted_of_ne (hc : Closes s s' fh ino) {l' : Ledger} (hi : i ≠ ino)
    (hget : s'.dirtySizes[i]? = s.dirtySizes[i]?) (hrecent : l'.recent i = l.recent i)
    (hunsaved : l'.unsaved i = l.unsaved i) (h : Accounted l s i) : Accounted l' s' i where
  entry := by
    rw [hget, hunsaved, h.entry]
    refine or_congr_left ⟨?_, ?_⟩
    · rintro ⟨k, n, hk⟩
      exact ⟨k, n, hc.writerSize_of_ne hi hk⟩
    · rintro ⟨k, n, hk⟩
      exact ⟨k, n, hc.writerSize_of_some hk⟩
  size := by
    intro size t hentry
    rw [hget] at hentry
    obtain ⟨k, hk, hopen⟩ := h.size size t hentry
    refine ⟨k, hrecent.trans hk, ?_⟩
    rcases hopen with hopen | ⟨hu, hno⟩
    · exact Or.inl (hc.writerSize_of_ne hi hopen)
    · exact Or.inr ⟨hunsaved.trans hu, fun n hn => hno n (hc.writerSize_of_some hn)⟩

/-- A successful release clears the entry; that is right unless another writer is
open. -/
theorem Closes.released (hc : Closes s s' fh ino) (hdirty : s'.dirtySizes = s.dirtySizes.erase ino)
    (h : i ≠ ino → Accounted l s i) (hearly : (l.released ino (s'.openOn ino)).early i = false) :
    Accounted (l.released ino (s'.openOn ino)) s' i := by
  by_cases hi : i = ino
  · subst hi
    have hclosed : ¬ s'.OpenOn i := by
      intro hopen
      have hflag : (l.released i (s'.openOn i)).early i = s'.openOn i := Function.update_self ..
      rw [hflag, openOn_iff.mpr hopen] at hearly
      cases hearly
    have hnone : s'.dirtySizes[i]? = none := by rw [hdirty, Std.ExtTreeMap.getElem?_erase_self]
    refine ⟨?_, ?_⟩
    · rw [hnone]
      refine ⟨nofun, ?_⟩
      rintro (hopen | hu)
      · exact absurd hopen hclosed
      · have hsaved : (l.released i (s'.openOn i)).unsaved i = false := Function.update_self ..
        rw [hsaved] at hu
        cases hu
    · intro size t hentry
      rw [hnone] at hentry
      cases hentry
  · refine hc.accounted_of_ne (l := l) hi ?_ rfl (Function.update_of_ne hi ..) (h hi)
    rw [hdirty, Maps.getElem?_erase_of_ne (Ne.symm hi)]

/-- A release that fails keeps the entry. -/
theorem Closes.lost (hc : Closes s s' fh ino) (hdirty : s'.dirtySizes = s.dirtySizes)
    (h : Accounted l s i) : Accounted (l.lost ino) s' i := by
  by_cases hi : i = ino
  · subst hi
    have hu : (l.lost i).unsaved i = true := Function.update_self ..
    have hopen : s.OpenOn i := by
      obtain ⟨n, hn⟩ := hc.before
      exact ⟨fh, n, hn⟩
    refine ⟨?_, ?_⟩
    · rw [hdirty]
      exact ⟨fun _ => Or.inr hu, fun _ => h.entry.mpr (Or.inl hopen)⟩
    · intro size t hentry
      rw [hdirty] at hentry
      obtain ⟨k, hk, hopen⟩ := h.size size t hentry
      refine ⟨k, hk, ?_⟩
      by_cases hkf : k = fh
      · subst hkf
        exact Or.inr ⟨hu, fun n hn => by rw [hc.writer] at hn; cases hn⟩
      · rw [hc.others k hkf]
        rcases hopen with hopen | ⟨-, hno⟩
        · exact Or.inl hopen
        · exact Or.inr ⟨hu, hno⟩
  · exact hc.accounted_of_ne (l := l) hi (by rw [hdirty]) rfl (Function.update_of_ne hi ..) h

end Effects

end Rs5cmd
