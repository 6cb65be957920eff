import Rs5cmd.Theorems.Transfer

/-!
# Paths in a run of transfers

A `World` names a local file by the location its path has lexically. The operating system
goes down the path and takes up the links it meets. In a run of separate transfers it comes
to the same entry, in every state: where a file is opened, and where an entry is made or
removed. And what is written to a file shows in no other cell that a transfer touches.
-/

namespace Rs5cmd

open LexPath

namespace Job

/-- The entry that the operating system comes to when it opens a path. -/
def opened (job : Job) (w : World) (p : Str) : Option (Loc Name) :=
  namei w.link World.maxLinks (job.base p) (segsOf p)

/-- The entry that the operating system makes or removes at a path. -/
def entered (job : Job) (w : World) (p : Str) : Option (Loc Name) :=
  entryAt w.link World.maxLinks (job.base p) (segsOf p)

theorem fileLoc_eq_walk (job : Job) (p : Str) : job.fileLoc p = (job.base p).walk (segsOf p) :=
  locFrom_eq_walk (locOf job.cwd) p

/-- The last name of a path is its last segment. -/
theorem segsOf_of_endsInName {p : Str} (h : endsInName p = true) :
    ∃ s a, segsOf p = s ++ [.name a] := by
  unfold endsInName at h
  split at h
  · rename_i name hlast
    obtain ⟨pieces, hpieces⟩ := List.getLast?_eq_some_iff.mp hlast
    refine ⟨pieces.filterMap toSeg, ⟨name, of_decide_eq_true h⟩, ?_⟩
    simp [segsOf, hpieces, toSeg, of_decide_eq_true h]
  · cases h

/-! ## Links that a run makes -/

section Links

variable {job : Job} {w w' w₀ : World} {pr : Url × Url}

/-- Whether a transfer recreates a link is said by its URLs. -/
theorem transferOf_eq_downloadLink (h : job.transferOf w pr = .downloadLink) (w' : World) :
    job.transferOf w' pr = .downloadLink := by
  unfold transferOf at h ⊢
  cases hsrc : pr.1.isRemote with
  | false =>
    simp only [hsrc, Bool.and_false, Bool.false_and, Bool.false_eq_true, if_false] at h
    split at h
    · cases h
    · split at h <;> simp at h
  | true =>
    simp only [hsrc, Bool.not_true, Bool.and_false, Bool.false_and, Bool.false_eq_true,
      if_false] at h ⊢
    split
    · rfl
    · rename_i hno
      rw [if_neg hno] at h
      split at h <;> cases h

/-- Files are written, and links recreated, at local destinations. -/
theorem isRemote_of_file
    (h : (job.transferOf w pr).truncates = true ∨ job.transferOf w pr = .downloadLink) :
    pr.2.isRemote = false := by
  cases hdst : pr.2.isRemote with
  | false => rfl
  | true =>
    unfold transferOf at h
    rw [hdst] at h
    cases hsrc : pr.1.isRemote with
    | true => simp [hsrc, Transfer.truncates] at h
    | false =>
      simp only [hsrc, Bool.not_false, Bool.and_true, Bool.and_false, Bool.false_and,
        Bool.false_eq_true, if_false] at h
      split at h <;> simp [Transfer.truncates] at h

/-- What `v` holds is no link, or it is the link that a transfer recreates. -/
def Makes (job : Job) (pr : Url × Url) (c : Cell) (v : Option Content) : Prop :=
  (∀ t, v ≠ some (.link t)) ∨
    c = job.dstCell .downloadLink pr.2 ∧ ∀ w, job.transferOf w pr = .downloadLink

theorem store_makes {t : Transfer} {data : List UInt8}
    (ht : t = .downloadLink → ∀ w, job.transferOf w pr = .downloadLink)
    (h : job.store w t pr.2 data = some w') : ∃ c v, w' = w.set c v ∧ job.Makes pr c v := by
  cases t with
  | copy | upload | uploadLink => exact ⟨_, _, (Option.some.inj h).symm, .inl (by simp)⟩
  | download | fsCopy =>
    obtain ⟨l, -, rfl⟩ := Option.map_eq_some_iff.mp h
    exact ⟨_, _, rfl, .inl (by simp)⟩
  | downloadLink =>
    rw [store] at h
    split at h
    · exact ⟨_, _, (Option.some.inj h).symm, .inr ⟨rfl, ht rfl⟩⟩
    · cases h

/-- What is known of the branch a transfer has taken. -/
def BranchOk (job : Job) (pr : Url × Url) : Phase → Prop
  | .copying t _ _ => t = .downloadLink → ∀ w, job.transferOf w pr = .downloadLink
  | _ => True

/-- A step leaves the world alone, or puts something into one cell, which is a link only
where the transfer recreates one. -/
theorem copyOne_makes {ph : Phase} {ev : Event} {out : Phase ⊕ Except StorageError Unit}
    (hph : job.BranchOk pr ph) (h : job.copyOne pr ph ev w = some (w', out)) :
    (w' = w ∨ ∃ c v, w' = w.set c v ∧ job.Makes pr c v) ∧
      ∀ ph', out = .inl ph' → job.BranchOk pr ph' := by
  cases copyOne_effect h with
  | idle ph r => exact ⟨.inl rfl, by simp⟩
  | start b hb =>
    refine ⟨.inl rfl, ?_⟩
    rintro _ ⟨rfl⟩
    exact fun ht w' => transferOf_eq_downloadLink ht w'
  | read t first got n =>
    refine ⟨.inl rfl, ?_⟩
    rintro _ ⟨rfl⟩
    exact hph
  | overwrite t first got data n w' htrunc hstore =>
    refine ⟨.inr (store_makes hph hstore), ?_⟩
    rintro _ ⟨rfl⟩
    exact hph
  | commit t first got w' out hrest hstore hout =>
    refine ⟨.inr (store_makes hph hstore), ?_⟩
    intro ph' hph'
    obtain ⟨rfl, -⟩ := hout ph' hph'
    trivial
  | unlink first got r => exact ⟨.inr ⟨_, _, rfl, .inl (by simp)⟩, by simp⟩
  | delete r => exact ⟨.inr ⟨_, _, rfl, .inl (by simp)⟩, by simp⟩

/-- An entry that is no link and where no transfer recreates one stays so. -/
theorem next_stays {x : Loc Name} (hx : w₀.next x = none)
    (hmade : ∀ pr ∈ job.pairs, job.transferOf w₀ pr = .downloadLink →
      job.dstCell .downloadLink pr.2 ≠ .file x)
    {sched : List (Pool.Event Event)} {p : CopyPool}
    (h : Machine.run (Pool.step job.tasks) { shared := w₀ } sched = some p) :
    p.shared.next x = none := by
  have hstep : ∀ i ph e w w' (out : Phase ⊕ Except StorageError Unit), w.next x = none →
      (∀ pr, job.pairs[i]? = some pr → job.BranchOk pr ph) →
      job.tasks.work i ph e w = some (w', out) →
      w'.next x = none ∧ ∀ ph', out = .inl ph' →
        ∀ pr, job.pairs[i]? = some pr → job.BranchOk pr ph' := by
    intro i ph e w w' out hw hph hwork
    simp only [tasks] at hwork
    split at hwork
    · rename_i pr hi
      obtain ⟨hchange, hnext⟩ := copyOne_makes (hph pr hi) hwork
      refine ⟨?_, ?_⟩
      · rcases hchange with rfl | ⟨c, v, rfl, hv⟩
        · exact hw
        · by_cases hxc : .file x = c
          · subst hxc
            rcases hv with hno | ⟨hat, hlink⟩
            · rw [← World.link_eq_none, World.link, World.set_same]
              split
              · rename_i t
                exact absurd rfl (hno t)
              · rfl
            · exact absurd hat.symm (hmade pr (List.mem_of_getElem? hi) (hlink w₀))
          · rw [World.next_set_other v hxc, hw]
      · intro ph' hout pr' hi'
        obtain rfl := Option.some.inj (hi.symm.trans hi')
        exact hnext ph' hout
    · cases hwork
  have hinv := Pool.run_inv (T := job.tasks) (I := fun w => w.next x = none)
    (Q := fun i ph => ∀ pr, job.pairs[i]? = some pr → job.BranchOk pr ph) (R := fun _ _ => True)
    (fun _ _ _ _ => trivial)
    (fun i ph e w w' ph' hw hph hwork =>
      ⟨(hstep i ph e w w' _ hw hph hwork).1, (hstep i ph e w w' _ hw hph hwork).2 ph' rfl⟩)
    (fun i ph e w w' r hw hph hwork => ⟨(hstep i ph e w w' _ hw hph hwork).1, trivial⟩) hx h
  exact hinv.shared

/-- No directory on the way to a file becomes a link. -/
theorem Lexical.stays (hlex : job.Lexical w₀) {sched : List (Pool.Event Event)} {p : CopyPool}
    (h : Machine.run (Pool.step job.tasks) { shared := w₀ } sched = some p) (hpr : pr ∈ job.pairs)
    {x : Loc Name} (hx : x ∈ job.directories w₀ pr) : p.shared.next x = none := by
  refine next_stays (hlex.directories pr hpr x hx) ?_ h
  intro q hq ht hat
  refine hlex.made q hq ht pr hpr x hx ?_
  simp [writes, ht, Transfer.truncates, hat]

end Links

/-! ## Opening -/

section Open

variable {job : Job} {w w₀ : World} {path : Str}

/-- Where the links on the way are as they were, a path opens where it leads lexically. -/
theorem opened_of_chain (hdirs : ∀ x ∈ job.directoriesOf w₀ true path, w.next x = none)
    (hchain : ∀ x ∈ w₀.chain (job.fileLoc path), w.link x = w₀.link x) :
    job.opened w path = w.resolve (job.fileLoc path) := by
  have hsame : passedBy w.link World.maxLinks (job.base path) (segsOf path) =
      passedBy w₀.link World.maxLinks (job.base path) (segsOf path) := by
    refine passedBy_congr ?_
    rw [← World.next_eq_linked, ← fileLoc_eq_walk]
    exact hchain
  rw [opened, World.resolve, fileLoc_eq_walk, World.next_eq_linked]
  refine namei_eq_follow ?_
  intro x hx
  rw [hsame] at hx
  exact World.link_eq_none.mpr (hdirs x hx)

/-- A path at whose end there is no link opens there. -/
theorem opened_of_none (hdirs : ∀ x ∈ job.directoriesOf w₀ true path, w.next x = none)
    (hnone : w.next (job.fileLoc path) = none) :
    job.opened w path = w.resolve (job.fileLoc path) := by
  rw [opened, World.resolve, fileLoc_eq_walk, World.next_eq_linked]
  refine namei_eq_follow ?_
  rw [passedBy_of_none (by rw [← fileLoc_eq_walk]; exact World.link_eq_none.mpr hnone)]
  intro x hx
  exact World.link_eq_none.mpr (hdirs x (passed_subset_passedBy _ _ _ _ hx))

theorem passed_subset_directoriesOf (job : Job) (w : World) (opens : Bool) (path : Str) :
    passed (job.base path) (segsOf path) ⊆ job.directoriesOf w opens path := by
  unfold directoriesOf
  split
  · exact passed_subset_passedBy _ _ _ _
  · exact List.Subset.refl _

/-- An entry is made or removed where its path leads lexically. -/
theorem entered_of_name {opens : Bool} (hname : endsInName path = true)
    (hdirs : ∀ x ∈ job.directoriesOf w₀ opens path, w.next x = none) :
    job.entered w path = some (job.fileLoc path) := by
  have hpassed : ∀ x ∈ passed (job.base path) (segsOf path), w.link x = none := fun x hx =>
    World.link_eq_none.mpr (hdirs x (passed_subset_directoriesOf job w₀ opens path hx))
  obtain ⟨s, a, hs⟩ := segsOf_of_endsInName hname
  rw [entered, fileLoc_eq_walk, hs]
  rw [hs] at hpassed
  exact entryAt_of_passed hpassed

/-- **Paths are read as they are spelled.** In every state of every run of separate
transfers, the operating system opens, makes and removes the entries that the paths of a
transfer name lexically. -/
theorem paths_read_lexically (hsep : job.Separate w₀) {sched : List (Pool.Event Event)}
    {p : CopyPool}
    (h : Machine.run (Pool.step job.tasks) { shared := w₀ } sched = some p) {pr : Url × Url}
    (hpr : pr ∈ job.pairs) :
    (pr.1.isRemote = false →
      (job.transferOf w₀ pr ≠ .uploadLink →
        job.opened p.shared pr.1.path = p.shared.resolve (job.fileLoc pr.1.path)) ∧
      (endsInName pr.1.path = true →
        job.entered p.shared pr.1.path = some (job.fileLoc pr.1.path))) ∧
    ((job.transferOf w₀ pr).truncates = true →
      job.opened p.shared pr.2.path = p.shared.resolve (job.fileLoc pr.2.path)) ∧
    (job.transferOf w₀ pr = .downloadLink → endsInName (linkPath pr.2) = true →
      job.entered p.shared (linkPath pr.2) = some (job.fileLoc (linkPath pr.2))) := by
  have hp : job.Inv w₀ p := Machine.run_invariant (fun _ _ _ => step_inv hsep) h (inv_init job w₀)
  have hstays := fun x hx => hsep.lexical.stays h hpr (x := x) hx
  refine ⟨?_, ?_, ?_⟩
  · intro hlocal
    have hcell : job.srcCell pr.1 = .file (job.fileLoc pr.1.path) := by simp [srcCell, hlocal]
    have hdirs : ∀ x ∈ job.directoriesOf w₀ (job.transferOf w₀ pr != .uploadLink) pr.1.path,
        p.shared.next x = none := by
      intro x hx
      exact hstays x (List.mem_append_left _ (by simpa [hlocal] using hx))
    refine ⟨?_, fun hname => entered_of_name hname hdirs⟩
    intro ht
    rw [show (job.transferOf w₀ pr != .uploadLink) = true by simpa using ht] at hdirs
    rcases hp.source pr hpr with hintact | ⟨-, hgone, -⟩
    · refine opened_of_chain hdirs ?_
      intro x hx
      refine World.link_congr (hintact _ ?_)
      have hreads : job.reads w₀ pr = (w₀.chain (job.fileLoc pr.1.path)).map .file := by
        unfold reads
        rw [hcell]
        cases htr : job.transferOf w₀ pr with
        | uploadLink => exact absurd htr ht
        | _ => rfl
      rw [hreads]
      exact List.mem_map_of_mem hx
    · rw [hcell] at hgone
      exact opened_of_none hdirs (World.next_eq_none_of_none hgone)
  · intro htrunc
    have hthrough : job.through w₀ pr = w₀.chain (job.fileLoc pr.2.path) := if_pos htrunc
    have hdirs : ∀ x ∈ job.directoriesOf w₀ true pr.2.path, p.shared.next x = none := by
      intro x hx
      refine hstays x (List.mem_append_right _ ?_)
      rw [isRemote_of_file (.inl htrunc), if_neg (by simp)]
      split
      · rename_i ht
        rw [ht] at htrunc
        cases htrunc
      · exact hx
    exact opened_of_chain hdirs fun x hx => hp.links pr hpr x (hthrough ▸ hx)
  · intro ht hname
    have hdirs : ∀ x ∈ job.directoriesOf w₀ false (linkPath pr.2), p.shared.next x = none := by
      intro x hx
      refine hstays x (List.mem_append_right _ ?_)
      rw [isRemote_of_file (.inr ht), if_neg (by simp), ht]
      exact hx
    exact entered_of_name hname hdirs

end Open

/-! ## Files with several names -/

/-- Writing to the file at `c`, which shows at all of its names. -/
def setFile (job : Job) (w : World) (c : Cell) (v : Option Content) : World :=
  fun c' => if c' = c ∨ job.oneFile c c' = true then v else w c'

/-- What is written to a file shows in one cell of those that transfers touch. -/
theorem Lexical.setFile_eq {job : Job} {w₀ : World} (hlex : job.Lexical w₀) {pr q : Url × Url}
    (hpr : pr ∈ job.pairs) (htrunc : (job.transferOf w₀ pr).truncates = true) {c c' : Cell}
    (hc : job.writes w₀ pr = some c) (hq : q ∈ job.pairs) (hc' : c' ∈ job.touched w₀ q) (w : World)
    (v : Option Content) : job.setFile w c v c' = w.set c v c' := by
  unfold setFile World.set
  by_cases heq : c' = c
  · rw [if_pos (.inl heq), if_pos heq]
  · have hother : job.oneFile c c' ≠ true := fun hone =>
      heq (hlex.names pr hpr htrunc q hq c hc c' hc' hone).symm
    rw [if_neg (by simp [heq, hother]), if_neg heq]

end Job

end Rs5cmd
