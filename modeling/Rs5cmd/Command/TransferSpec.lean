import Rs5cmd.Command.Transfer

/-!
# When transfers do not get in each other's way

What each transfer reads and writes, judged in the world before the run, the condition
`Lexical` under which a location stands for one file, and the condition `Separate` under
which no transfer disturbs another one's source.
-/

namespace Rs5cmd

open LexPath

/-! ## Paths and links -/

theorem locFrom_eq_walk (l : Loc Name) (p : Str) :
    locFrom l p = ((targetOf p).start l).walk (targetOf p).segs := by
  unfold locFrom locOf targetOf Target.start
  split
  · rename_i h
    rw [h]
  · rfl

/-- Where an entry links to is where its target leads lexically. -/
theorem World.next_eq_linked (w : World) : w.next = linked w.link := by
  funext l
  unfold World.next linked World.link
  split
  · rw [Option.map_some, locFrom_eq_walk]
  · rfl

theorem World.link_eq_none {w : World} {l : Loc Name} : w.link l = none ↔ w.next l = none := by
  rw [World.next_eq_linked, linked, Option.map_eq_none_iff]

/-! ## Worlds that agree -/

namespace World

variable {w w₀ : World}

@[simp] theorem set_same (w : World) (c : Cell) (v : Option Content) : w.set c v c = v := by
  simp [set]

theorem set_other {c c' : Cell} (v : Option Content) (h : c' ≠ c) : w.set c v c' = w c' := by
  simp [set, h]

theorem next_set_other {c : Cell} {l : Loc Name} (v : Option Content) (h : .file l ≠ c) :
    (w.set c v).next l = w.next l := by
  simp only [next, set_other v h]

theorem next_congr {l : Loc Name} (h : w (.file l) = w₀ (.file l)) : w.next l = w₀.next l := by
  simp only [next, h]

theorem link_set_other {c : Cell} {l : Loc Name} (v : Option Content) (h : .file l ≠ c) :
    (w.set c v).link l = w.link l := by
  simp only [link, set_other v h]

theorem link_congr {l : Loc Name} (h : w (.file l) = w₀ (.file l)) : w.link l = w₀.link l := by
  simp only [link, h]

/-- What an entry links to depends on its target only. -/
theorem next_eq_of_link {l : Loc Name} (h : w.link l = w₀.link l) : w.next l = w₀.next l := by
  rw [next_eq_linked, next_eq_linked, linked, linked, h]

theorem next_eq_none_of_bytes {l : Loc Name} {b : List UInt8} (h : w (.file l) = some (.bytes b)) :
    w.next l = none := by
  simp [next, h]

theorem next_eq_none_of_none {l : Loc Name} (h : w (.file l) = none) : w.next l = none := by
  simp [next, h]

theorem mem_chain_self (w : World) (l : Loc Name) : l ∈ w.chain l :=
  Follow.mem_chain_self w.next maxLinks l

theorem resolve_congr {l : Loc Name} (h : ∀ x ∈ w₀.chain l, w.next x = w₀.next x) :
    w.resolve l = w₀.resolve l :=
  Follow.follow_congr h

theorem resolve_eq_some {l l' : Loc Name} (h : w.resolve l = some l') :
    l' ∈ w.chain l ∧ w.next l' = none :=
  Follow.follow_eq_some h

/-- Reading a file depends only on the entries it goes through. -/
theorem read_file_congr {l : Loc Name} (h : ∀ x ∈ w₀.chain l, w (.file x) = w₀ (.file x)) :
    w.read (.file l) = w₀.read (.file l) := by
  have hres : w.resolve l = w₀.resolve l := resolve_congr fun x hx => next_congr (h x hx)
  rw [read, read, hres]
  cases hl : w₀.resolve l with
  | none => rfl
  | some l' => simp [bytesAt, h l' (resolve_eq_some hl).1]

theorem read_object (w : World) (s : Bool) (b k v : Str) :
    w.read (.object s b k v) = w.bytesAt (.object s b k v) := rfl

theorem bytesAt_eq_some {c : Cell} {b : List UInt8} :
    w.bytesAt c = some b ↔ w c = some (.bytes b) := by
  unfold bytesAt
  split
  · rename_i b' hb
    rw [hb]
    simp
  · rename_i hno
    constructor
    · intro h
      cases h
    · intro h
      exact absurd h (hno b)

/-- A cell that is empty cannot be read. -/
theorem read_eq_none {c : Cell} (h : w c = none) : w.read c = none := by
  cases c with
  | object s b k v => simp [read_object, bytesAt, h]
  | file l =>
    have hres : w.resolve l = some l := Follow.follow_of_none (next_eq_none_of_none h)
    simp [read, hres, bytesAt, h]

end World

namespace Job

/-! ## What a transfer touches -/

/-- The cells a transfer reads. -/
def reads (job : Job) (w : World) (pr : Url × Url) : List Cell :=
  match job.transferOf w pr, job.srcCell pr.1 with
  | .uploadLink, c => [c]
  | _, .file l => (w.chain l).map .file
  | _, c => [c]

/-- The cell a transfer writes: the file its destination resolves to, or the
object or link it creates. -/
def writes (job : Job) (w : World) (pr : Url × Url) : Option Cell :=
  let t := job.transferOf w pr
  if t.truncates then (w.resolve (job.fileLoc pr.2.path)).map .file else some (job.dstCell t pr.2)

/-- The entries a transfer goes through to the file it writes. -/
def through (job : Job) (w : World) (pr : Url × Url) : List (Loc Name) :=
  if (job.transferOf w pr).truncates then w.chain (job.fileLoc pr.2.path) else []

/-- A path as the operating system reads it in the working directory: where it starts. -/
def base (job : Job) (p : Str) : Loc Name := (targetOf p).start (locOf job.cwd)

/-- The directories on the way to a path's entry, or to the file it opens. -/
def directoriesOf (job : Job) (w : World) (opens : Bool) (p : Str) : List (Loc Name) :=
  if opens then passedBy w.link World.maxLinks (job.base p) (segsOf p)
  else passed (job.base p) (segsOf p)

/-- The directories on the way to a transfer's local source and destination. -/
def directories (job : Job) (w : World) (pr : Url × Url) : List (Loc Name) :=
  (if pr.1.isRemote then []
    else job.directoriesOf w (job.transferOf w pr != .uploadLink) pr.1.path) ++
  (if pr.2.isRemote then []
    else match job.transferOf w pr with
      | .downloadLink => job.directoriesOf w false (linkPath pr.2)
      | _ => job.directoriesOf w true pr.2.path)

/-- The cells a transfer reads, goes through or writes. -/
def touched (job : Job) (w : World) (pr : Url × Url) : List Cell :=
  (job.writes w pr).toList ++ job.reads w pr ++ (job.through w pr).map .file

/-- A location stands for the entry that the operating system comes to, and an entry that
is opened for writing for a file of its own. -/
structure Lexical (job : Job) (w : World) : Prop where
  /-- No directory on the way to a file is a link. -/
  directories : ∀ p ∈ job.pairs, ∀ x ∈ job.directories w p, w.next x = none
  /-- No link is made where a directory on the way to a file is. -/
  made : ∀ p ∈ job.pairs, job.transferOf w p = .downloadLink → ∀ q ∈ job.pairs,
    ∀ x ∈ job.directories w q, job.writes w p ≠ some (.file x)
  /-- A file that is opened for writing is not touched under another name. -/
  names : ∀ p ∈ job.pairs, (job.transferOf w p).truncates = true → ∀ q ∈ job.pairs,
    ∀ c ∈ job.writes w p, ∀ c' ∈ job.touched w q, job.oneFile c c' = true → c = c'

/-- What is found at a transfer's destination: the text of the link, or what can
be read. -/
def found (job : Job) (w : World) (t : Transfer) (dst : Url) : Option (List UInt8) :=
  match t with
  | .downloadLink =>
    match w (job.dstCell t dst) with
    | some (.link target) => some (Utf8.encode target)
    | _ => none
  | _ => w.read (job.dstCell t dst)

/-- What a branch stores. -/
def stored (t : Transfer) (data : List UInt8) : Content :=
  if t = .downloadLink then .link (Utf8.decodeLossy data) else .bytes data

/-- What a transfer would copy in the world `w`. -/
def original (job : Job) (w : World) (pr : Url × Url) : Option (List UInt8) :=
  content w (job.transferOf w pr) (job.srcCell pr.1)

/-- Paths mean what they say, no transfer writes what another one reads, and no move
writes or removes what another one needs. -/
structure Separate (job : Job) (w : World) : Prop where
  lexical : job.Lexical w
  /-- A source is written only by `cp`, and only by copies of an object to itself. -/
  sources : ∀ p ∈ job.pairs, ∀ q ∈ job.pairs, ∀ c ∈ job.writes w p, c ∈ job.reads w q →
    job.isMove = false ∧ job.srcCell p.1 = job.srcCell q.1 ∧ c.isObject = true
  /-- Two moves to one destination are moves of one source to one object. -/
  destinations : job.isMove = true → job.pairs.Pairwise fun p q => ∀ c ∈ job.writes w p,
    c ∈ job.writes w q → job.srcCell p.1 = job.srcCell q.1 ∧ c.isObject = true
  /-- No source that is moved is a link on the way to another one. -/
  removed : job.isMove = true → ∀ p ∈ job.pairs, ∀ q ∈ job.pairs,
    job.srcCell p.1 ∈ job.reads w q → job.srcCell p.1 = job.srcCell q.1
  /-- No link on the way to a destination is overwritten, replaced or moved. -/
  links : ∀ p ∈ job.pairs, ∀ q ∈ job.pairs, ∀ x ∈ job.through w q,
    (job.writes w p = some (.file x) → w.next x = none ∧ job.transferOf w p ≠ .downloadLink) ∧
    (job.isMove = true → job.srcCell p.1 = .file x → w.next x = none)
  /-- A placeholder that is moved names its target in valid UTF-8. -/
  utf8 : job.isMove = true → ∀ p ∈ job.pairs, job.transferOf w p = .downloadLink →
    ∀ b ∈ job.original w p, Utf8.encode (Utf8.decodeLossy b) = b

theorem Separate.of_ne {job : Job} {w : World} (h : job.Separate w) (hmove : job.isMove = true)
    {i j : Nat} {p q : Url × Url} (hij : i ≠ j) (hi : job.pairs[i]? = some p)
    (hj : job.pairs[j]? = some q) {c : Cell} (hp : job.writes w p = some c)
    (hq : job.writes w q = some c) : job.srcCell p.1 = job.srcCell q.1 ∧ c.isObject = true := by
  have hpair := List.pairwise_iff_getElem.mp (h.destinations hmove)
  obtain ⟨hi', rfl⟩ := List.getElem?_eq_some_iff.mp hi
  obtain ⟨hj', rfl⟩ := List.getElem?_eq_some_iff.mp hj
  rcases Nat.lt_or_gt_of_ne hij with hlt | hlt
  · exact hpair i j hi' hj' hlt c hp hq
  · obtain ⟨hsrc, hobj⟩ := hpair j i hj' hi' hlt c hq hp
    exact ⟨hsrc.symm, hobj⟩

/-! ## What depends on what -/

section Agree

variable {job : Job} {w w₀ : World} {pr pr' : Url × Url}

theorem srcCell_mem_reads (job : Job) (w : World) (pr : Url × Url) :
    job.srcCell pr.1 ∈ job.reads w pr := by
  unfold reads
  cases job.transferOf w pr <;> cases job.srcCell pr.1 <;> simp [World.mem_chain_self]

/-- An object that is read is the source itself. -/
theorem eq_srcCell_of_isObject {c : Cell} (hc : c ∈ job.reads w pr) (hobj : c.isObject = true) :
    c = job.srcCell pr.1 := by
  unfold reads at hc
  split at hc
  · exact List.mem_singleton.mp hc
  · obtain ⟨x, -, rfl⟩ := List.mem_map.mp hc
    cases hobj
  · exact List.mem_singleton.mp hc

theorem transferOf_congr (h : w (job.srcCell pr.1) = w₀ (job.srcCell pr.1)) :
    job.transferOf w pr = job.transferOf w₀ pr := by
  have hlink : w.isSymlink (job.srcCell pr.1) = w₀.isSymlink (job.srcCell pr.1) := by
    unfold World.isSymlink
    rw [h]
  simp only [transferOf, hlink]

theorem isObject_srcCell (job : Job) (u : Url) : (job.srcCell u).isObject = u.isRemote := by
  cases hr : u.isRemote <;> simp [srcCell, hr, Cell.isObject]

/-- A link that is uploaded as such is a local entry. -/
theorem transferOf_ne_uploadLink (h : (job.srcCell pr.1).isObject = true) :
    job.transferOf w pr ≠ .uploadLink := by
  rw [isObject_srcCell] at h
  simp only [transferOf, h, Bool.not_true, Bool.and_false, Bool.false_and, Bool.false_eq_true,
    if_false]
  split
  · simp
  · split <;> simp

/-- An object is the destination of the branches that store bytes. -/
theorem stored_of_isObject {c : Cell} {b : List UInt8} (hw : job.writes w pr = some c)
    (hobj : c.isObject = true) : stored (job.transferOf w pr) b = .bytes b := by
  unfold stored
  split
  · rename_i ht
    simp only [writes, ht, Transfer.truncates, Bool.false_eq_true, if_false, dstCell,
      Option.some.injEq] at hw
    subst hw
    cases hobj
  · rfl

/-- Two pairs of one source are transferred by the same branch. -/
theorem transferOf_of_srcCell_eq (hp : pr ∈ job.pairs) (hp' : pr' ∈ job.pairs)
    (h : job.srcCell pr.1 = job.srcCell pr'.1) :
    job.transferOf w pr = job.transferOf w pr' := by
  have hdst : pr.2.isRemote = pr'.2.isRemote := by
    rw [job.pairs_dst pr hp, job.pairs_dst pr' hp']
  have hcell := h
  unfold srcCell at hcell
  cases hr : pr.1.isRemote <;> cases hr' : pr'.1.isRemote <;> simp [hr, hr'] at hcell
  · simp only [transferOf, hr, hr', hdst, h, Bool.and_false, Bool.false_and, Bool.false_eq_true,
      if_false]
  · simp only [transferOf, hr, hr', hdst, h, hcell.2.1]

/-- What a transfer copies depends only on what it reads. -/
theorem content_congr (h : ∀ c ∈ job.reads w₀ pr, w c = w₀ c) :
    content w (job.transferOf w₀ pr) (job.srcCell pr.1) = job.original w₀ pr := by
  have hsrc := h _ (srcCell_mem_reads job w₀ pr)
  unfold original
  cases ht : job.transferOf w₀ pr with
  | uploadLink => simp only [content, hsrc]
  | _ =>
    show w.read (job.srcCell pr.1) = w₀.read (job.srcCell pr.1)
    cases hc : job.srcCell pr.1 with
    | object s b k v =>
      rw [hc] at hsrc
      simp only [World.read_object, World.bytesAt, hsrc]
    | file l =>
      refine World.read_file_congr ?_
      intro x hx
      refine h _ ?_
      simp only [reads, ht, hc]
      exact List.mem_map_of_mem hx

theorem content_eq_none {t : Transfer} {c : Cell} (h : w c = none) : content w t c = none := by
  unfold content
  split
  · simp [h]
  · exact World.read_eq_none h

/-- Transfers between objects go along no path. -/
theorem lexical_of_remote (h : ∀ p ∈ job.pairs, p.1.isRemote = true ∧ p.2.isRemote = true) :
    job.Lexical w := by
  have hcopy : ∀ p ∈ job.pairs, job.transferOf w p = .copy := by
    intro p hp
    obtain ⟨hsrc, hdst⟩ := h p hp
    simp [transferOf, hsrc, hdst]
  refine ⟨?_, ?_, ?_⟩
  · intro p hp x hx
    obtain ⟨hsrc, hdst⟩ := h p hp
    simp [directories, hsrc, hdst] at hx
  · intro p hp ht
    rw [hcopy p hp] at ht
    cases ht
  · intro p hp ht
    rw [hcopy p hp] at ht
    cases ht

end Agree

/-! ## Writing -/

section Write

variable {job : Job} {w w' w₀ : World} {pr : Url × Url} {data : List UInt8}

/-- A transfer writes the one cell it wrote before the run, as long as the links
on the way are as they were. -/
theorem store_eq_some (hlinks : ∀ x ∈ job.through w₀ pr, w.next x = w₀.next x)
    (h : job.store w (job.transferOf w₀ pr) pr.2 data = some w') :
    ∃ c, job.writes w₀ pr = some c ∧
      w' = w.set c (some (stored (job.transferOf w₀ pr) data)) := by
  cases ht : job.transferOf w₀ pr with
  | copy | upload | uploadLink =>
    rw [ht] at h
    refine ⟨_, by simp [writes, ht, Transfer.truncates]; rfl, ?_⟩
    exact (Option.some.inj h).symm
  | downloadLink =>
    rw [ht, store] at h
    split at h
    · refine ⟨_, by simp [writes, ht, Transfer.truncates]; rfl, ?_⟩
      exact (Option.some.inj h).symm
    · cases h
  | download | fsCopy =>
    rw [ht] at h
    obtain ⟨l, hl, rfl⟩ := Option.map_eq_some_iff.mp h
    have hres : w.resolve (job.fileLoc pr.2.path) = w₀.resolve (job.fileLoc pr.2.path) := by
      refine World.resolve_congr ?_
      intro x hx
      exact hlinks x (by simpa [through, ht, Transfer.truncates] using hx)
    refine ⟨.file l, ?_, rfl⟩
    simp [writes, ht, Transfer.truncates, ← hres, hl]

end Write

/-! ## What a step can do -/

/-- Everything a step of `copy_one` can do, from a phase in the world `w`. -/
inductive Effect (job : Job) (pr : Url × Url) (w : World) :
    Phase → World → Phase ⊕ Except StorageError Unit → Prop where
  /-- It ends and leaves the world alone. -/
  | idle (ph : Phase) (r : Except StorageError Unit) : Effect job pr w ph w (.inr r)
  | start (b : List UInt8) (h : content w (job.transferOf w pr) (job.srcCell pr.1) = some b) :
    Effect job pr w .start w (.inl (.copying (job.transferOf w pr) b []))
  | read (t : Transfer) (first got : List UInt8) (n : Nat) :
    Effect job pr w (.copying t first got) w
      (.inl (.copying t first (got ++ (job.rest pr w t first got).take n)))
  /-- It reads, and a file has some content meanwhile. -/
  | overwrite (t : Transfer) (first got data : List UInt8) (n : Nat) (w' : World)
    (ht : t.truncates = true) (h : job.store w t pr.2 data = some w') :
    Effect job pr w (.copying t first got) w'
      (.inl (.copying t first (got ++ (job.rest pr w t first got).take n)))
  | commit (t : Transfer) (first got : List UInt8) (w' : World)
    (out : Phase ⊕ Except StorageError Unit) (hrest : job.rest pr w t first got = [])
    (h : job.store w t pr.2 got = some w')
    (hout : ∀ ph, out = .inl ph → ph = .copied ∧ job.isMove = true) :
    Effect job pr w (.copying t first got) w' out
  /-- The entry a link was to replace is gone. -/
  | unlink (first got : List UInt8) (r : Except StorageError Unit) :
    Effect job pr w (.copying .downloadLink first got)
      (w.set (job.dstCell .downloadLink pr.2) none) (.inr r)
  | delete (r : Except StorageError Unit) :
    Effect job pr w .copied (w.set (job.srcCell pr.1) none) (.inr r)

theorem copyOne_effect {job : Job} {pr : Url × Url} {ph : Phase} {ev : Event} {w w' : World}
    {out : Phase ⊕ Except StorageError Unit} (h : job.copyOne pr ph ev w = some (w', out)) :
    Effect job pr w ph w' out := by
  cases ph with
  | start =>
    cases ev with
    | go =>
      simp only [copyOne] at h
      split at h
      · obtain ⟨rfl, rfl⟩ := Prod.mk.inj (Option.some.inj h)
        exact .idle _ _
      · obtain ⟨b, hb, heq⟩ := Option.map_eq_some_iff.mp h
        obtain ⟨rfl, rfl⟩ := Prod.mk.inj heq
        exact .start b hb
    | read n m => cases h
    | fail e applied =>
      obtain ⟨rfl, rfl⟩ := Prod.mk.inj (Option.some.inj h)
      exact .idle _ _
  | copying t first got =>
    cases ev with
    | go =>
      simp only [copyOne] at h
      split at h
      · rename_i hrest
        obtain ⟨w₁, hw₁, heq⟩ := Option.map_eq_some_iff.mp h
        obtain ⟨rfl, rfl⟩ := Prod.mk.inj heq
        refine .commit t first got w₁ _ hrest hw₁ ?_
        intro ph hph
        split at hph
        · rename_i hmove
          exact ⟨(Sum.inl.inj hph).symm, hmove⟩
        · cases hph
      · cases h
    | read n m =>
      simp only [copyOne] at h
      split at h
      · rename_i ht
        obtain ⟨w₁, hw₁, heq⟩ := Option.map_eq_some_iff.mp h
        obtain ⟨rfl, rfl⟩ := Prod.mk.inj heq
        exact .overwrite t first got m n w₁ ht hw₁
      · obtain ⟨rfl, rfl⟩ := Prod.mk.inj (Option.some.inj h)
        exact .read t first got n
    | fail e applied =>
      obtain ⟨rfl, rfl⟩ := Prod.mk.inj (Option.some.inj h)
      unfold failed
      split
      · -- the failed request was applied
        cases t with
        | download | fsCopy => exact .idle _ _
        | downloadLink =>
          dsimp only
          split
          · exact .unlink first got _
          · exact .idle _ _
        | copy | upload | uploadLink =>
          dsimp only
          split
          · rename_i hrest
            exact .commit _ first got _ _ hrest rfl (by simp)
          · exact .idle _ _
      · exact .idle _ _
  | copied =>
    cases ev with
    | go =>
      obtain ⟨rfl, rfl⟩ := Prod.mk.inj (Option.some.inj h)
      exact .delete _
    | read n m => cases h
    | fail e applied =>
      obtain ⟨rfl, rfl⟩ := Prod.mk.inj (Option.some.inj h)
      split
      · exact .delete _
      · exact .idle _ _

end Job

end Rs5cmd
