import Rs5cmd.Theorems.Transfer

/-!
# Uploads and downloads

Where the sources of a `cp` are all on the other side than its destinations, nothing that
is read is written: each transfer copies what was at its source before the run. What is
found on the side of the destinations afterwards was there before or comes from a pair,
whatever the interleaving; and if no two pairs get in each other's way, each pair is found
at its destination.
-/

namespace Rs5cmd

open LexPath

namespace Job

/-- The sources are on one side and the destinations on the other, and the sources stay. -/
structure Crosses (job : Job) : Prop where
  sources : ∀ pr ∈ job.pairs, pr.1.isRemote = !job.dstRemote
  keeps : job.isMove = false
  real : job.dryRun = false

/-- The cell that a pair is copied to, links aside. -/
def target (job : Job) (w₀ : World) (pr : Url × Url) : Cell :=
  job.dstCell (job.transferOf w₀ pr) pr.2

/-- The operating system may refuse what a pair is to be copied to: a link where no name
is, or a file where another pair makes a link. -/
def Blocked (job : Job) (w₀ : World) (pr : Url × Url) : Prop :=
  (job.transferOf w₀ pr = .downloadLink ∧ endsInName (linkPath pr.2) = false) ∨
    (job.transferOf w₀ pr = .download ∧ ∃ q ∈ job.pairs, job.original w₀ q ≠ none ∧
      job.transferOf w₀ q = .downloadLink ∧ job.target w₀ q = job.target w₀ pr)

/-- A transfer fails only if there is nothing at its source or it is blocked. -/
def Undisturbed (job : Job) (w₀ : World) (ev : Pool.Event Event) : Prop :=
  ∀ i e applied, ev = .work i (.fail e applied) →
    ∀ pr, job.pairs[i]? = some pr → job.original w₀ pr = none ∨ job.Blocked w₀ pr

/-- What is read is as it was. -/
def SourcesKept (job : Job) (w₀ w : World) : Prop := ∀ c, c.isObject ≠ job.dstRemote → w c = w₀ c

/-- What is known of a copy in a phase. -/
def Fits (job : Job) (w₀ : World) (pr : Url × Url) : Phase → Prop
  | .start => True
  | .copying t first got => t = job.transferOf w₀ pr ∧ job.original w₀ pr = some first ∧ got <+: first
  | .copied => False

/-- The cell holds what the pair stores in one piece. -/
structure Delivered (job : Job) (w₀ w : World) (c : Cell) (pr : Url × Url) (b : List UInt8) : Prop where
  whole : (job.transferOf w₀ pr).truncates = false
  target : job.target w₀ pr = c
  stored : w c = some (stored (job.transferOf w₀ pr) b)
  named : job.transferOf w₀ pr = .downloadLink →
    endsInName (linkPath pr.2) = true

/-- The cell is a file that has been opened at the destination of the pair, or through a
link that is there. -/
structure Poured (job : Job) (w₀ w : World) (c : Cell) (pr : Url × Url) : Prop where
  download : job.transferOf w₀ pr = .download
  bytes : ∃ l d, c = .file l ∧ w c = some (.bytes d) ∧
    (job.fileLoc pr.2.path = l ∨ w.next (job.fileLoc pr.2.path) ≠ none)

/-- The cell has been written by a pair that found something at its source. -/
def Origin (job : Job) (w₀ w : World) (c : Cell) : Prop :=
  ∃ pr ∈ job.pairs, ∃ b, job.original w₀ pr = some b ∧
    (job.Delivered w₀ w c pr b ∨ job.Poured w₀ w c pr)

section Crossing

variable {job : Job} {w w' w₀ : World} {pr : Url × Url}

/-! ## Sides -/

theorem Crosses.transferOf_cases (h : job.Crosses) (hpr : pr ∈ job.pairs) (w : World) :
    (job.dstRemote = true ∧ (job.transferOf w pr = .upload ∨ job.transferOf w pr = .uploadLink)) ∨
      (job.dstRemote = false ∧
        (job.transferOf w pr = .download ∨ job.transferOf w pr = .downloadLink)) := by
  have hsrc := h.sources pr hpr
  have hdst := job.pairs_dst pr hpr
  cases hside : job.dstRemote with
  | true =>
    rw [hside] at hsrc hdst
    refine .inl ⟨rfl, ?_⟩
    simp only [transferOf, hsrc, hdst, Bool.not_true, Bool.not_false, Bool.and_true, Bool.and_false,
      Bool.false_and, Bool.false_eq_true, if_false]
    split
    · exact .inr rfl
    · exact .inl rfl
  | false =>
    rw [hside] at hsrc hdst
    refine .inr ⟨rfl, ?_⟩
    simp only [transferOf, hsrc, hdst, Bool.not_true, Bool.not_false, Bool.and_true, Bool.and_false,
      Bool.false_and, Bool.false_eq_true, if_false]
    split
    · exact .inr rfl
    · exact .inl rfl

theorem Crosses.isObject_target (h : job.Crosses) (hpr : pr ∈ job.pairs) :
    (job.target w₀ pr).isObject = job.dstRemote := by
  unfold target
  rcases h.transferOf_cases hpr w₀ with ⟨hside, ht | ht⟩ | ⟨hside, ht | ht⟩
  · rw [ht, hside]
    rfl
  · rw [ht, hside]
    rfl
  · rw [ht, hside]
    rfl
  · rw [ht, hside]
    rfl

theorem Crosses.isObject_reads (h : job.Crosses) (hpr : pr ∈ job.pairs) {c : Cell}
    (hc : c ∈ job.reads w₀ pr) : c.isObject ≠ job.dstRemote := by
  have hcell : (job.srcCell pr.1).isObject = !job.dstRemote := by
    rw [isObject_srcCell, h.sources pr hpr]
  have hside : c.isObject = !job.dstRemote := by
    by_cases hobj : c.isObject = true
    · rw [eq_srcCell_of_isObject hc hobj]
      exact hcell
    · -- only a file is read through links
      cases hside : job.dstRemote with
      | true => simpa using hobj
      | false =>
        rw [hside] at hcell
        cases hs : job.srcCell pr.1 with
        | file l =>
          rw [hs] at hcell
          cases hcell
        | object second b k v =>
          have hreads : job.reads w₀ pr = [job.srcCell pr.1] := by
            unfold reads
            rw [hs]
            split
            · rfl
            · rename_i hfile _
              cases hfile
            · rfl
          rw [hreads, List.mem_singleton] at hc
          rw [hc, hs]
          rfl
  rw [hside]
  cases job.dstRemote <;> decide

theorem SourcesKept.intact (hsrc : job.SourcesKept w₀ w) (h : job.Crosses) (hpr : pr ∈ job.pairs) :
    job.Intact w₀ w pr := fun _ hc => hsrc _ (h.isObject_reads hpr hc)

/-! ## Steps -/

/-- Everything that a step of an undisturbed copy can do, from a phase in the world `w`. -/
inductive Moves (job : Job) (w₀ : World) (pr : Url × Url) (w : World) (ph : Phase) :
    World → Phase ⊕ Except StorageError Unit → Prop where
  /-- There is nothing to copy, or no way to. -/
  | stop (e : StorageError) (h : ph = .start ∧ job.original w₀ pr = none ∨ job.Blocked w₀ pr) :
    Moves job w₀ pr w ph w (.inr (.error e))
  | goOn (ph' : Phase) (hph' : ph' ≠ .start) (hfits : job.Fits w₀ pr ph') :
    Moves job w₀ pr w ph w (.inl ph')
  /-- A file has some content meanwhile. -/
  | pour (ph' : Phase) (l : Loc Name) (first data : List UInt8) (hph : ph ≠ .start)
    (hph' : ph' ≠ .start) (hfits : job.Fits w₀ pr ph') (horig : job.original w₀ pr = some first)
    (ht : job.transferOf w₀ pr = .download) (hl : w.resolve (job.fileLoc pr.2.path) = some l) :
    Moves job w₀ pr w ph (w.set (.file l) (some (.bytes data))) (.inl ph')
  | deliver (b : List UInt8) (w' : World) (hph : ph ≠ .start) (horig : job.original w₀ pr = some b)
    (hstore : job.store w (job.transferOf w₀ pr) pr.2 b = some w') :
    Moves job w₀ pr w ph w' (.inr (.ok ()))

theorem Fits.original_ne_none {ph : Phase} (h : job.Fits w₀ pr ph) (hph : ph ≠ .start) :
    job.original w₀ pr ≠ none := by
  cases ph with
  | start => exact absurd rfl hph
  | copying t first got => simp [h.2.1]
  | copied => exact h.elim

/-- What is blocked leaves nothing behind. -/
theorem failed_of_blocked (h : job.Blocked w₀ pr) (first got : List UInt8) (applied : Bool) :
    job.failed pr w (job.transferOf w₀ pr) first got applied = w := by
  unfold failed
  split
  · rcases h with ⟨ht, hnamed⟩ | ⟨ht, -⟩
    · rw [ht]
      exact if_neg (by simp [hnamed])
    · rw [ht]
  · rfl

theorem copyOne_moves (hcross : job.Crosses) (hpr : pr ∈ job.pairs) (hsrc : job.SourcesKept w₀ w)
    {ph : Phase} (hfits : job.Fits w₀ pr ph) {ev : Event}
    (hev : ∀ e applied, ev = .fail e applied → job.original w₀ pr = none ∨ job.Blocked w₀ pr)
    {out : Phase ⊕ Except StorageError Unit} (h : job.copyOne pr ph ev w = some (w', out)) :
    Moves job w₀ pr w ph w' out := by
  have hint := hsrc.intact hcross hpr
  cases ph with
  | start =>
    cases ev with
    | go =>
      simp only [copyOne, hcross.real, Bool.false_eq_true, if_false] at h
      obtain ⟨b, hb, heq⟩ := Option.map_eq_some_iff.mp h
      obtain ⟨rfl, rfl⟩ := Prod.mk.inj heq
      have ht := transferOf_congr (hint _ (srcCell_mem_reads job w₀ pr))
      rw [ht, content_congr hint] at hb
      exact .goOn _ (by simp) ⟨ht, hb, List.nil_prefix⟩
    | read n m => cases h
    | fail e applied =>
      obtain ⟨rfl, rfl⟩ := Prod.mk.inj (Option.some.inj h)
      exact .stop e ((hev e applied rfl).imp_left fun horig => ⟨rfl, horig⟩)
  | copying t first got =>
    obtain ⟨rfl, horig, hpre⟩ := hfits
    have hrest : job.rest pr w (job.transferOf w₀ pr) first got = first.drop got.length :=
      rest_eq horig (.inl hint)
    cases ev with
    | go =>
      simp only [copyOne] at h
      split at h
      · rename_i hdone
        obtain ⟨w₁, hw₁, heq⟩ := Option.map_eq_some_iff.mp h
        obtain ⟨rfl, rfl⟩ := Prod.mk.inj heq
        rw [hrest] at hdone
        rw [eq_of_drop_eq_nil hpre hdone] at hw₁
        rw [hcross.keeps]
        exact .deliver first w₁ (by simp) horig hw₁
      · cases h
    | read n m =>
      have hnext : job.Fits w₀ pr (.copying (job.transferOf w₀ pr) first
          (got ++ (job.rest pr w (job.transferOf w₀ pr) first got).take n)) := by
        rw [hrest]
        exact ⟨rfl, horig, isPrefix_append_take hpre n⟩
      simp only [copyOne] at h
      split at h
      · rename_i htrunc
        obtain ⟨w₁, hw₁, heq⟩ := Option.map_eq_some_iff.mp h
        obtain ⟨rfl, rfl⟩ := Prod.mk.inj heq
        have ht : job.transferOf w₀ pr = .download := by
          rcases hcross.transferOf_cases hpr w₀ with ⟨-, ht | ht⟩ | ⟨-, ht | ht⟩
          · rw [ht] at htrunc
            cases htrunc
          · rw [ht] at htrunc
            cases htrunc
          · exact ht
          · rw [ht] at htrunc
            cases htrunc
        rw [ht] at hw₁
        obtain ⟨l, hl, rfl⟩ := Option.map_eq_some_iff.mp hw₁
        exact .pour _ l first m (by simp) (by simp) hnext horig ht hl
      · obtain ⟨rfl, rfl⟩ := Prod.mk.inj (Option.some.inj h)
        exact .goOn _ (by simp) hnext
    | fail e applied =>
      obtain ⟨rfl, rfl⟩ := Prod.mk.inj (Option.some.inj h)
      rcases hev e applied rfl with habsent | hblocked
      · rw [horig] at habsent
        cases habsent
      · rw [failed_of_blocked hblocked]
        exact .stop e (.inr hblocked)
  | copied => exact hfits.elim

theorem World.next_set_of_ne_none {l l' : Loc Name} (h : w.next l ≠ none) (hl' : w.next l' = none)
    (v : Option Content) : (w.set (.file l') v).next l ≠ none := by
  have hne : Cell.file l ≠ .file l' := by
    rintro heq
    rw [Cell.file.inj heq] at h
    exact h hl'
  rw [World.next_set_other v hne]
  exact h

/-- A link stays a link. -/
theorem Moves.next_ne_none {ph : Phase} {out : Phase ⊕ Except StorageError Unit}
    (h : Moves job w₀ pr w ph w' out) {l : Loc Name} (hl : w.next l ≠ none) : w'.next l ≠ none := by
  cases h with
  | stop e h => exact hl
  | goOn ph' hph' hfits => exact hl
  | pour ph' l' first data hph hph' hfits horig ht hl' =>
    exact World.next_set_of_ne_none hl (World.resolve_eq_some hl').2 _
  | deliver b w' hph horig hstore =>
    cases ht : job.transferOf w₀ pr with
    | copy | upload | uploadLink =>
      rw [ht] at hstore
      obtain rfl := Option.some.inj hstore
      rw [World.next_set_other _ (by simp [dstCell])]
      exact hl
    | download | fsCopy =>
      rw [ht] at hstore
      obtain ⟨l', hl', rfl⟩ := Option.map_eq_some_iff.mp hstore
      exact World.next_set_of_ne_none hl (World.resolve_eq_some hl').2 _
    | downloadLink =>
      rw [ht, store] at hstore
      split at hstore
      · obtain rfl := Option.some.inj hstore
        by_cases hcell : Cell.file l = job.dstCell .downloadLink pr.2
        · simp [World.next, hcell]
        · rw [World.next_set_other _ hcell]
          exact hl
      · cases hstore

/-- What a step leaves alone keeps its origin, and what it writes has one. -/
theorem Moves.origin {ph : Phase} {out : Phase ⊕ Except StorageError Unit}
    (h : Moves job w₀ pr w ph w' out) (hcross : job.Crosses) (hpr : pr ∈ job.pairs) {c : Cell}
    (hc : w c = w₀ c ∨ job.Origin w₀ w c) : w' c = w₀ c ∨ job.Origin w₀ w' c := by
  have hother : w' c = w c → w' c = w₀ c ∨ job.Origin w₀ w' c := by
    intro hsame
    rcases hc with hc | ⟨q, hq, b, hb, hdel | hpour⟩
    · exact .inl (hsame.trans hc)
    · exact .inr ⟨q, hq, b, hb, .inl ⟨hdel.whole, hdel.target, hsame.trans hdel.stored, hdel.named⟩⟩
    · obtain ⟨l, d, rfl, hd, hthrough⟩ := hpour.bytes
      exact .inr ⟨q, hq, b, hb, .inr ⟨hpour.download, l, d, rfl, hsame.trans hd,
        hthrough.imp_right fun hlink => h.next_ne_none hlink⟩⟩
  -- a file is written where its path leads, through a link or not
  have hfile : ∀ {l b d}, job.transferOf w₀ pr = .download → job.original w₀ pr = some b →
      w.resolve (job.fileLoc pr.2.path) = some l → w' = w.set (.file l) (some (.bytes d)) →
      w' c = w₀ c ∨ job.Origin w₀ w' c := by
    intro l b d ht hb hl heq
    by_cases hcl : c = .file l
    · refine .inr ⟨pr, hpr, b, hb, .inr ⟨ht, l, d, hcl, ?_, ?_⟩⟩
      · rw [heq, hcl, World.set_same]
      · cases hnext : w.next (job.fileLoc pr.2.path) with
        | none =>
          have hself : w.resolve (job.fileLoc pr.2.path) = some (job.fileLoc pr.2.path) :=
            Follow.follow_of_none hnext
          exact .inl (Option.some.inj (hself.symm.trans hl))
        | some l' => exact .inr (h.next_ne_none (by simp [hnext]))
    · exact hother (by rw [heq, World.set_other _ hcl])
  have hwhole : ∀ {t b}, job.transferOf w₀ pr = t → t.truncates = false →
      job.original w₀ pr = some b → w' = w.set (job.dstCell t pr.2) (some (stored t b)) →
      (t = .downloadLink →
        endsInName (linkPath pr.2) = true) →
      w' c = w₀ c ∨ job.Origin w₀ w' c := by
    rintro t b rfl ht hb heq hnamed
    by_cases hct : c = job.target w₀ pr
    · refine .inr ⟨pr, hpr, b, hb, .inl ⟨ht, hct.symm, ?_, hnamed⟩⟩
      rw [heq, hct]
      exact World.set_same _ _ _
    · refine hother ?_
      rw [heq]
      exact World.set_other _ hct
  cases h with
  | stop e h => exact hother rfl
  | goOn ph' hph' hfits => exact hother rfl
  | pour ph' l first data hph hph' hfits horig ht hl => exact hfile ht horig hl rfl
  | deliver b w' hph horig hstore =>
    rcases hcross.transferOf_cases hpr w₀ with ⟨-, ht | ht⟩ | ⟨-, ht | ht⟩
    · rw [ht] at hstore
      exact hwhole ht rfl horig (Option.some.inj hstore).symm (by simp)
    · rw [ht] at hstore
      exact hwhole ht rfl horig (Option.some.inj hstore).symm (by simp)
    · rw [ht] at hstore
      obtain ⟨l, hl, heq⟩ := Option.map_eq_some_iff.mp hstore
      exact hfile ht horig hl heq.symm
    · rw [ht, store] at hstore
      split at hstore
      · rename_i hnamed
        exact hwhole ht rfl horig (Option.some.inj hstore).symm fun _ => hnamed
      · cases hstore

theorem Moves.sourcesKept {ph : Phase} {out : Phase ⊕ Except StorageError Unit}
    (h : Moves job w₀ pr w ph w' out) (hcross : job.Crosses) (hpr : pr ∈ job.pairs)
    (hsrc : job.SourcesKept w₀ w) : job.SourcesKept w₀ w' := by
  intro c hc
  have hset : ∀ c' v, c'.isObject = job.dstRemote → w.set c' v c = w₀ c := by
    intro c' v hc'
    rw [World.set_other v (fun heq => hc (by rw [heq, hc']))]
    exact hsrc c hc
  have hfileSide : job.transferOf w₀ pr = .download → job.dstRemote = false := by
    intro ht
    rcases hcross.transferOf_cases hpr w₀ with ⟨-, ht' | ht'⟩ | ⟨hside, -⟩
    · rw [ht] at ht'
      cases ht'
    · rw [ht] at ht'
      cases ht'
    · exact hside
  cases h with
  | stop e h => exact hsrc c hc
  | goOn ph' hph' hfits => exact hsrc c hc
  | pour ph' l first data hph hph' hfits horig ht hl => exact hset _ _ (hfileSide ht).symm
  | deliver b w' hph horig hstore =>
    have htarget : (job.target w₀ pr).isObject = job.dstRemote := hcross.isObject_target hpr
    unfold target at htarget
    rcases hcross.transferOf_cases hpr w₀ with ⟨-, ht | ht⟩ | ⟨-, ht | ht⟩
    · rw [ht] at hstore htarget
      obtain rfl := Option.some.inj hstore
      exact hset _ _ htarget
    · rw [ht] at hstore htarget
      obtain rfl := Option.some.inj hstore
      exact hset _ _ htarget
    · rw [ht] at hstore
      obtain ⟨l, -, rfl⟩ := Option.map_eq_some_iff.mp hstore
      exact hset _ _ (hfileSide ht).symm
    · rw [ht, store] at hstore
      rw [ht] at htarget
      split at hstore
      · obtain rfl := Option.some.inj hstore
        exact hset _ _ htarget
      · cases hstore

end Crossing

/-! ## Runs -/

section Runs

variable {job : Job} {w₀ : World} {p p' : CopyPool}

/-- What is known in every state of an undisturbed run. -/
structure Carried (job : Job) (w₀ : World) (p : CopyPool) : Prop where
  sources : job.SourcesKept w₀ p.shared
  phases : ∀ i ph, (i, ph) ∈ p.inFlight → ∀ pr, job.pairs[i]? = some pr → job.Fits w₀ pr ph
  origins : ∀ c, p.shared c = w₀ c ∨ job.Origin w₀ p.shared c
  stopped : ∀ i e, (i, .error e) ∈ p.results → ∀ pr, job.pairs[i]? = some pr →
    job.original w₀ pr = none ∨ job.Blocked w₀ pr

theorem carried_init (job : Job) (w₀ : World) : job.Carried w₀ { shared := w₀ } where
  sources := fun _ _ => rfl
  phases := by simp
  origins := fun _ => .inl rfl
  stopped := by simp

/-- The steps of the pool: a transfer is started, or makes one of its moves. -/
theorem step_moves (hcross : job.Crosses) (hp : job.Carried w₀ p) {ev : Pool.Event Event}
    (hev : job.Undisturbed w₀ ev) (h : Pool.step job.tasks p ev = some p') :
    p' = { p with next := p.next + 1, inFlight := p.inFlight ++ [(p.next, Phase.start)] } ∨
      ∃ i ph pr w' out, (i, ph) ∈ p.inFlight ∧ job.pairs[i]? = some pr ∧
        Moves job w₀ pr p.shared ph w' out ∧ p' = p.settle i w' out := by
  obtain ⟨-, -, -, rfl⟩ | ⟨i, e, ph, w', out, rfl, hph, hwork, rfl⟩ := Pool.step_cases h
  · exact .inl rfl
  · refine .inr ⟨i, ph, ?_⟩
    have hmem := Pool.mem_of_lookup hph
    simp only [tasks] at hwork
    split at hwork
    · rename_i pr hi
      have hpr : pr ∈ job.pairs := List.mem_of_getElem? hi
      refine ⟨pr, w', out, hmem, hi, ?_, rfl⟩
      refine copyOne_moves hcross hpr hp.sources (hp.phases i ph hmem pr hi) ?_ hwork
      intro err applied he
      exact hev i err applied (by rw [he]) pr hi
    · cases hwork

theorem Carried.start (hp : job.Carried w₀ p) :
    job.Carried w₀ { p with next := p.next + 1, inFlight := p.inFlight ++ [(p.next, Phase.start)] } where
  sources := hp.sources
  phases := by
    intro i ph hph pr hpr
    rcases List.mem_append.mp hph with hph | hph
    · exact hp.phases i ph hph pr hpr
    · obtain ⟨-, rfl⟩ := Prod.mk.inj (List.mem_singleton.mp hph)
      trivial
  origins := hp.origins
  stopped := hp.stopped

theorem Carried.settle (hp : job.Carried w₀ p) (hcross : job.Crosses) {i : Nat} {ph : Phase}
    {pr : Url × Url} {w' : World} {out : Phase ⊕ Except StorageError Unit}
    (hi : job.pairs[i]? = some pr) (hmove : Moves job w₀ pr p.shared ph w' out) :
    job.Carried w₀ (p.settle i w' out) := by
  have hpr : pr ∈ job.pairs := List.mem_of_getElem? hi
  have hshared : (p.settle i w' out).shared = w' := by cases out <;> rfl
  refine ⟨?_, ?_, ?_, ?_⟩
  · rw [hshared]
    exact hmove.sourcesKept hcross hpr hp.sources
  · have hothers : ∀ j phj, (j, phj) ∈ p.others i → ∀ q, job.pairs[j]? = some q →
        job.Fits w₀ q phj := fun j phj hj => hp.phases j phj (List.mem_of_mem_filter hj)
    intro j phj hj q hq
    cases hmove with
    | stop e h => exact hothers j phj hj q hq
    | goOn ph' hph' hfits =>
      rcases List.mem_cons.mp hj with heq | hj
      · obtain ⟨rfl, rfl⟩ := Prod.mk.inj heq
        obtain rfl := Option.some.inj (hi.symm.trans hq)
        exact hfits
      · exact hothers j phj hj q hq
    | pour ph' l first data hph hph' hfits horig ht hl =>
      rcases List.mem_cons.mp hj with heq | hj
      · obtain ⟨rfl, rfl⟩ := Prod.mk.inj heq
        obtain rfl := Option.some.inj (hi.symm.trans hq)
        exact hfits
      · exact hothers j phj hj q hq
    | deliver b w' hph horig hstore => exact hothers j phj hj q hq
  · rw [hshared]
    exact fun c => hmove.origin hcross hpr (hp.origins c)
  · intro j e hj q hq
    cases hmove with
    | stop e' h =>
      rcases List.mem_append.mp hj with hj | hj
      · exact hp.stopped j e hj q hq
      · obtain ⟨rfl, -⟩ := Prod.mk.inj (List.mem_singleton.mp hj)
        obtain rfl := Option.some.inj (hi.symm.trans hq)
        exact h.imp_left And.right
    | goOn ph' hph' hfits => exact hp.stopped j e hj q hq
    | pour ph' l first data hph hph' hfits horig ht hl => exact hp.stopped j e hj q hq
    | deliver b w' hph horig hstore =>
      rcases List.mem_append.mp hj with hj | hj
      · exact hp.stopped j e hj q hq
      · obtain ⟨-, hr⟩ := Prod.mk.inj (List.mem_singleton.mp hj)
        cases hr

theorem step_carried (hcross : job.Crosses) {ev : Pool.Event Event} (hev : job.Undisturbed w₀ ev)
    (h : Pool.step job.tasks p ev = some p') (hp : job.Carried w₀ p) : job.Carried w₀ p' := by
  rcases step_moves hcross hp hev h with rfl | ⟨i, ph, pr, w', out, -, hi, hmove, rfl⟩
  · exact hp.start
  · exact hp.settle hcross hi hmove

/-- **Nothing comes from nowhere.** In every state of an undisturbed run the sources are as
they were, and every other cell is, too, or has been written by a pair. -/
theorem run_carried (hcross : job.Crosses) {sched : List (Pool.Event Event)}
    (hsched : ∀ ev ∈ sched, job.Undisturbed w₀ ev)
    (h : Machine.run (Pool.step job.tasks) { shared := w₀ } sched = some p) : job.Carried w₀ p := by
  have hstep : ∀ (q : CopyPool) ev q', job.Undisturbed w₀ ev → Pool.step job.tasks q ev = some q' →
      job.Carried w₀ q → job.Carried w₀ q' := fun q ev q' hev hs hq => step_carried hcross hev hs hq
  exact Machine.along_invariant hstep (Machine.along_of_mem _ hsched) h (carried_init job w₀)

/-! ## Runs that get to their end -/

/-- What a phase still needs: it begins, reads everything at once, and ends. -/
def stepsLeft : Phase → Nat
  | .start => 2
  | .copying _ first got => if got.length = first.length then 0 else 1
  | .copied => 0

/-- Where nothing was at a destination, what cannot be stored is blocked. -/
theorem Carried.blocked_of_store (hp : job.Carried w₀ p) (hcross : job.Crosses) {pr : Url × Url}
    (hpr : pr ∈ job.pairs)
    (hvacant : job.transferOf w₀ pr = .download → w₀ (job.target w₀ pr) = none)
    {data : List UInt8} (h : job.store p.shared (job.transferOf w₀ pr) pr.2 data = none) :
    job.Blocked w₀ pr := by
  rcases hcross.transferOf_cases hpr w₀ with ⟨-, ht | ht⟩ | ⟨-, ht | ht⟩
  · rw [ht] at h
    cases h
  · rw [ht] at h
    cases h
  · have htarget : job.target w₀ pr = .file (job.fileLoc pr.2.path) := by
      rw [target, ht]
      rfl
    rw [ht] at h
    have hres : p.shared.resolve (job.fileLoc pr.2.path) = none := Option.map_eq_none_iff.mp h
    have hlink : p.shared.next (job.fileLoc pr.2.path) ≠ none := by
      intro hnext
      have hself : p.shared.resolve (job.fileLoc pr.2.path) = some (job.fileLoc pr.2.path) :=
        Follow.follow_of_none hnext
      rw [hself] at hres
      cases hres
    rcases hp.origins (job.target w₀ pr) with hsame | ⟨q, hq, b, hb, hdel | hpour⟩
    · rw [hvacant ht, htarget] at hsame
      exact absurd (World.next_eq_none_of_none hsame) hlink
    · refine .inr ⟨ht, q, hq, by simp [hb], ?_, hdel.target⟩
      by_contra hqt
      have hbytes := hdel.stored
      rw [stored, if_neg hqt, htarget] at hbytes
      exact hlink (World.next_eq_none_of_bytes hbytes)
    · obtain ⟨l, d, -, hd, -⟩ := hpour.bytes
      rw [htarget] at hd
      exact absurd (World.next_eq_none_of_bytes hd) hlink
  · rw [ht, store] at h
    split at h
    · cases h
    · rename_i hnamed
      exact .inl ⟨ht, by simpa using hnamed⟩

/-- A transfer can always take a step towards its end. -/
theorem Carried.exists_work (hp : job.Carried w₀ p) (hcross : job.Crosses) {i : Nat} {ph : Phase}
    {pr : Url × Url} (hph : (i, ph) ∈ p.inFlight) (hi : job.pairs[i]? = some pr)
    (hvacant : job.original w₀ pr ≠ none → job.transferOf w₀ pr = .download →
      w₀ (job.target w₀ pr) = none) :
    ∃ e w' out, job.Undisturbed w₀ (.work i e) ∧ job.copyOne pr ph e p.shared = some (w', out) ∧
      ∀ ph', out = .inl ph' → stepsLeft ph' < stepsLeft ph := by
  have hpr : pr ∈ job.pairs := List.mem_of_getElem? hi
  have hint := hp.sources.intact hcross hpr
  have hfits := hp.phases i ph hph pr hi
  have hcalm : ∀ e, (∀ err applied, e ≠ .fail err applied) → job.Undisturbed w₀ (.work i e) := by
    intro e he j err applied hev
    exact absurd (Pool.Event.work.inj hev).2 (he err applied)
  have hfail : job.original w₀ pr = none ∨ job.Blocked w₀ pr →
      job.Undisturbed w₀ (.work i (.fail (.msg []) false)) := by
    intro h j err applied hev q hq
    rw [← (Pool.Event.work.inj hev).1, hi] at hq
    rw [← Option.some.inj hq]
    exact h
  cases ph with
  | start =>
    cases horig : job.original w₀ pr with
    | none => exact ⟨_, _, _, hfail (.inl horig), rfl, by simp⟩
    | some b =>
      refine ⟨.go, p.shared, .inl (.copying (job.transferOf w₀ pr) b []), hcalm _ (by simp), ?_, ?_⟩
      · have ht := transferOf_congr (hint _ (srcCell_mem_reads job w₀ pr))
        have hb := content_congr hint
        rw [horig] at hb
        simp [copyOne, hcross.real, ht, hb]
      · rintro ph' hph'
        rw [← Sum.inl.inj hph']
        simp only [stepsLeft]
        split <;> omega
  | copying t first got =>
    obtain ⟨rfl, horig, hpre⟩ := hfits
    have hrest : job.rest pr p.shared (job.transferOf w₀ pr) first got = first.drop got.length :=
      rest_eq horig (.inl hint)
    have hstopped : ∀ data, job.store p.shared (job.transferOf w₀ pr) pr.2 data = none →
        job.Undisturbed w₀ (.work i (.fail (.msg []) false)) :=
      fun data h => hfail (.inr (hp.blocked_of_store hcross hpr (hvacant (by simp [horig])) h))
    by_cases hall : got.length = first.length
    · have hdone : job.rest pr p.shared (job.transferOf w₀ pr) first got = [] := by
        rw [hrest, hall, List.drop_length]
      cases hstore : job.store p.shared (job.transferOf w₀ pr) pr.2 got with
      | none => exact ⟨_, _, _, hstopped _ hstore, rfl, by simp⟩
      | some w' =>
        refine ⟨.go, w', .inr (.ok ()), hcalm _ (by simp), ?_, by simp⟩
        simp [copyOne, hdone, hstore, hcross.keeps]
    · have hmore : ∀ ph', (Sum.inl (.copying (job.transferOf w₀ pr) first
          (got ++ (job.rest pr p.shared (job.transferOf w₀ pr) first got).take first.length)) :
            Phase ⊕ Except StorageError Unit) = .inl ph' →
          stepsLeft ph' < stepsLeft (.copying (job.transferOf w₀ pr) first got) := by
        rintro ph' hph'
        rw [← Sum.inl.inj hph', hrest]
        have hle := hpre.length_le
        have hlen : (got ++ (first.drop got.length).take first.length).length = first.length := by
          rw [List.length_append, List.length_take, List.length_drop]
          omega
        simp [stepsLeft, hlen, hall]
      cases htrunc : (job.transferOf w₀ pr).truncates with
      | false =>
        refine ⟨.read first.length [], p.shared, _, hcalm _ (by simp), ?_, hmore⟩
        simp [copyOne, htrunc]
      | true =>
        cases hstore : job.store p.shared (job.transferOf w₀ pr) pr.2 [] with
        | none => exact ⟨_, _, _, hstopped _ hstore, rfl, by simp⟩
        | some w' =>
          refine ⟨.read first.length [], w', _, hcalm _ (by simp), ?_, hmore⟩
          simp [copyOne, htrunc, hstore]
  | copied => exact hfits.elim

/-- **The transfers get to their end**: where nothing was at the destinations of the
downloads, some undisturbed run is complete. -/
theorem exists_undisturbed_run (hcross : job.Crosses)
    (hvacant : ∀ pr ∈ job.pairs, job.original w₀ pr ≠ none → job.transferOf w₀ pr = .download →
      w₀ (job.target w₀ pr) = none) :
    ∃ sched p, Machine.run (Pool.step job.tasks) { shared := w₀ } sched = some p ∧
      Pool.Complete job.tasks p ∧ ∀ ev ∈ sched, job.Undisturbed w₀ ev := by
  have hstart : job.Undisturbed w₀ .start := by
    intro i e applied hev
    cases hev
  have hkeep : ∀ (q : CopyPool) ev q', (job.Carried w₀ q ∧ ∀ t ∈ q.inFlight, t.1 < job.pairs.length) →
      job.Undisturbed w₀ ev → Pool.step job.tasks q ev = some q' →
      job.Carried w₀ q' ∧ ∀ t ∈ q'.inFlight, t.1 < job.pairs.length := by
    rintro q ev q' ⟨hq, hlt⟩ hev hs
    refine ⟨step_carried hcross hev hs hq, ?_⟩
    obtain ⟨-, hnext, -, rfl⟩ | ⟨i, e, ph, w', out, -, hph, -, rfl⟩ := Pool.step_cases hs
    · intro t ht
      rcases List.mem_append.mp ht with ht | ht
      · exact hlt t ht
      · rw [List.mem_singleton.mp ht]
        exact hnext
    · have hothers : ∀ t ∈ q.others i, t.1 < job.pairs.length :=
        fun t ht => hlt t (List.mem_of_mem_filter ht)
      cases out with
      | inl ph' =>
        intro t ht
        rcases List.mem_cons.mp ht with rfl | ht
        · exact hlt (i, ph) (Pool.mem_of_lookup hph)
        · exact hothers t ht
      | inr r => exact hothers
  have hwork : ∀ (q : CopyPool) i ph,
      (job.Carried w₀ q ∧ ∀ t ∈ q.inFlight, t.1 < job.pairs.length) → (i, ph) ∈ q.inFlight →
      ∃ e w' out, job.Undisturbed w₀ (.work i e) ∧ job.tasks.work i ph e q.shared = some (w', out) ∧
        ∀ ph', out = .inl ph' → stepsLeft ph' < stepsLeft ph := by
    rintro q i ph ⟨hq, hlt⟩ hph
    have hlt : i < job.pairs.length := hlt _ hph
    have hi : job.pairs[i]? = some job.pairs[i] := List.getElem?_eq_getElem _
    obtain ⟨e, w', out, hev, hcopy, hout⟩ :=
      hq.exists_work hcross hph hi (hvacant _ (List.mem_of_getElem? hi))
    refine ⟨e, w', out, hev, ?_, hout⟩
    simp only [tasks, hi]
    exact hcopy
  have hlimit : 0 < job.tasks.limit := Nat.lt_of_lt_of_le Nat.one_pos (Nat.le_max_right _ _)
  exact Pool.exists_complete_of hlimit stepsLeft hstart hkeep hwork
    ⟨carried_init job w₀, by simp⟩

/-! ## Pairs that keep out of each other's way -/

/-- Pairs with one target copy the same, a file that is downloaded is not there yet, and a
link is made where a name is. -/
structure Apart (job : Job) (w₀ : World) : Prop where
  same : ∀ pr ∈ job.pairs, ∀ q ∈ job.pairs, job.original w₀ pr ≠ none → job.original w₀ q ≠ none →
    job.target w₀ pr = job.target w₀ q →
      job.transferOf w₀ pr = job.transferOf w₀ q ∧ job.original w₀ pr = job.original w₀ q
  vacant : ∀ pr ∈ job.pairs, job.original w₀ pr ≠ none → job.transferOf w₀ pr = .download →
    w₀ (job.target w₀ pr) = none
  named : ∀ pr ∈ job.pairs, job.original w₀ pr ≠ none → job.transferOf w₀ pr = .downloadLink →
    endsInName (linkPath pr.2) = true

theorem Apart.not_blocked (h : job.Apart w₀) {pr : Url × Url} (hpr : pr ∈ job.pairs)
    (horig : job.original w₀ pr ≠ none) : ¬ job.Blocked w₀ pr := by
  rintro (⟨ht, hnot⟩ | ⟨ht, q, hq, hqorig, hqt, heq⟩)
  · rw [h.named pr hpr horig ht] at hnot
    cases hnot
  · have hsame := (h.same q hq pr hpr hqorig horig heq).1
    rw [hqt, ht] at hsame
    cases hsame

/-- A pair is found at its target. -/
def Placed (job : Job) (w₀ w : World) (pr : Url × Url) : Prop :=
  ∃ b, job.original w₀ pr = some b ∧
    w (job.target w₀ pr) = some (stored (job.transferOf w₀ pr) b)

/-- A pair with the same target is being copied. -/
def Pending (job : Job) (w₀ : World) (p : CopyPool) (pr : Url × Url) : Prop :=
  ∃ j ph q, (j, ph) ∈ p.inFlight ∧ ph ≠ .start ∧ job.pairs[j]? = some q ∧
    job.target w₀ q = job.target w₀ pr

/-- The pairs that are done are found at their targets, or are about to be. -/
structure Settled (job : Job) (w₀ : World) (p : CopyPool) : Prop extends Carried job w₀ p where
  wf : p.Wf
  done : ∀ i, (i, .ok ()) ∈ p.results → ∀ pr, job.pairs[i]? = some pr →
    job.original w₀ pr ≠ none ∧ (job.Placed w₀ p.shared pr ∨ job.Pending w₀ p pr)

/-- A file that is downloaded is not reached through a link. -/
theorem Carried.resolve_download (hp : job.Carried w₀ p) (hapart : job.Apart w₀) {pr : Url × Url}
    (hpr : pr ∈ job.pairs) (horig : job.original w₀ pr ≠ none)
    (ht : job.transferOf w₀ pr = .download) :
    p.shared.resolve (job.fileLoc pr.2.path) = some (job.fileLoc pr.2.path) := by
  have htarget : job.target w₀ pr = .file (job.fileLoc pr.2.path) := by
    rw [target, ht]
    rfl
  refine Follow.follow_of_none ?_
  rcases hp.origins (.file (job.fileLoc pr.2.path)) with hsame | ⟨q, hq, b, hb, hdel | hpour⟩
  · rw [← htarget, hapart.vacant pr hpr horig ht, htarget] at hsame
    exact World.next_eq_none_of_none hsame
  · -- what is delivered in one piece is not downloaded
    have hsame := (hapart.same q hq pr hpr (by simp [hb]) horig (hdel.target.trans htarget.symm)).1
    have hwhole := hdel.whole
    rw [hsame, ht] at hwhole
    cases hwhole
  · obtain ⟨l, d, -, hd, -⟩ := hpour.bytes
    exact World.next_eq_none_of_bytes hd

theorem settled_init (job : Job) (w₀ : World) : job.Settled w₀ { shared := w₀ } where
  toCarried := carried_init job w₀
  wf := Pool.wf_init w₀
  done := by simp

theorem Settled.start (hp : job.Settled w₀ p) :
    job.Settled w₀ { p with next := p.next + 1, inFlight := p.inFlight ++ [(p.next, Phase.start)] } where
  toCarried := hp.toCarried.start
  wf := hp.wf.start _
  done := by
    intro i hi pr hpr
    obtain ⟨horig, hplaced | ⟨j, ph, q, hj, hph, hq, ht⟩⟩ := hp.done i hi pr hpr
    · exact ⟨horig, .inl hplaced⟩
    · exact ⟨horig, .inr ⟨j, ph, q, List.mem_append_left _ hj, hph, hq, ht⟩⟩

/-- A pair that is being copied goes on. -/
theorem Pending.goOn {i : Nat} {ph' : Phase} {pr q : Url × Url} {w' : World}
    (h : job.Pending w₀ p q) (hi : job.pairs[i]? = some pr) (hph' : ph' ≠ .start) :
    job.Pending w₀ (p.settle i w' (.inl ph')) q := by
  obtain ⟨j, ph, r, hj, hph, hr, ht⟩ := h
  by_cases hji : j = i
  · subst hji
    exact ⟨j, ph', r, List.mem_cons_self, hph', hr, ht⟩
  · exact ⟨j, ph, r, List.mem_cons_of_mem _ ((Pool.mem_others hji).mpr hj), hph, hr, ht⟩

/-- The end of another transfer changes nothing for a pair that is being copied. -/
theorem Pending.settle {i : Nat} {q : Url × Url} {w' : World} {r : Except StorageError Unit}
    (h : job.Pending w₀ p q)
    (hi : ∀ ph, (i, ph) ∈ p.inFlight → ph ≠ .start → ∀ pr, job.pairs[i]? = some pr →
      job.target w₀ pr ≠ job.target w₀ q) : job.Pending w₀ (p.settle i w' (.inr r)) q := by
  obtain ⟨j, ph, q', hj, hph, hq', ht⟩ := h
  have hji : j ≠ i := by
    rintro rfl
    exact hi ph hj hph q' hq' ht
  exact ⟨j, ph, q', (Pool.mem_others hji).mpr hj, hph, hq', ht⟩

theorem Placed.set_other {w : World} {pr : Url × Url} (h : job.Placed w₀ w pr) {c : Cell}
    (hc : c ≠ job.target w₀ pr) (v : Option Content) : job.Placed w₀ (w.set c v) pr := by
  obtain ⟨b, hb, hw⟩ := h
  refine ⟨b, hb, ?_⟩
  rw [World.set_other v hc.symm]
  exact hw

/-- What a transfer stores at its end is found at its target. -/
theorem Carried.store_eq (hp : job.Carried w₀ p) (hcross : job.Crosses) (hapart : job.Apart w₀)
    {pr : Url × Url} (hpr : pr ∈ job.pairs) {b : List UInt8} (horig : job.original w₀ pr = some b)
    {w' : World} (h : job.store p.shared (job.transferOf w₀ pr) pr.2 b = some w') :
    w' = p.shared.set (job.target w₀ pr) (some (stored (job.transferOf w₀ pr) b)) := by
  unfold target
  rcases hcross.transferOf_cases hpr w₀ with ⟨-, ht | ht⟩ | ⟨-, ht | ht⟩
  · rw [ht] at h ⊢
    exact (Option.some.inj h).symm
  · rw [ht] at h ⊢
    exact (Option.some.inj h).symm
  · have hres := hp.resolve_download hapart hpr (by simp [horig]) ht
    rw [ht] at h ⊢
    obtain ⟨l, hl, rfl⟩ := Option.map_eq_some_iff.mp h
    rw [hres] at hl
    rw [← Option.some.inj hl]
    rfl
  · rw [ht, store] at h
    rw [ht]
    split at h
    · exact (Option.some.inj h).symm
    · cases h

theorem Settled.settle (hp : job.Settled w₀ p) (hcross : job.Crosses) (hapart : job.Apart w₀)
    {i : Nat} {ph : Phase} {pr : Url × Url} {w' : World} {out : Phase ⊕ Except StorageError Unit}
    (hph : (i, ph) ∈ p.inFlight) (hi : job.pairs[i]? = some pr)
    (hmove : Moves job w₀ pr p.shared ph w' out) : job.Settled w₀ (p.settle i w' out) := by
  have hpr : pr ∈ job.pairs := List.mem_of_getElem? hi
  refine ⟨hp.toCarried.settle hcross hi hmove, hp.wf.settle hph w' out, ?_⟩
  cases hmove with
  | stop e h =>
    intro j hj q hq
    have hj' : (j, .ok ()) ∈ p.results := by
      rcases List.mem_append.mp hj with hj | hj
      · exact hj
      · cases (Prod.mk.inj (List.mem_singleton.mp hj)).2
    obtain ⟨horig, hplaced | hpending⟩ := hp.done j hj' q hq
    · exact ⟨horig, .inl hplaced⟩
    · refine ⟨horig, .inr (hpending.settle ?_)⟩
      intro ph' hph' hne r hr
      obtain rfl := Option.some.inj (hi.symm.trans hr)
      rcases h with ⟨hstart, -⟩ | hblocked
      · -- the transfer that found nothing had not begun
        have hsame := List.inj_on_of_nodup_map hp.wf.nodup hph hph' rfl
        exact absurd ((Prod.mk.inj hsame).2.symm.trans hstart) hne
      · -- a transfer that had begun is not blocked
        have horig' := (hp.phases i ph' hph' pr hi).original_ne_none hne
        exact absurd hblocked (hapart.not_blocked hpr horig')
  | goOn ph' hph' hfits =>
    intro j hj q hq
    obtain ⟨horig, hplaced | hpending⟩ := hp.done j hj q hq
    · exact ⟨horig, .inl hplaced⟩
    · exact ⟨horig, .inr (hpending.goOn hi hph')⟩
  | pour ph' l first data hph hph' hfits horig ht hl =>
    intro j hj q hq
    obtain ⟨horigq, hdone⟩ := hp.done j hj q hq
    have hlt : job.target w₀ pr = .file l := by
      have hres := hp.toCarried.resolve_download hapart hpr (by simp [horig]) ht
      rw [target, ht, ← Option.some.inj (hres.symm.trans hl)]
      rfl
    refine ⟨horigq, ?_⟩
    by_cases htq : job.target w₀ pr = job.target w₀ q
    · exact .inr ⟨i, ph', pr, List.mem_cons_self, hph', hi, htq⟩
    · rcases hdone with hplaced | hpending
      · exact .inl (hplaced.set_other (by rw [← hlt]; exact htq) _)
      · exact .inr (hpending.goOn hi hph')
  | deliver b w' hph horig hstore =>
    have hw' := hp.toCarried.store_eq hcross hapart hpr horig hstore
    intro j hj q hq
    show _ ∧ (job.Placed w₀ w' q ∨ _)
    by_cases htq : job.target w₀ pr = job.target w₀ q
    · have horigq : job.original w₀ q ≠ none := by
        rcases List.mem_append.mp hj with hj | hj
        · exact (hp.done j hj q hq).1
        · obtain ⟨rfl, -⟩ := Prod.mk.inj (List.mem_singleton.mp hj)
          obtain rfl := Option.some.inj (hi.symm.trans hq)
          simp [horig]
      obtain ⟨htransfer, hcopy⟩ := hapart.same pr hpr q (List.mem_of_getElem? hq) (by simp [horig])
        horigq htq
      refine ⟨horigq, .inl ⟨b, by rw [← hcopy, horig], ?_⟩⟩
      rw [hw', ← htq, ← htransfer]
      exact World.set_same _ _ _
    · have hj' : (j, .ok ()) ∈ p.results := by
        rcases List.mem_append.mp hj with hj | hj
        · exact hj
        · obtain ⟨rfl, -⟩ := Prod.mk.inj (List.mem_singleton.mp hj)
          exact absurd (by rw [Option.some.inj (hi.symm.trans hq)]) htq
      obtain ⟨horigq, hplaced | hpending⟩ := hp.done j hj' q hq
      · refine ⟨horigq, .inl ?_⟩
        rw [hw']
        exact hplaced.set_other htq _
      · refine ⟨horigq, .inr (hpending.settle ?_)⟩
        intro ph' _ _ r hr
        obtain rfl := Option.some.inj (hi.symm.trans hr)
        exact htq

theorem run_settled (hcross : job.Crosses) (hapart : job.Apart w₀) {sched : List (Pool.Event Event)}
    (hsched : ∀ ev ∈ sched, job.Undisturbed w₀ ev)
    (h : Machine.run (Pool.step job.tasks) { shared := w₀ } sched = some p) : job.Settled w₀ p := by
  have hstep : ∀ (q : CopyPool) ev q', job.Undisturbed w₀ ev → Pool.step job.tasks q ev = some q' →
      job.Settled w₀ q → job.Settled w₀ q' := by
    intro q ev q' hev hs hq
    rcases step_moves hcross hq.toCarried hev hs with rfl | ⟨i, ph, pr, w', out, hph, hi, hmove, rfl⟩
    · exact hq.start
    · exact hq.settle hcross hapart hph hi hmove
  exact Machine.along_invariant hstep (Machine.along_of_mem _ hsched) h (settled_init job w₀)

/-- **Everything arrives.** After an undisturbed run of pairs that keep apart, each pair
that found something at its source is found at its target, and nothing else is new. -/
theorem run_placed (hcross : job.Crosses) (hapart : job.Apart w₀) {sched : List (Pool.Event Event)}
    (hsched : ∀ ev ∈ sched, job.Undisturbed w₀ ev)
    (h : Machine.run (Pool.step job.tasks) { shared := w₀ } sched = some p)
    (hc : Pool.Complete job.tasks p) :
    (∀ pr ∈ job.pairs, job.original w₀ pr ≠ none → job.Placed w₀ p.shared pr) ∧
      ∀ c, p.shared c = w₀ c ∨
        ∃ pr ∈ job.pairs, job.original w₀ pr ≠ none ∧ job.target w₀ pr = c := by
  have hp := run_settled hcross hapart hsched h
  have hplaced : ∀ pr ∈ job.pairs, job.original w₀ pr ≠ none → job.Placed w₀ p.shared pr := by
    intro pr hpr horig
    obtain ⟨i, hi⟩ := List.mem_iff_getElem?.mp hpr
    have hlt : i ∈ List.range job.tasks.count := by
      rw [List.mem_range]
      exact (List.getElem?_eq_some_iff.mp hi).1
    obtain ⟨⟨j, r⟩, hr, rfl⟩ := List.mem_map.mp ((Pool.results_perm h hc).mem_iff.mpr hlt)
    cases r with
    | error e =>
      rcases hp.stopped j e hr pr hi with hnone | hblocked
      · exact absurd hnone horig
      · exact absurd hblocked (hapart.not_blocked hpr horig)
    | ok u =>
      rcases (hp.done j hr pr hi).2 with hplaced | ⟨k, ph, q, hk, -⟩
      · exact hplaced
      · rw [hc.2] at hk
        cases hk
  refine ⟨hplaced, fun c => (hp.origins c).imp_right ?_⟩
  rintro ⟨pr, hpr, b, hb, hdel | hpour⟩
  · exact ⟨pr, hpr, by simp [hb], hdel.target⟩
  · obtain ⟨l, d, rfl, -, hl | hlink⟩ := hpour.bytes
    · exact ⟨pr, hpr, by simp [hb], by rw [target, hpour.download, ← hl]; rfl⟩
    · -- a file is found there, not a link
      obtain ⟨b', -, hat⟩ := hplaced pr hpr (by simp [hb])
      rw [target, hpour.download] at hat
      exact absurd (World.next_eq_none_of_bytes hat) hlink

end Runs

end Job

end Rs5cmd
