import Rs5cmd.Lib.Turns
import Rs5cmd.Theorems.Transfer

/-!
# The transfers of one run do not depend on their order

When no transfer changes what another one touches, a run of `cp` or `mv` has one outcome,
which can be read off the world before it: each destination holds what its source held,
and a moved source is gone. Neither the number of workers nor the way the transfers are
interleaved, cut into reads and retried shows, and a transfer that fails costs the cells
it changes itself and no other.
-/

namespace Rs5cmd

open LexPath

namespace World

theorem set_congr {w v : World} {c c' : Cell} (x : Option Content) (h : w c' = v c') :
    w.set c x c' = v.set c x c' := by
  unfold set
  split
  · rfl
  · exact h

end World

namespace Job

/-! ## What a transfer changes -/

/-- The cells a transfer may change. -/
def changed (job : Job) (w : World) (pr : Url × Url) : List Cell :=
  (job.writes w pr).toList ++ if job.isMove then [job.srcCell pr.1] else []

/-- Paths mean what they say, no transfer changes what another one touches, and none
writes its own source. -/
structure Independent (job : Job) (w : World) : Prop where
  lexical : job.Lexical w
  apart : job.pairs.Pairwise fun p q => (∀ c ∈ job.changed w p, c ∉ job.touched w q) ∧
    ∀ c ∈ job.changed w q, c ∉ job.touched w p
  own : ∀ p ∈ job.pairs, ∀ c ∈ (job.writes w p).toList, c ∉ job.reads w p

/-- What a transfer stores at its destination. -/
def result (job : Job) (w : World) (pr : Url × Url) : Option Content :=
  (job.original w pr).map (stored (job.transferOf w pr))

/-- The transfer that writes a cell. -/
def writer (job : Job) (w : World) (c : Cell) : Option (Url × Url) :=
  job.pairs.find? fun p => decide (job.writes w p = some c)

/-- The world that the transfers leave when all of them succeed. -/
def outcome (job : Job) (w : World) : World := fun c =>
  match job.writer w c with
  | some p => job.result w p
  | none =>
    if job.isMove && job.pairs.any fun p => decide (job.srcCell p.1 = c) then none else w c

section Cells

variable {job : Job} {w w₀ : World} {pr : Url × Url} {c : Cell}

theorem mem_changed : c ∈ job.changed w pr ↔
    job.writes w pr = some c ∨ job.isMove = true ∧ c = job.srcCell pr.1 := by
  simp only [changed, List.mem_append, Option.mem_toList]
  cases job.isMove <;> simp

theorem mem_touched : c ∈ job.touched w pr ↔
    job.writes w pr = some c ∨ c ∈ job.reads w pr ∨ ∃ x ∈ job.through w pr, .file x = c := by
  simp only [touched, List.mem_append, Option.mem_toList, List.mem_map, or_assoc]

theorem writer_eq_some {p : Url × Url} (h : job.writer w c = some p) :
    p ∈ job.pairs ∧ job.writes w p = some c := by
  refine ⟨List.mem_of_find?_eq_some h, ?_⟩
  simpa using List.find?_some h

theorem writer_eq_none : job.writer w c = none ↔ ∀ p ∈ job.pairs, job.writes w p ≠ some c := by
  simp [writer, List.find?_eq_none]

theorem Independent.of_ne (h : job.Independent w) {i j : Nat} {p q : Url × Url} (hij : i ≠ j)
    (hi : job.pairs[i]? = some p) (hj : job.pairs[j]? = some q) (hc : c ∈ job.changed w p) :
    c ∉ job.touched w q := by
  have hpair := List.pairwise_iff_getElem.mp h.apart
  obtain ⟨hi', rfl⟩ := List.getElem?_eq_some_iff.mp hi
  obtain ⟨hj', rfl⟩ := List.getElem?_eq_some_iff.mp hj
  rcases Nat.lt_or_gt_of_ne hij with hlt | hlt
  · exact (hpair i j hi' hj' hlt).1 c hc
  · exact (hpair j i hj' hi' hlt).2 c hc

/-- Storing, as long as the links on the way are as they were. -/
theorem store_eq (hlinks : ∀ x ∈ job.through w₀ pr, w.next x = w₀.next x) (data : List UInt8) :
    job.store w (job.transferOf w₀ pr) pr.2 data =
      if job.transferOf w₀ pr = .downloadLink ∧ endsInName (linkPath pr.2) = false then none
      else (job.writes w₀ pr).map fun c =>
        w.set c (some (stored (job.transferOf w₀ pr) data)) := by
  cases ht : job.transferOf w₀ pr with
  | copy | upload | uploadLink => simp [store, writes, ht, Transfer.truncates, stored]
  | downloadLink =>
    cases hname : endsInName (linkPath pr.2) <;>
      simp [store, writes, ht, Transfer.truncates, stored, hname]
  | download | fsCopy =>
    have hres : w.resolve (job.fileLoc pr.2.path) = w₀.resolve (job.fileLoc pr.2.path) := by
      refine World.resolve_congr ?_
      intro x hx
      exact hlinks x (by simpa [through, ht, Transfer.truncates] using hx)
    simp only [store, writes, ht, Transfer.truncates, hres, Option.map_map, reduceCtorEq, false_and,
      if_false, if_true]
    rfl

end Cells

/-! ## One transfer -/

section Steps

variable {job : Job} {w v w' w₀ : World} {pr : Url × Url}

/-- Nothing that the transfer reads or goes through has changed. -/
def Untouched (job : Job) (w₀ w : World) (pr : Url × Url) : Prop :=
  job.Intact w₀ w pr ∧ ∀ x ∈ job.through w₀ pr, w.next x = w₀.next x

/-- What is known of a transfer in a phase. -/
def Alone (job : Job) (w₀ : World) (pr : Url × Url) (ph : Phase) (w : World) : Prop :=
  match ph with
  | .start => job.Untouched w₀ w pr
  | .copying t first got => job.Untouched w₀ w pr ∧ t = job.transferOf w₀ pr ∧
    job.original w₀ pr = some first ∧ got <+: first
  | .copied => job.isMove = true ∧ ∃ c, job.writes w₀ pr = some c ∧ w c = job.result w₀ pr

/-- The transfer has done its work. -/
def Done (job : Job) (w₀ w : World) (pr : Url × Url) : Prop :=
  (∃ c, job.writes w₀ pr = some c ∧ w c = job.result w₀ pr) ∧
    (job.isMove = true → w (job.srcCell pr.1) = none)

theorem Untouched.congr (h : job.Untouched w₀ w pr)
    (heq : ∀ c ∈ job.touched w₀ pr, w c = v c) : job.Untouched w₀ v pr := by
  refine ⟨?_, ?_⟩
  · intro c hc
    rw [← heq c (mem_touched.mpr (.inr (.inl hc)))]
    exact h.1 c hc
  · intro x hx
    rw [← h.2 x hx]
    exact World.next_congr (heq _ (mem_touched.mpr (.inr (.inr ⟨x, hx, rfl⟩)))).symm

theorem Alone.congr {ph : Phase} (h : job.Alone w₀ pr ph w)
    (heq : ∀ c ∈ job.touched w₀ pr, w c = v c) : job.Alone w₀ pr ph v := by
  cases ph with
  | start => exact Untouched.congr h heq
  | copying t first got => exact ⟨h.1.congr heq, h.2⟩
  | copied =>
    obtain ⟨hmove, c, hc, hw⟩ := h
    exact ⟨hmove, c, hc, by rw [← heq c (mem_touched.mpr (.inl hc))]; exact hw⟩

/-- Storing leaves alone what the transfer reads and goes through. -/
theorem Untouched.set (h : job.Untouched w₀ w pr) (hown : ∀ c ∈ (job.writes w₀ pr).toList,
    c ∉ job.reads w₀ pr) {c : Cell} (hc : job.writes w₀ pr = some c)
    {data : List UInt8} : job.Untouched w₀
      (w.set c (some (stored (job.transferOf w₀ pr) data))) pr := by
  have hread : c ∉ job.reads w₀ pr := hown c (Option.mem_toList.mpr hc)
  refine ⟨?_, ?_⟩
  · intro c' hc'
    have hne : c' ≠ c := by
      rintro rfl
      exact hread hc'
    rw [World.set_other _ hne]
    exact h.1 c' hc'
  · intro x hx
    by_cases hxc : Cell.file x = c
    · -- the file at the end of the way: bytes take the place of bytes
      have htrunc : (job.transferOf w₀ pr).truncates = true := by
        by_contra hno
        simp [through, hno] at hx
      have hend : w₀.next x = none := by
        simp only [writes, htrunc, if_true] at hc
        obtain ⟨l, hl, rfl⟩ := Option.map_eq_some_iff.mp hc
        obtain rfl : x = l := Cell.file.inj hxc
        exact (World.resolve_eq_some hl).2
      have hbytes : stored (job.transferOf w₀ pr) data = .bytes data := by
        refine if_neg ?_
        intro ht
        rw [ht] at htrunc
        cases htrunc
      rw [hend, hbytes]
      exact World.next_eq_none_of_bytes (b := data) (by rw [hxc, World.set_same])
    · rw [World.next_set_other _ hxc]
      exact h.2 x hx

/-- A step changes no cell but those of the transfer, and keeps what is known of it. -/
theorem copyOne_frame (hown : ∀ c ∈ (job.writes w₀ pr).toList, c ∉ job.reads w₀ pr) {ph : Phase}
    {ev : Event} {out : Phase ⊕ Except StorageError Unit} (hI : job.Alone w₀ pr ph w)
    (h : job.copyOne pr ph ev w = some (w', out)) :
    (∀ c, c ∉ job.changed w₀ pr → w' c = w c) ∧ ∀ ph', out = .inl ph' → job.Alone w₀ pr ph' w' := by
  cases copyOne_effect h with
  | idle ph r => exact ⟨fun _ _ => rfl, fun _ h => by cases h⟩
  | start b hb =>
    have ht : job.transferOf w pr = job.transferOf w₀ pr :=
      transferOf_congr (hI.1 _ (srcCell_mem_reads job w₀ pr))
    refine ⟨fun _ _ => rfl, ?_⟩
    rintro _ ⟨rfl⟩
    refine ⟨hI, ht, ?_, List.nil_prefix⟩
    rw [← content_congr hI.1, ← ht]
    exact hb
  | read t first got n =>
    obtain ⟨hun, rfl, hfirst, hgot⟩ := hI
    refine ⟨fun _ _ => rfl, ?_⟩
    rintro _ ⟨rfl⟩
    refine ⟨hun, rfl, hfirst, ?_⟩
    rw [rest_eq hfirst (.inl hun.1)]
    exact isPrefix_append_take hgot n
  | overwrite t first got data n w' htrunc hw' =>
    obtain ⟨hun, rfl, hfirst, hgot⟩ := hI
    obtain ⟨c, hc, rfl⟩ := store_eq_some hun.2 hw'
    refine ⟨?_, ?_⟩
    · intro c' hc'
      exact World.set_other _ fun heq => hc' (mem_changed.mpr (.inl (heq ▸ hc)))
    · rintro _ ⟨rfl⟩
      refine ⟨hun.set hown hc, rfl, hfirst, ?_⟩
      rw [rest_eq hfirst (.inl hun.1)]
      exact isPrefix_append_take hgot n
  | commit t first got w' out hrest hw' hout =>
    obtain ⟨hun, rfl, hfirst, hgot⟩ := hI
    obtain ⟨c, hc, rfl⟩ := store_eq_some hun.2 hw'
    refine ⟨?_, ?_⟩
    · intro c' hc'
      exact World.set_other _ fun heq => hc' (mem_changed.mpr (.inl (heq ▸ hc)))
    · intro ph' hph'
      obtain ⟨rfl, hmove⟩ := hout ph' hph'
      refine ⟨hmove, c, hc, ?_⟩
      rw [rest_eq hfirst (.inl hun.1)] at hrest
      rw [World.set_same, result, hfirst, eq_of_drop_eq_nil hgot hrest]
      rfl
  | unlink first got r =>
    obtain ⟨-, ht, -⟩ := hI
    refine ⟨?_, fun _ h => by cases h⟩
    intro c' hc'
    refine World.set_other _ fun heq => hc' (mem_changed.mpr (.inl ?_))
    rw [writes, ← ht, heq]
    rfl
  | delete r =>
    obtain ⟨hmove, -⟩ := hI
    refine ⟨?_, fun _ h => by cases h⟩
    intro c' hc'
    exact World.set_other _ fun heq => hc' (mem_changed.mpr (.inr ⟨hmove, heq⟩))

/-- Storing the same bytes in two worlds that agree on what the transfer touches. -/
theorem store_congr (hw : ∀ x ∈ job.through w₀ pr, w.next x = w₀.next x)
    (hv : ∀ x ∈ job.through w₀ pr, v.next x = w₀.next x)
    (heq : ∀ c ∈ job.touched w₀ pr, w c = v c) {data : List UInt8}
    (h : job.store w (job.transferOf w₀ pr) pr.2 data = some w') :
    ∃ v', job.store v (job.transferOf w₀ pr) pr.2 data = some v' ∧
      ∀ c ∈ job.touched w₀ pr, w' c = v' c := by
  rw [store_eq hw] at h
  rw [store_eq hv]
  split at h
  · cases h
  · rename_i hname
    obtain ⟨c, hc, rfl⟩ := Option.map_eq_some_iff.mp h
    refine ⟨_, ?_, fun c' hc' => World.set_congr _ (heq c' hc')⟩
    rw [if_neg hname, hc]
    rfl

/-- A step depends only on what the transfer touches. -/
theorem copyOne_congr {ph : Phase} {ev : Event} {out : Phase ⊕ Except StorageError Unit}
    (hI : job.Alone w₀ pr ph w) (heq : ∀ c ∈ job.touched w₀ pr, w c = v c)
    (h : job.copyOne pr ph ev w = some (w', out)) :
    ∃ v', job.copyOne pr ph ev v = some (v', out) ∧ ∀ c ∈ job.touched w₀ pr, w' c = v' c := by
  have hI' := hI.congr heq
  have hset : ∀ c x, ∀ c' ∈ job.touched w₀ pr, (w.set c x) c' = (v.set c x) c' :=
    fun c x c' hc' => World.set_congr x (heq c' hc')
  cases ph with
  | start =>
    have ht : job.transferOf w pr = job.transferOf w₀ pr :=
      transferOf_congr (hI.1 _ (srcCell_mem_reads job w₀ pr))
    have ht' : job.transferOf v pr = job.transferOf w₀ pr :=
      transferOf_congr (hI'.1 _ (srcCell_mem_reads job w₀ pr))
    cases ev with
    | go =>
      simp only [copyOne, ht, ht', content_congr hI.1, content_congr hI'.1] at h ⊢
      by_cases hdry : job.dryRun = true
      · simp only [hdry, if_true, Option.some.injEq, Prod.mk.injEq] at h ⊢
        obtain ⟨rfl, hout⟩ := h
        exact ⟨v, ⟨rfl, hout⟩, heq⟩
      · rw [if_neg hdry] at h ⊢
        obtain ⟨b, hb, hout⟩ := Option.map_eq_some_iff.mp h
        obtain ⟨rfl, rfl⟩ := Prod.mk.inj hout
        exact ⟨v, Option.map_eq_some_iff.mpr ⟨b, hb, rfl⟩, heq⟩
    | read n m => cases h
    | fail e applied =>
      obtain ⟨rfl, rfl⟩ := Prod.mk.inj (Option.some.inj h)
      exact ⟨v, rfl, heq⟩
  | copying t first got =>
    obtain ⟨hun, rfl, hfirst, -⟩ := hI
    have hrest : job.rest pr w (job.transferOf w₀ pr) first got = first.drop got.length :=
      rest_eq hfirst (.inl hun.1)
    have hrest' : job.rest pr v (job.transferOf w₀ pr) first got = first.drop got.length :=
      rest_eq hfirst (.inl hI'.1.1)
    cases ev with
    | go =>
      simp only [copyOne, hrest, hrest'] at h ⊢
      split at h
      · rename_i hend
        obtain ⟨w₁, hw₁, hout⟩ := Option.map_eq_some_iff.mp h
        obtain ⟨rfl, rfl⟩ := Prod.mk.inj hout
        obtain ⟨v₁, hv₁, heq₁⟩ := store_congr hun.2 hI'.1.2 heq hw₁
        rw [if_pos hend]
        exact ⟨v₁, Option.map_eq_some_iff.mpr ⟨v₁, hv₁, rfl⟩, heq₁⟩
      · cases h
    | read n m =>
      simp only [copyOne, hrest, hrest'] at h ⊢
      split at h
      · rename_i htrunc
        obtain ⟨w₁, hw₁, hout⟩ := Option.map_eq_some_iff.mp h
        obtain ⟨rfl, rfl⟩ := Prod.mk.inj hout
        obtain ⟨v₁, hv₁, heq₁⟩ := store_congr hun.2 hI'.1.2 heq hw₁
        rw [if_pos htrunc]
        exact ⟨v₁, Option.map_eq_some_iff.mpr ⟨v₁, hv₁, rfl⟩, heq₁⟩
      · rename_i htrunc
        obtain ⟨rfl, rfl⟩ := Prod.mk.inj (Option.some.inj h)
        rw [if_neg htrunc]
        exact ⟨v, rfl, heq⟩
    | fail e applied =>
      obtain ⟨rfl, rfl⟩ := Prod.mk.inj (Option.some.inj h)
      refine ⟨_, rfl, ?_⟩
      unfold failed
      rw [hrest, hrest']
      cases applied with
      | false => exact heq
      | true =>
        cases job.transferOf w₀ pr with
        | download | fsCopy => exact heq
        | downloadLink =>
          intro c hc
          simp only [if_true]
          split
          · exact hset _ _ c hc
          · exact heq c hc
        | copy | upload | uploadLink =>
          intro c hc
          simp only [if_true]
          split
          · exact hset _ _ c hc
          · exact heq c hc
  | copied =>
    cases ev with
    | go =>
      obtain ⟨rfl, rfl⟩ := Prod.mk.inj (Option.some.inj h)
      exact ⟨_, rfl, hset _ _⟩
    | read n m => cases h
    | fail e applied =>
      obtain ⟨rfl, rfl⟩ := Prod.mk.inj (Option.some.inj h)
      refine ⟨_, rfl, ?_⟩
      cases applied with
      | false => exact heq
      | true => exact hset _ _

/-- A transfer that ends well has done its work. -/
theorem copyOne_done (hown : ∀ c ∈ (job.writes w₀ pr).toList, c ∉ job.reads w₀ pr)
    (hdry : job.dryRun = false) {ph : Phase} {ev : Event} (hI : job.Alone w₀ pr ph w)
    (h : job.copyOne pr ph ev w = some (w', .inr (.ok ()))) : job.Done w₀ w' pr := by
  cases ph with
  | start =>
    cases ev with
    | go =>
      simp only [copyOne, hdry, Bool.false_eq_true, if_false] at h
      obtain ⟨b, -, hout⟩ := Option.map_eq_some_iff.mp h
      cases hout
    | read n m => cases h
    | fail e applied => cases h
  | copying t first got =>
    obtain ⟨hun, rfl, hfirst, hgot⟩ := hI
    cases ev with
    | go =>
      simp only [copyOne, rest_eq hfirst (.inl hun.1)] at h
      split at h
      · rename_i hrest
        obtain ⟨w₁, hw₁, hout⟩ := Option.map_eq_some_iff.mp h
        obtain ⟨rfl, hend⟩ := Prod.mk.inj hout
        obtain ⟨c, hc, rfl⟩ := store_eq_some hun.2 hw₁
        cases hmove : job.isMove with
        | true =>
          rw [hmove] at hend
          cases hend
        | false =>
          refine ⟨⟨c, hc, ?_⟩, fun hm => by rw [hmove] at hm; cases hm⟩
          rw [World.set_same, result, hfirst, eq_of_drop_eq_nil hgot hrest]
          rfl
      · cases h
    | read n m =>
      simp only [copyOne] at h
      split at h
      · obtain ⟨w₁, -, hout⟩ := Option.map_eq_some_iff.mp h
        cases hout
      · cases h
    | fail e applied => cases h
  | copied =>
    obtain ⟨-, c, hc, hw⟩ := hI
    cases ev with
    | go =>
      obtain ⟨rfl, -⟩ := Prod.mk.inj (Option.some.inj h)
      refine ⟨⟨c, hc, ?_⟩, fun _ => World.set_same w _ _⟩
      have hne : c ≠ job.srcCell pr.1 := by
        rintro rfl
        exact hown _ (Option.mem_toList.mpr hc) (srcCell_mem_reads job w₀ pr)
      rw [World.set_other _ hne]
      exact hw
    | read n m => cases h
    | fail e applied => cases h

end Steps

/-! ## The run -/

/-- Tasks that carry out the transfers: task `i` is the one of the pair at `pos i`, and
takes the steps of `one`. `I` is what is known of a transfer in a phase, and `ok` says
which results are good ones. -/
structure Implements {ι φ ρ ε : Type} (job : Job) (w₀ : World) (pos : ι → Option Nat)
    (start : ι → φ) (work : ι → φ → ε → World → Option (World × (φ ⊕ ρ)))
    (one : Url × Url → φ → ε → World → Option (World × (φ ⊕ ρ)))
    (I : Url × Url → φ → World → Prop) (ok : ρ → Prop) : Prop where
  pos_inj : ∀ i j k, pos i = some k → pos j = some k → i = j
  work_eq : ∀ i ph e w, work i ph e w =
    ((pos i).bind fun k => job.pairs[k]?).bind fun pr => one pr ph e w
  start_ok : ∀ i, ∀ pr ∈ job.pairs, I pr (start i) w₀
  congr : ∀ pr ph w v, I pr ph w → (∀ c ∈ job.touched w₀ pr, w c = v c) → I pr ph v
  frame : ∀ pr ∈ job.pairs, ∀ ph e w w' out, I pr ph w → one pr ph e w = some (w', out) →
    (∀ c, c ∉ job.changed w₀ pr → w' c = w c) ∧ ∀ ph', out = .inl ph' → I pr ph' w'
  done : ∀ pr ∈ job.pairs, ∀ ph e w w' r, I pr ph w → one pr ph e w = some (w', .inr r) →
    ok r → job.Done w₀ w' pr
  steps : ∀ pr ∈ job.pairs, ∀ ph e w v w' out, I pr ph w →
    (∀ c ∈ job.touched w₀ pr, w c = v c) → one pr ph e w = some (w', out) →
      ∃ v', one pr ph e v = some (v', out) ∧ ∀ c ∈ job.touched w₀ pr, w' c = v' c

section Implement

variable {ι φ ρ ε : Type} {job : Job} {w₀ : World} {pos : ι → Option Nat} {start : ι → φ}
  {work : ι → φ → ε → World → Option (World × (φ ⊕ ρ))}
  {one : Url × Url → φ → ε → World → Option (World × (φ ⊕ ρ))}
  {I : Url × Url → φ → World → Prop} {ok : ρ → Prop}

/-- The pair at a position. -/
def At (job : Job) (pos : ι → Option Nat) (i : ι) (pr : Url × Url) : Prop :=
  ((pos i).bind fun k => job.pairs[k]?) = some pr

theorem At.mem {i : ι} {pr : Url × Url} (h : job.At pos i pr) : pr ∈ job.pairs := by
  obtain ⟨k, -, hk⟩ := Option.bind_eq_some_iff.mp h
  exact List.mem_of_getElem? hk

/-- Independent transfers keep out of each other's way. -/
theorem Implements.apart (himp : job.Implements w₀ pos start work one I ok) (h : job.Independent w₀) :
    Turns.Apart work (fun i => {c | ∃ pr, job.At pos i pr ∧ c ∈ job.touched w₀ pr})
      (fun i => {c | ∃ pr, job.At pos i pr ∧ c ∈ job.changed w₀ pr})
      fun i ph w => ∀ pr, job.At pos i pr → I pr ph w where
  disjoint := by
    rintro i j hij c ⟨p, hp, hc⟩ ⟨q, hq, hc'⟩
    obtain ⟨k, hi, hk⟩ := Option.bind_eq_some_iff.mp hp
    obtain ⟨l, hj, hl⟩ := Option.bind_eq_some_iff.mp hq
    have hkl : k ≠ l := by
      rintro rfl
      exact hij (himp.pos_inj i j k hi hj)
    exact h.of_ne hkl hk hl hc hc'
  congr := by
    intro i ph w v hI heq pr hpr
    exact himp.congr pr ph w v (hI pr hpr) fun c hc => heq ⟨pr, hpr, hc⟩
  frame := by
    intro i ph e w w' out hI hwork
    rw [himp.work_eq] at hwork
    obtain ⟨pr, hpr, hwork⟩ := Option.bind_eq_some_iff.mp hwork
    obtain ⟨hframe, hnext⟩ := himp.frame pr (At.mem hpr) ph e w w' out (hI pr hpr) hwork
    refine ⟨fun c hc => hframe c fun hmem => hc ⟨pr, hpr, hmem⟩, ?_⟩
    intro ph' hout pr' hpr'
    obtain rfl := Option.some.inj (hpr.symm.trans hpr')
    exact hnext ph' hout
  steps := by
    intro i ph e w v w' out hI heq hwork
    rw [himp.work_eq] at hwork ⊢
    obtain ⟨pr, hpr, hwork⟩ := Option.bind_eq_some_iff.mp hwork
    obtain ⟨v', hv', heq'⟩ := himp.steps pr (At.mem hpr) ph e w v w' out (hI pr hpr)
      (fun c hc => heq ⟨pr, hpr, hc⟩) hwork
    refine ⟨v', Option.bind_eq_some_iff.mpr ⟨pr, hpr, hv'⟩, ?_⟩
    rintro c ⟨pr', hpr', hc⟩
    obtain rfl := Option.some.inj (hpr.symm.trans hpr')
    exact heq' c hc

/-- A transfer that is alone and ends well has done its work. -/
theorem Implements.solo_done (himp : job.Implements w₀ pos start work one I ok) {i : ι}
    {pr : Url × Url} (hpr : job.At pos i pr) {es : List ε} {v : World} {r : ρ} (hr : ok r)
    (hrun : Machine.run (Turns.solo (work i)) (w₀, .inl (start i)) es = some (v, .inr r)) :
    job.Done w₀ v pr := by
  have hinv := Machine.run_invariant (P := fun s : World × (φ ⊕ ρ) =>
    (∀ ph, s.2 = .inl ph → I pr ph s.1) ∧ ∀ r, s.2 = .inr r → ok r → job.Done w₀ s.1 pr)
    ?_ hrun ⟨?_, fun _ h => by cases h⟩
  · exact hinv.2 r rfl hr
  · rintro ⟨w, st⟩ e ⟨w', st'⟩ hstep ⟨hI, -⟩
    cases st with
    | inr r => cases hstep
    | inl ph =>
      have hone : one pr ph e w = some (w', st') := by
        have hwork : work i ph e w = some (w', st') := hstep
        rw [himp.work_eq, hpr] at hwork
        exact hwork
      refine ⟨(himp.frame pr (At.mem hpr) ph e w w' st' (hI ph rfl) hone).2, ?_⟩
      rintro r rfl hr
      exact himp.done pr (At.mem hpr) ph e w w' r (hI ph rfl) hone hr
  · rintro _ ⟨rfl⟩
    exact himp.start_ok i pr (At.mem hpr)

/-- What a transfer that is done leaves depends on what it touches. -/
theorem Done.congr {w v : World} {pr : Url × Url} (h : job.Done w₀ v pr)
    (heq : ∀ c ∈ job.touched w₀ pr, v c = w c) : job.Done w₀ w pr := by
  obtain ⟨⟨c, hc, hv⟩, hsrc⟩ := h
  refine ⟨⟨c, hc, ?_⟩, ?_⟩
  · rw [← heq c (mem_touched.mpr (.inl hc))]
    exact hv
  · intro hmove
    rw [← heq _ (mem_touched.mpr (.inr (.inl (srcCell_mem_reads job w₀ pr))))]
    exact hsrc hmove

/-- The transfers that have ended well have done their work, whatever the others did. -/
theorem Implements.run_done [DecidableEq ι] (himp : job.Implements w₀ pos start work one I ok)
    (h : job.Independent w₀) {es : List (ι × ε)} {s : Turns ι Cell (Option Content) φ ρ}
    (hrun : Machine.run (Turns.step work) ⟨w₀, fun i => .inl (start i)⟩ es = some s) :
    (∀ c, (∀ pr ∈ job.pairs, c ∉ job.changed w₀ pr) → s.shared c = w₀ c) ∧
      ∀ i pr r, job.At pos i pr → s.status i = .inr r → ok r → job.Done w₀ s.shared pr := by
  obtain ⟨halone, hclean⟩ := Turns.run_asAlone (himp.apart h)
    (fun i pr hpr => himp.start_ok i pr (At.mem hpr)) hrun
  refine ⟨?_, ?_⟩
  · intro c hc
    refine hclean c ?_
    rintro i ⟨pr, hi, hmem⟩
    exact hc pr (At.mem hi) hmem
  · intro i pr r hi hr hok
    obtain ⟨es', v, hsolo, heq, -⟩ := halone i
    rw [hr] at hsolo
    exact (himp.solo_done hi hok hsolo).congr fun c hc => heq ⟨pr, hi, hc⟩

end Implement

section Run

variable {job : Job} {w₀ : World}

/-- The default path carries out the transfers. -/
theorem tasks_implements (h : job.Independent w₀) (hdry : job.dryRun = false) :
    job.Implements w₀ some (fun _ => .start) job.tasks.work job.copyOne (job.Alone w₀)
      (fun r => r = .ok ()) where
  pos_inj := fun i j k hi hj => (Option.some.inj hi).trans (Option.some.inj hj).symm
  work_eq := by
    intro i ph e w
    show (match job.pairs[i]? with
      | some pr => job.copyOne pr ph e w
      | none => none) = (job.pairs[i]?).bind fun pr => job.copyOne pr ph e w
    cases job.pairs[i]? <;> rfl
  start_ok := fun _ _ _ => ⟨fun _ _ => rfl, fun _ _ => rfl⟩
  congr := fun _ _ _ _ hI heq => hI.congr heq
  frame := fun pr hpr _ _ _ _ _ hI hstep => copyOne_frame (h.own pr hpr) hI hstep
  done := by
    rintro pr hpr ph e w w' _ hI hstep rfl
    exact copyOne_done (h.own pr hpr) hdry hI hstep
  steps := fun _ _ _ _ _ _ _ _ hI heq hstep => copyOne_congr hI heq hstep

/-- A cell that a transfer writes has no other writer. -/
theorem Independent.writer_eq (h : job.Independent w₀) {pr : Url × Url} (hpr : pr ∈ job.pairs)
    {c : Cell} (hc : job.writes w₀ pr = some c) : job.writer w₀ c = some pr := by
  cases hq : job.writer w₀ c with
  | none => exact absurd hc (writer_eq_none.mp hq pr hpr)
  | some q =>
    obtain ⟨hmem, hqc⟩ := writer_eq_some hq
    obtain ⟨i, hi⟩ := List.mem_iff_getElem?.mp hpr
    obtain ⟨j, hj⟩ := List.mem_iff_getElem?.mp hmem
    by_cases hij : i = j
    · subst hij
      exact hj.symm.trans hi
    · exact absurd (mem_touched.mpr (.inl hqc)) (h.of_ne hij hi hj (mem_changed.mpr (.inl hc)))

/-- No transfer writes what another one, or it itself, moves away. -/
theorem Independent.writer_src (h : job.Independent w₀) (hmove : job.isMove = true)
    {pr : Url × Url} (hpr : pr ∈ job.pairs) : job.writer w₀ (job.srcCell pr.1) = none := by
  refine writer_eq_none.mpr ?_
  intro q hq hqc
  obtain ⟨i, hi⟩ := List.mem_iff_getElem?.mp hpr
  obtain ⟨j, hj⟩ := List.mem_iff_getElem?.mp hq
  by_cases hij : i = j
  · subst hij
    obtain rfl := Option.some.inj (hi.symm.trans hj)
    exact h.own pr hpr _ (Option.mem_toList.mpr hqc) (srcCell_mem_reads job w₀ pr)
  · exact h.of_ne hij hi hj (mem_changed.mpr (.inr ⟨hmove, rfl⟩)) (mem_touched.mpr (.inl hqc))

/-- What a transfer that has done its work leaves in the cells it changes. -/
theorem Done.eq_outcome {w : World} {pr : Url × Url} (hdone : job.Done w₀ w pr)
    (h : job.Independent w₀) (hpr : pr ∈ job.pairs) {c : Cell} (hc : c ∈ job.changed w₀ pr) :
    w c = job.outcome w₀ c := by
  obtain ⟨⟨c', hc', hw⟩, hsrc⟩ := hdone
  unfold outcome
  rcases mem_changed.mp hc with hwrites | ⟨hmove, rfl⟩
  · obtain rfl := Option.some.inj (hc'.symm.trans hwrites)
    rw [h.writer_eq hpr hwrites]
    exact hw
  · rw [h.writer_src hmove hpr, hsrc hmove]
    have hany : (job.pairs.any fun p => decide (job.srcCell p.1 = job.srcCell pr.1)) = true :=
      List.any_eq_true.mpr ⟨pr, hpr, decide_eq_true rfl⟩
    simp [hmove, hany]

/-- A cell that no transfer changes is not in the outcome either. -/
theorem outcome_eq_of_unchanged {c : Cell} (h : ∀ pr ∈ job.pairs, c ∉ job.changed w₀ pr) :
    job.outcome w₀ c = w₀ c := by
  unfold outcome
  rw [writer_eq_none.mpr fun pr hpr hc => h pr hpr (mem_changed.mpr (.inl hc))]
  refine if_neg ?_
  intro hany
  obtain ⟨hmove, hany⟩ := Bool.and_eq_true_iff.mp hany
  obtain ⟨pr, hpr, hc⟩ := List.any_eq_true.mp hany
  exact h pr hpr (mem_changed.mpr (.inr ⟨hmove, (of_decide_eq_true hc).symm⟩))

/-- A world in which some transfers have done their work, and in which no cell has changed
that is none of a transfer, is the outcome up to the cells of the other transfers. -/
theorem eq_outcome_of_done (h : job.Independent w₀) {w : World}
    (hclean : ∀ c, (∀ pr ∈ job.pairs, c ∉ job.changed w₀ pr) → w c = w₀ c) {c : Cell}
    (hdone : ∀ pr ∈ job.pairs, c ∈ job.changed w₀ pr → job.Done w₀ w pr) :
    w c = job.outcome w₀ c := by
  by_cases hc : ∃ pr ∈ job.pairs, c ∈ job.changed w₀ pr
  · obtain ⟨pr, hpr, hmem⟩ := hc
    exact (hdone pr hpr hmem).eq_outcome h hpr hmem
  · have hnone : ∀ pr ∈ job.pairs, c ∉ job.changed w₀ pr := fun pr hpr hmem => hc ⟨pr, hpr, hmem⟩
    rw [hclean c hnone, outcome_eq_of_unchanged hnone]

/-- The transfers that have ended well have done their work, whatever the others did. -/
theorem run_done (h : job.Independent w₀) (hdry : job.dryRun = false)
    {sched : List (Pool.Event Event)} {p : CopyPool}
    (hrun : Machine.run (Pool.step job.tasks) { shared := w₀ } sched = some p) :
    (∀ c, (∀ pr ∈ job.pairs, c ∉ job.changed w₀ pr) → p.shared c = w₀ c) ∧
      ∀ i pr, job.pairs[i]? = some pr → (i, .ok ()) ∈ p.results → job.Done w₀ p.shared pr := by
  obtain ⟨es, status, hturns, hfollows⟩ := Pool.run_turns hrun
  obtain ⟨hclean, hdone⟩ := (tasks_implements h hdry).run_done h hturns
  exact ⟨hclean, fun i pr hi hr => hdone i pr _ hi (hfollows.results i _ hr) rfl⟩

/-- The objects that two moves take to one directory. -/
def twoObjects : World := worldOf [(object "x/a", .bytes [1]), (object "y/c", .bytes [2])]

def twoMoves : Job := { plainMove with workers := 2 }

/-- The first move fails to write its file, the second one goes on. -/
def oneFails : List (Pool.Event Event) :=
  [.start, .start, .work 0 .go, .work 1 .go, .work 1 (.read 8 []), .work 0 (.read 8 []),
    .work 0 (.fail .noObjectFound false), .work 1 .go, .work 1 .go]

end Run

end Job

end Rs5cmd
