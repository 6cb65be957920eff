import Rs5cmd.Command.SyncSpec
import Rs5cmd.Command.TransferSpec

/-!
# No loss in `cp` and `mv`

In every run of the worker pool, whatever the interleaving and whatever fails,
`cp` leaves its sources as they were and `mv` keeps the bytes of every source at
the source or at its destination, provided the transfers are separate.
-/

namespace Rs5cmd

open LexPath

/-! ## The pairs of a command line -/

theorem expandSources_isRemote {b : Backend} {src dst : Url} {follow : Bool} {filters : Filters}
    {pairs : List (Url × Url)} (h : expandSources b src dst follow filters = .ok pairs) :
    ∀ pr ∈ pairs, pr.2.isRemote = dst.isRemote := by
  unfold expandSources at h
  cases hc : b.newClient src with
  | error e =>
    rw [hc] at h
    cases h
  | ok client =>
    rw [hc] at h
    intro pr hpr
    by_cases hv : expandsVersions src = true
    · simp only [hv, if_true] at h
      obtain rfl := Except.ok.inj h
      obtain ⟨u, -, rfl⟩ := List.mem_map.mp hpr
      show (versionedDest u dst _).isRemote = _
      unfold versionedDest
      split <;> rfl
    · by_cases hm : isMulti b.fs src = true
      · simp only [hv, hm] at h
        obtain rfl := Except.ok.inj h
        obtain ⟨u, -, rfl⟩ := List.mem_map.mp hpr
        rfl
      · simp only [hv, hm] at h
        obtain rfl := Except.ok.inj h
        obtain rfl := List.mem_singleton.mp hpr
        show (resolveSingleDest b.fs src dst).isRemote = _
        unfold resolveSingleDest
        split <;> rfl

theorem expandAll_isRemote {b : Backend} {args : CpArgs} {dst : Url} {filters : Filters}
    {raws : List Str} {pairs : List (Url × Url)} (h : expandAll b args dst filters raws = .ok pairs) :
    ∀ pr ∈ pairs, pr.2.isRemote = dst.isRemote := by
  induction raws generalizing pairs with
  | nil =>
    obtain rfl := Except.ok.inj h
    intro pr hpr
    cases hpr
  | cons raw raws ih =>
    rw [expandAll] at h
    cases hsrc : (Url.new raw { versionId := args.versionId, allVersions := args.allVersions }).mapError
        StorageError.msg with
    | error e =>
      rw [hsrc] at h
      cases h
    | ok src =>
      cases hexp : expandSources b src dst args.followSymlinks filters with
      | error e =>
        rw [hsrc] at h
        simp [bind, Except.bind, hexp] at h
      | ok expanded =>
        cases hrest : expandAll b args dst filters raws with
        | error e =>
          rw [hsrc] at h
          simp [bind, Except.bind, hexp, hrest] at h
        | ok rest =>
          rw [hsrc] at h
          simp only [bind, Except.bind, hexp, hrest] at h
          obtain rfl := Except.ok.inj h
          intro pr hpr
          rcases List.mem_append.mp hpr with hpr | hpr
          · exact expandSources_isRemote hexp pr hpr
          · exact ih hrest pr hpr

/-- All destinations of a command line are remote, or all are local, so its pairs
make a `Job`. -/
theorem cpPairs_isRemote {b : Backend} {args : CpArgs} {isMove : Bool} {paths : List Str}
    {filters : Filters} {pairs : List (Url × Url)}
    (h : cpPairs b args isMove paths filters = .ok pairs) :
    ∃ r, ∀ pr ∈ pairs, pr.2.isRemote = r := by
  unfold cpPairs at h
  cases hlast : paths.getLast? with
  | none =>
    simp only [hlast] at h
    cases h
  | some dstRaw =>
    simp only [hlast] at h
    split at h
    · cases h
    · cases hdst : (Url.parse dstRaw).mapError StorageError.msg with
      | error e =>
        rw [hdst] at h
        cases h
      | ok dst =>
        rw [hdst] at h
        simp only [bind, Except.bind] at h
        split at h
        · cases h
        · split at h
          · cases h
          · exact ⟨dst.isRemote, expandAll_isRemote h⟩

namespace Job

abbrev CopyPool := Pool World Phase (Except StorageError Unit)

/-! ## The invariant -/

section Invariant

variable (job : Job) (w₀ : World)

/-- Everything the transfer reads is as it was before the run. -/
def Intact (w : World) (pr : Url × Url) : Prop := ∀ c ∈ job.reads w₀ pr, w c = w₀ c

/-- The destination holds the bytes `b`. -/
def Kept (w : World) (pr : Url × Url) (b : List UInt8) : Prop :=
  ∃ c, job.writes w₀ pr = some c ∧ w c = some (stored (job.transferOf w₀ pr) b)

/-- Transfer `j` has been started and is done with copying. -/
def Past (p : CopyPool) (j : Nat) : Prop :=
  j < p.next ∧ ∀ ph, (j, ph) ∈ p.inFlight → ph = .copied

/-- The source is gone, and a transfer that is done with copying has kept its
bytes. -/
def Moved (p : CopyPool) (pr : Url × Url) : Prop :=
  job.isMove = true ∧ p.shared (job.srcCell pr.1) = none ∧
    ∀ b, job.original w₀ pr = some b → ∃ j q, job.pairs[j]? = some q ∧
      job.srcCell q.1 = job.srcCell pr.1 ∧ job.Kept w₀ p.shared q b ∧ Past p j

/-- What is known of a transfer in a phase. -/
def PhaseOk (w : World) (pr : Url × Url) : Phase → Prop
  | .start => True
  | .copying t first got =>
    t = job.transferOf w₀ pr ∧ job.original w₀ pr = some first ∧ got <+: first
  | .copied => job.isMove = true ∧ ∃ b, job.original w₀ pr = some b ∧ job.Kept w₀ w pr b

structure Inv (p : CopyPool) : Prop where
  wf : p.Wf
  source : ∀ pr ∈ job.pairs, job.Intact w₀ p.shared pr ∨ job.Moved w₀ p pr
  links : ∀ pr ∈ job.pairs, ∀ x ∈ job.through w₀ pr, p.shared.link x = w₀.link x
  phase : ∀ i ph, (i, ph) ∈ p.inFlight → ∀ pr, job.pairs[i]? = some pr →
    job.PhaseOk w₀ p.shared pr ph

theorem inv_init : job.Inv w₀ { shared := w₀ } where
  wf := Pool.wf_init w₀
  source := fun _ _ => .inl fun _ _ => rfl
  links := fun _ _ _ _ => rfl
  phase := by simp

end Invariant

variable {job : Job} {w₀ : World} {p : CopyPool}

/-- What is left to read comes from the source as it was. -/
theorem rest_eq {w : World} {pr : Url × Url} {first got : List UInt8}
    (hfirst : job.original w₀ pr = some first)
    (h : job.Intact w₀ w pr ∨ w (job.srcCell pr.1) = none) :
    job.rest pr w (job.transferOf w₀ pr) first got = first.drop got.length := by
  unfold rest
  rcases h with h | h
  · rw [content_congr h, hfirst]
    rfl
  · rw [content_eq_none h]
    rfl

theorem isPrefix_append_take {first got : List UInt8} (h : got <+: first) (n : Nat) :
    got ++ (first.drop got.length).take n <+: first := by
  obtain ⟨r, rfl⟩ := h
  rw [List.drop_left]
  exact (List.prefix_append_right_inj got).mpr ( List.take_prefix n r)

theorem eq_of_drop_eq_nil {first got : List UInt8} (h : got <+: first)
    (hd : first.drop got.length = []) : got = first := by
  obtain ⟨r, rfl⟩ := h
  rw [List.drop_left] at hd
  rw [hd, List.append_nil]

/-! ## Writing to a destination -/

section Write

variable {i : Nat} {pr : Url × Url} {first : List UInt8} {c : Cell} {v : Option Content}

/-- What the transfer of `pr` may write: anything that is not a link to the file
it writes, but to an object only the bytes of its source. -/
structure Writes (job : Job) (w₀ : World) (pr : Url × Url) (first : List UInt8) (c : Cell)
    (v : Option Content) : Prop where
  original : job.original w₀ pr = some first
  writes : job.writes w₀ pr = some c
  object : c.isObject = true → v = some (.bytes first)
  noLink : job.transferOf w₀ pr ≠ .downloadLink → ∃ d, v = some (.bytes d)

/-- An object that is read and written back is as it was. -/
theorem Writes.intact (hw : Writes job w₀ pr first c v) (hsep : job.Separate w₀)
    (hpr : pr ∈ job.pairs) {w : World} {q : Url × Url} (hq : q ∈ job.pairs)
    (h : job.Intact w₀ w q) : job.Intact w₀ (w.set c v) q := by
  intro x hx
  by_cases hxc : x = c
  · subst hxc
    obtain ⟨-, hsrc, hobj⟩ := hsep.sources pr hpr q hq x hw.writes hx
    have hself : x = job.srcCell pr.1 := by
      rw [hsrc]
      exact eq_srcCell_of_isObject hx hobj
    rw [World.set_same, hw.object hobj]
    -- the transfer of an object reads the object itself
    have hne : job.transferOf w₀ pr ≠ .uploadLink :=
      transferOf_ne_uploadLink (by rw [← hself]; exact hobj)
    have horig := hw.original
    rw [Job.original, ← hself] at horig
    cases x with
    | file l => cases hobj
    | object s b k ver =>
      cases ht : job.transferOf w₀ pr with
      | uploadLink => exact absurd ht hne
      | _ =>
        rw [ht] at horig
        exact (World.bytesAt_eq_some.mp horig).symm
  · rw [World.set_other v hxc]
    exact h x hx

/-- A source that is gone stays gone. -/
theorem Writes.gone (hw : Writes job w₀ pr first c v) (hsep : job.Separate w₀)
    (hpr : pr ∈ job.pairs) (hmove : job.isMove = true) {w : World} {q : Url × Url}
    (hq : q ∈ job.pairs) (h : w (job.srcCell q.1) = none) :
    w.set c v (job.srcCell q.1) = none := by
  rw [World.set_other, h]
  rintro rfl
  have hno := (hsep.sources pr hpr q hq _ hw.writes (srcCell_mem_reads job w₀ q)).1
  rw [hmove] at hno
  cases hno

/-- The links on the way to a destination stay. -/
theorem Writes.links (hw : Writes job w₀ pr first c v) (hsep : job.Separate w₀)
    (hpr : pr ∈ job.pairs) {w : World} {q : Url × Url} (hq : q ∈ job.pairs) {x : Loc Name}
    (hx : x ∈ job.through w₀ q) (h : w.link x = w₀.link x) : (w.set c v).link x = w₀.link x := by
  by_cases hxc : .file x = c
  · subst hxc
    obtain ⟨hnone, hne⟩ := (hsep.links pr hpr q hq x hx).1 hw.writes
    obtain ⟨d, rfl⟩ := hw.noLink hne
    rw [World.link_eq_none.mpr hnone, World.link_eq_none]
    exact World.next_eq_none_of_bytes (World.set_same w _ _)
  · rw [World.link_set_other v hxc, h]

/-- What another transfer has kept stays, or is written again. -/
theorem Writes.kept (hw : Writes job w₀ pr first c v) (hsep : job.Separate w₀)
    (hmove : job.isMove = true) (hi : job.pairs[i]? = some pr) {w : World} {j : Nat} {q : Url × Url}
    (hj : job.pairs[j]? = some q) (hij : i ≠ j) {b : List UInt8} (hb : job.original w₀ q = some b)
    (h : job.Kept w₀ w q b) : job.Kept w₀ (w.set c v) q b := by
  obtain ⟨c', hc', hk⟩ := h
  refine ⟨c', hc', ?_⟩
  by_cases hcc : c' = c
  · subst hcc
    obtain ⟨hsrc, hobj⟩ := hsep.of_ne hmove hij hi hj hw.writes hc'
    have hsame : job.transferOf w₀ pr = job.transferOf w₀ q :=
      transferOf_of_srcCell_eq (List.mem_of_getElem? hi) (List.mem_of_getElem? hj) hsrc
    have hfirst : some first = some b := by
      rw [← hw.original, ← hb, Job.original, Job.original, hsame, hsrc]
    rw [World.set_same, hw.object hobj, stored_of_isObject hc' hobj, Option.some.inj hfirst]
  · rw [World.set_other v hcc, hk]

end Write

/-! ## Steps -/

section Step

variable {i : Nat} {pr : Url × Url}

/-- A task that is done with copying stays so while another one works. -/
theorem Past.settle_other {j : Nat} (h : Past p j) (hij : i ≠ j) (w : World)
    (out : Phase ⊕ Except StorageError Unit) : Past (p.settle i w out) j := by
  refine ⟨by cases out <;> exact h.1, ?_⟩
  intro ph hph
  cases out with
  | inl ph' =>
    rcases List.mem_cons.mp hph with heq | hph
    · exact absurd (Prod.mk.inj heq).1.symm hij
    · exact h.2 ph ((Pool.mem_others hij.symm).mp hph)
  | inr r => exact h.2 ph ((Pool.mem_others hij.symm).mp hph)

/-- A task that ends or goes on to `copied` is done with copying. -/
theorem past_settle_self (hlt : i < p.next) (w : World) {out : Phase ⊕ Except StorageError Unit}
    (hout : ∀ ph, out = .inl ph → ph = .copied) : Past (p.settle i w out) i := by
  refine ⟨by cases out <;> exact hlt, ?_⟩
  intro ph hph
  cases out with
  | inl ph' =>
    rcases List.mem_cons.mp hph with heq | hph
    · rw [(Prod.mk.inj heq).2]
      exact hout ph' rfl
    · exact absurd hph (Pool.not_mem_others p i ph)
  | inr r => exact absurd hph (Pool.not_mem_others p i ph)

/-- The phases of the other tasks, in a world in which what they have kept is
still there. -/
theorem phase_settle {w : World} {out : Phase ⊕ Except StorageError Unit} (hp : job.Inv w₀ p)
    (hkept : ∀ j q b, i ≠ j → job.pairs[j]? = some q → job.isMove = true →
      job.original w₀ q = some b → job.Kept w₀ p.shared q b → job.Kept w₀ w q b)
    (hself : ∀ ph, out = .inl ph → ∀ q, job.pairs[i]? = some q → job.PhaseOk w₀ w q ph) :
    ∀ j ph, (j, ph) ∈ (p.settle i w out).inFlight → ∀ q, job.pairs[j]? = some q →
      job.PhaseOk w₀ w q ph := by
  have hother : ∀ j ph, (j, ph) ∈ p.others i → ∀ q, job.pairs[j]? = some q →
      job.PhaseOk w₀ w q ph := by
    intro j ph hmem q hq
    have hij : i ≠ j := by
      rintro rfl
      exact Pool.not_mem_others p i ph hmem
    have hok := hp.phase j ph ((Pool.mem_others hij.symm).mp hmem) q hq
    cases ph with
    | start => trivial
    | copying t first got => exact hok
    | copied =>
      obtain ⟨hmove, b, hb, hk⟩ := hok
      exact ⟨hmove, b, hb, hkept j q b hij hq hmove hb hk⟩
  intro j ph hmem q hq
  cases out with
  | inl ph' =>
    rcases List.mem_cons.mp hmem with heq | hmem
    · obtain ⟨rfl, rfl⟩ := Prod.mk.inj heq
      exact hself ph rfl q hq
    · exact hother j ph hmem q hq
  | inr r => exact hother j ph hmem q hq

/-- A step that leaves the world alone. -/
theorem Inv.settle_idle (hp : job.Inv w₀ p) {ph : Phase} (hph : (i, ph) ∈ p.inFlight)
    {out : Phase ⊕ Except StorageError Unit}
    (hpast : ∀ ph', out = .inl ph' → ph ≠ .copied)
    (hself : ∀ ph', out = .inl ph' → ∀ q, job.pairs[i]? = some q →
      job.PhaseOk w₀ p.shared q ph') : job.Inv w₀ (p.settle i p.shared out) := by
  have hshared : (p.settle i p.shared out).shared = p.shared := by cases out <;> rfl
  refine ⟨hp.wf.settle hph _ out, ?_, ?_, ?_⟩
  · intro q hq
    rw [Moved, hshared]
    refine (hp.source q hq).imp_right ?_
    rintro ⟨hmove, hnone, hb⟩
    refine ⟨hmove, hnone, ?_⟩
    intro b hbq
    obtain ⟨j, q', hj, hsrc, hk, hpj⟩ := hb b hbq
    refine ⟨j, q', hj, hsrc, hk, ?_⟩
    by_cases hij : i = j
    · subst hij
      refine past_settle_self hpj.1 _ ?_
      intro ph' hout
      exact absurd (hpj.2 ph hph) (hpast ph' hout)
    · exact hpj.settle_other hij _ out
  · intro q hq x hx
    rw [hshared]
    exact hp.links q hq x hx
  · rw [hshared]
    exact phase_settle hp (fun _ _ _ _ _ _ _ h => h) hself

/-- A step of a transfer that is copying, and writes. -/
theorem Inv.settle_write (hp : job.Inv w₀ p) (hsep : job.Separate w₀) {ph : Phase}
    (hph : (i, ph) ∈ p.inFlight) (hcopy : ph ≠ .copied) (hi : job.pairs[i]? = some pr)
    {first : List UInt8} {c : Cell} {v : Option Content} (hw : Writes job w₀ pr first c v)
    {out : Phase ⊕ Except StorageError Unit}
    (hself : ∀ ph', out = .inl ph' → job.PhaseOk w₀ (p.shared.set c v) pr ph') :
    job.Inv w₀ (p.settle i (p.shared.set c v) out) := by
  have hpr : pr ∈ job.pairs := List.mem_of_getElem? hi
  have hshared : (p.settle i (p.shared.set c v) out).shared = p.shared.set c v := by
    cases out <;> rfl
  refine ⟨hp.wf.settle hph _ out, ?_, ?_, ?_⟩
  · intro q hq
    rw [Moved, hshared]
    rcases hp.source q hq with hint | ⟨hmove, hnone, hb⟩
    · exact .inl (hw.intact hsep hpr hq hint)
    · refine .inr ⟨hmove, hw.gone hsep hpr hmove hq hnone, ?_⟩
      intro b hbq
      obtain ⟨j, q', hj, hsrc, hk, hpj⟩ := hb b hbq
      -- the transfer that kept the bytes is not the one that is copying
      have hij : i ≠ j := by
        rintro rfl
        exact hcopy (hpj.2 ph hph)
      have hq' := List.mem_of_getElem? hj
      have hbq' : job.original w₀ q' = some b := by
        rw [← hbq, Job.original, Job.original, transferOf_of_srcCell_eq hq' hq hsrc, hsrc]
      exact ⟨j, q', hj, hsrc, hw.kept hsep hmove hi hj hij hbq' hk, hpj.settle_other hij _ out⟩
  · intro q hq x hx
    rw [hshared]
    exact hw.links hsep hpr hq hx (hp.links q hq x hx)
  · rw [hshared]
    refine phase_settle hp ?_ ?_
    · intro j q b hij hj hmove hb hk
      exact hw.kept hsep hmove hi hj hij hb hk
    · intro ph' hout q hq
      obtain rfl := Option.some.inj (hi.symm.trans hq)
      exact hself ph' hout

/-- A destination is not one of the sources a move removes. -/
theorem Kept.set_none (hsep : job.Separate w₀) (hmove : job.isMove = true) (hpr : pr ∈ job.pairs)
    {w : World} {q : Url × Url} (hq : q ∈ job.pairs) {b : List UInt8} (h : job.Kept w₀ w q b) :
    job.Kept w₀ (w.set (job.srcCell pr.1) none) q b := by
  obtain ⟨c, hc, hk⟩ := h
  refine ⟨c, hc, ?_⟩
  rw [World.set_other, hk]
  rintro rfl
  have hno := (hsep.sources q hq pr hpr _ hc (srcCell_mem_reads job w₀ pr)).1
  rw [hmove] at hno
  cases hno

/-- The deletion of a source that has been copied. -/
theorem Inv.settle_delete (hp : job.Inv w₀ p) (hsep : job.Separate w₀)
    (hph : (i, Phase.copied) ∈ p.inFlight) (hi : job.pairs[i]? = some pr)
    (r : Except StorageError Unit) :
    job.Inv w₀ (p.settle i (p.shared.set (job.srcCell pr.1) none) (.inr r)) := by
  have hpr : pr ∈ job.pairs := List.mem_of_getElem? hi
  obtain ⟨hmove, b, hb, hkept⟩ := hp.phase i .copied hph pr hi
  have hlt : i < p.next := hp.wf.lt_next _ hph
  refine ⟨hp.wf.settle hph _ (.inr r), ?_, ?_, ?_⟩
  · intro q hq
    show job.Intact w₀ (p.shared.set (job.srcCell pr.1) none) q ∨ _
    rcases hp.source q hq with hint | ⟨-, hnone, hb'⟩
    · by_cases hmem : job.srcCell pr.1 ∈ job.reads w₀ q
      · -- the source of `q` is the one that is removed
        have hsrc := hsep.removed hmove pr hpr q hq hmem
        refine .inr ⟨hmove, ?_, ?_⟩
        · show p.shared.set (job.srcCell pr.1) none (job.srcCell q.1) = none
          rw [hsrc, World.set_same]
        · intro b' hbq
          have hbb : some b = some b' := by
            rw [← hb, ← hbq, Job.original, Job.original, transferOf_of_srcCell_eq hpr hq hsrc, hsrc]
          rw [← Option.some.inj hbb]
          exact ⟨i, pr, hi, hsrc, hkept.set_none hsep hmove hpr hpr, past_settle_self hlt _ (by simp)⟩
      · left
        intro c hc
        rw [World.set_other]
        · exact hint c hc
        · rintro rfl
          exact hmem hc
    · refine .inr ⟨hmove, ?_, ?_⟩
      · show p.shared.set (job.srcCell pr.1) none (job.srcCell q.1) = none
        by_cases hsrc : job.srcCell q.1 = job.srcCell pr.1
        · rw [hsrc, World.set_same]
        · rw [World.set_other _ hsrc, hnone]
      · intro b' hbq
        obtain ⟨j, q', hj, hsrc, hk, hpj⟩ := hb' b' hbq
        refine ⟨j, q', hj, hsrc, hk.set_none hsep hmove hpr (List.mem_of_getElem? hj), ?_⟩
        by_cases hij : i = j
        · subst hij
          exact past_settle_self hlt _ (by simp)
        · exact hpj.settle_other hij _ _
  · intro q hq x hx
    show (p.shared.set (job.srcCell pr.1) none).link x = w₀.link x
    by_cases hxc : .file x = job.srcCell pr.1
    · rw [World.link_eq_none.mpr ((hsep.links pr hpr q hq x hx).2 hmove hxc.symm), hxc.symm,
        World.link_eq_none]
      exact World.next_eq_none_of_none (World.set_same _ _ _)
    · rw [World.link_set_other _ hxc]
      exact hp.links q hq x hx
  · refine phase_settle hp ?_ (by simp)
    intro j q b' _ hj _ _ hk
    exact hk.set_none hsep hmove hpr (List.mem_of_getElem? hj)

end Step

/-! ## Runs -/

/-- What a store writes, in terms of the world before the run. -/
theorem writes_of_store (hp : job.Inv w₀ p) {pr : Url × Url} (hpr : pr ∈ job.pairs)
    {first data : List UInt8} (horig : job.original w₀ pr = some first)
    (hdata : (job.transferOf w₀ pr).truncates = true ∨ data = first) {w' : World}
    (h : job.store p.shared (job.transferOf w₀ pr) pr.2 data = some w') :
    ∃ c, w' = p.shared.set c (some (stored (job.transferOf w₀ pr) data)) ∧
      Writes job w₀ pr first c (some (stored (job.transferOf w₀ pr) data)) := by
  obtain ⟨c, hc, rfl⟩ :=
    store_eq_some (fun x hx => World.next_eq_of_link (hp.links pr hpr x hx)) h
  refine ⟨c, rfl, horig, hc, ?_, ?_⟩
  · intro hobj
    rw [stored_of_isObject hc hobj]
    rcases hdata with htrunc | rfl
    · -- a file that is truncated is not an object
      simp only [writes, htrunc, if_true] at hc
      obtain ⟨l, -, rfl⟩ := Option.map_eq_some_iff.mp hc
      cases hobj
    · rfl
  · intro hne
    exact ⟨data, by rw [stored, if_neg hne]⟩

theorem Inv.start (hp : job.Inv w₀ p) :
    job.Inv w₀ { p with next := p.next + 1, inFlight := p.inFlight ++ [(p.next, Phase.start)] } where
  wf := hp.wf.start _
  source := by
    intro q hq
    refine (hp.source q hq).imp_right ?_
    rintro ⟨hmove, hnone, hb⟩
    refine ⟨hmove, hnone, ?_⟩
    intro b hbq
    obtain ⟨j, q', hj, hsrc, hk, hlt, hcopied⟩ := hb b hbq
    refine ⟨j, q', hj, hsrc, hk, Nat.lt_succ_of_lt hlt, ?_⟩
    intro ph hph
    rcases List.mem_append.mp hph with hph | hph
    · exact hcopied ph hph
    · obtain ⟨rfl, -⟩ := Prod.mk.inj (List.mem_singleton.mp hph)
      exact absurd hlt (Nat.lt_irrefl _)
  links := hp.links
  phase := by
    intro j ph hph q hq
    rcases List.mem_append.mp hph with hph | hph
    · exact hp.phase j ph hph q hq
    · obtain ⟨-, rfl⟩ := Prod.mk.inj (List.mem_singleton.mp hph)
      trivial

/-- One step of a transfer keeps the invariant. -/
theorem Inv.effect (hp : job.Inv w₀ p) (hsep : job.Separate w₀) {i : Nat} {pr : Url × Url}
    {ph : Phase} (hph : (i, ph) ∈ p.inFlight) (hi : job.pairs[i]? = some pr) {w' : World}
    {out : Phase ⊕ Except StorageError Unit} (h : Effect job pr p.shared ph w' out) :
    job.Inv w₀ (p.settle i w' out) := by
  have hpr : pr ∈ job.pairs := List.mem_of_getElem? hi
  have hok := hp.phase i ph hph pr hi
  have hsrc : job.Intact w₀ p.shared pr ∨ p.shared (job.srcCell pr.1) = none :=
    (hp.source pr hpr).imp_right fun hm => hm.2.1
  cases h with
  | idle => exact hp.settle_idle hph (by simp) (by simp)
  | start b hb =>
    refine hp.settle_idle hph (by simp) ?_
    intro ph' hout q hq
    obtain rfl := Sum.inl.inj hout
    obtain rfl := Option.some.inj (hi.symm.trans hq)
    rcases hsrc with hint | hnone
    · have ht := transferOf_congr (hint _ (srcCell_mem_reads job w₀ pr))
      rw [ht, content_congr hint] at hb
      exact ⟨ht, hb, List.nil_prefix⟩
    · rw [content_eq_none hnone] at hb
      cases hb
  | read t first got n =>
    obtain ⟨rfl, hfirst, hpre⟩ := hok
    refine hp.settle_idle hph (by simp) ?_
    intro ph' hout q hq
    obtain rfl := Sum.inl.inj hout
    obtain rfl := Option.some.inj (hi.symm.trans hq)
    rw [rest_eq hfirst hsrc]
    exact ⟨rfl, hfirst, isPrefix_append_take hpre n⟩
  | overwrite t first got data n w' ht hstore =>
    obtain ⟨rfl, hfirst, hpre⟩ := hok
    obtain ⟨c, rfl, hw⟩ := writes_of_store hp hpr hfirst (.inl ht) hstore
    refine hp.settle_write hsep hph (by simp) hi hw ?_
    intro ph' hout
    obtain rfl := Sum.inl.inj hout
    rw [rest_eq hfirst hsrc]
    exact ⟨rfl, hfirst, isPrefix_append_take hpre n⟩
  | commit t first got w' out hrest hstore hout =>
    obtain ⟨rfl, hfirst, hpre⟩ := hok
    rw [rest_eq hfirst hsrc] at hrest
    have hgot : got = first := eq_of_drop_eq_nil hpre hrest
    subst hgot
    obtain ⟨c, rfl, hw⟩ := writes_of_store hp hpr hfirst (.inr rfl) hstore
    refine hp.settle_write hsep hph (by simp) hi hw ?_
    intro ph' hph'
    obtain ⟨rfl, hmove⟩ := hout ph' hph'
    exact ⟨hmove, got, hfirst, c, hw.writes, World.set_same _ _ _⟩
  | unlink first got r =>
    obtain ⟨ht, hfirst, -⟩ := hok
    have hw : Writes job w₀ pr first (job.dstCell .downloadLink pr.2) none := by
      refine ⟨hfirst, by simp [writes, ← ht, Transfer.truncates], ?_, ?_⟩
      · intro hobj
        cases hobj
      · intro hne
        exact absurd ht.symm hne
    exact hp.settle_write hsep hph (by simp) hi hw (by simp)
  | delete r => exact hp.settle_delete hsep hph hi r

theorem step_inv (hsep : job.Separate w₀) {p' : CopyPool} {ev : Pool.Event Event}
    (h : Pool.step job.tasks p ev = some p') (hp : job.Inv w₀ p) : job.Inv w₀ p' := by
  obtain ⟨-, -, -, rfl⟩ | ⟨i, e, ph, w', out, -, hph, hwork, rfl⟩ := Pool.step_cases h
  · exact hp.start
  · simp only [tasks] at hwork
    split at hwork
    · rename_i pr hi
      exact hp.effect hsep (Pool.mem_of_lookup hph) hi (copyOne_effect hwork)
    · cases hwork

/-- A dry run changes nothing. -/
theorem shared_eq_of_dryRun (hdry : job.dryRun = true) {sched : List (Pool.Event Event)}
    (h : Machine.run (Pool.step job.tasks) { shared := w₀ } sched = some p) : p.shared = w₀ := by
  have hwork : ∀ i ph e w w' (out : Phase ⊕ Except StorageError Unit), ph = Phase.start →
      job.tasks.work i ph e w = some (w', out) → w' = w ∧ ∃ r, out = .inr r := by
    rintro i _ e w w' out rfl hw
    simp only [tasks] at hw
    split at hw
    · cases e with
      | go =>
        simp only [copyOne, hdry, if_true, Option.some.injEq, Prod.mk.injEq] at hw
        exact ⟨hw.1.symm, _, hw.2.symm⟩
      | read n m => cases hw
      | fail e applied =>
        simp only [copyOne, Option.some.injEq, Prod.mk.injEq] at hw
        exact ⟨hw.1.symm, _, hw.2.symm⟩
    · cases hw
  have hinv := Pool.run_inv (T := job.tasks) (I := fun w => w = w₀) (Q := fun _ ph => ph = .start)
    (R := fun _ _ => True) (fun _ _ => rfl)
    (fun i ph e w w' ph' _ hph hw => by
      obtain ⟨-, r, hr⟩ := hwork i ph e w w' _ hph hw
      cases hr)
    (fun i ph e w w' r hw₀ hph hw => by
      obtain ⟨rfl, -⟩ := hwork i ph e w w' _ hph hw
      exact ⟨hw₀, trivial⟩)
    rfl h
  exact hinv.shared

/-! ## No loss -/

/-- The bytes a transfer has kept are found at its destination. -/
theorem found_of_kept (hp : job.Inv w₀ p) (hsep : job.Separate w₀) (hmove : job.isMove = true)
    {q : Url × Url} (hq : q ∈ job.pairs) {b : List UInt8} (hb : job.original w₀ q = some b)
    (h : job.Kept w₀ p.shared q b) :
    job.found p.shared (job.transferOf w₀ q) q.2 = some b := by
  obtain ⟨c, hc, hk⟩ := h
  cases ht : job.transferOf w₀ q with
  | downloadLink =>
    have hutf := hsep.utf8 hmove q hq ht b hb
    simp only [writes, ht, Transfer.truncates, Bool.false_eq_true, if_false,
      Option.some.injEq] at hc
    subst hc
    simp only [found, hk, ht, stored, if_true, hutf]
  | copy | upload | uploadLink =>
    simp only [writes, ht, Transfer.truncates, Bool.false_eq_true, if_false,
      Option.some.injEq] at hc
    subst hc
    rw [ht] at hk
    exact World.bytesAt_eq_some.mpr hk
  | download | fsCopy =>
    -- the destination still resolves to the file that was written
    simp only [writes, ht, Transfer.truncates, if_true] at hc
    obtain ⟨l, hl, rfl⟩ := Option.map_eq_some_iff.mp hc
    have hres : p.shared.resolve (job.fileLoc q.2.path) = some l := by
      rw [← hl]
      refine World.resolve_congr ?_
      intro x hx
      exact World.next_eq_of_link
        (hp.links q hq x (by simpa [through, ht, Transfer.truncates] using hx))
    rw [ht] at hk
    show p.shared.read (.file (job.fileLoc q.2.path)) = some b
    rw [World.read, hres, Option.bind_some]
    exact World.bytesAt_eq_some.mpr hk

/-- A world with the given cells. -/
def worldOf (cells : List (Cell × Content)) : World := fun c => cells.lookup c

/-- The pairs a command line expands to, over an empty file system. -/
def pairsOf (isMove : Bool) (paths : List String) : List (Url × Url) :=
  okD (cpPairs (.ofKeys []) {} isMove (paths.map String.toList) noFilters) []

/-- `mv s3://b/x/a s3://b/y/a /d/`. -/
def collidingMove : Job where
  pairs := pairsOf true ["s3://b/x/a", "s3://b/y/a", "/d/"]
  dstRemote := false
  pairs_dst := by decide +kernel
  isMove := true

/-- `cp /d/a /d/`. -/
def selfCopy : Job where
  pairs := pairsOf false ["/d/a", "/d/"]
  dstRemote := false
  pairs_dst := by decide +kernel

/-- `mv s3://b/x/a s3://b/y/c /d/`. -/
def plainMove : Job where
  pairs := pairsOf true ["s3://b/x/a", "s3://b/y/c", "/d/"]
  dstRemote := false
  pairs_dst := by decide +kernel
  isMove := true

def object (key : String) : Cell := .object false ['b'] key.toList []

/-- One transfer from its start to its end, in one piece. -/
def oneAfterAnother (i : Nat) : List (Pool.Event Event) :=
  [.start, .work i .go, .work i (.read 8 []), .work i .go, .work i .go]

end Job

end Rs5cmd
