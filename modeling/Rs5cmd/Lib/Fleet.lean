import Rs5cmd.Lib.Machine
import Mathlib.Data.List.Forall2
import Mathlib.Data.List.Perm.Basic

/-!
# Machines that run side by side and send to one channel

The members of a fleet share nothing but a channel. Which of them takes the next
step is up to the schedule, so a run of the fleet is an interleaving of runs of its
members: the channel holds what each of them sends on its own, shuffled. Conversely
runs of the members, one after the other, are a run of the fleet.
-/

/-- The members, and what they have sent, in the order of the channel. -/
structure Fleet (σ ω : Type*) where
  members : List σ
  sent : List ω := []

namespace Fleet

variable {σ ε ω : Type*}

/-- Member `e.1` takes the step `e.2`. A member's step says what it sends. -/
def step (work : σ → ε → Option (σ × List ω)) (f : Fleet σ ω) (e : Nat × ε) : Option (Fleet σ ω) :=
  (f.members[e.1]?).bind fun s =>
    (work s e.2).map fun r => { members := f.members.set e.1 r.1, sent := f.sent ++ r.2 }

/-- A run of one member, with what it sends. -/
inductive Sends (work : σ → ε → Option (σ × List ω)) (s : σ) : List ω → σ → Prop where
  | refl : Sends work s [] s
  | tail {log out : List ω} {t u : σ} {e : ε} (h : Sends work s log t)
      (hwork : work t e = some (u, out)) : Sends work s (log ++ out) u

variable {work : σ → ε → Option (σ × List ω)}

/-- What a step can do. -/
theorem step_cases {f f' : Fleet σ ω} {e : Nat × ε} (h : step work f e = some f') :
    ∃ s s' out, f.members[e.1]? = some s ∧ work s e.2 = some (s', out) ∧
      f' = { members := f.members.set e.1 s', sent := f.sent ++ out } := by
  obtain ⟨s, hs, hwork⟩ := Option.bind_eq_some_iff.mp h
  obtain ⟨⟨s', out⟩, hr, rfl⟩ := Option.map_eq_some_iff.mp hwork
  exact ⟨s, s', out, hs, hr, rfl⟩

/-! ## One member -/

theorem Sends.single {s t : σ} {e : ε} {out : List ω} (h : work s e = some (t, out)) :
    Sends work s out t :=
  Sends.tail Sends.refl h

theorem Sends.trans {s t u : σ} {log log' : List ω} (h : Sends work s log t)
    (h' : Sends work t log' u) : Sends work s (log ++ log') u := by
  induction h' with
  | refl => rw [List.append_nil]; exact h
  | tail _ hwork ih =>
    rw [← List.append_assoc]
    exact Sends.tail ih hwork

/-- What every step of a member keeps, given what it has sent so far. -/
theorem Sends.invariant {I : List ω → σ → Prop}
    (hstep : ∀ log s e s' out, work s e = some (s', out) → I log s → I (log ++ out) s')
    {s t : σ} {log : List ω} (h : Sends work s log t) (hs : I [] s) : I log t := by
  induction h with
  | refl => exact hs
  | tail _ hwork ih => exact hstep _ _ _ _ _ hwork ih

/-! ## A run of the fleet is an interleaving -/

/-- The members have come to the states of `ends`, each having sent its part of the
channel. -/
def Interleaved (work : σ → ε → Option (σ × List ω)) (members : List σ) (f : Fleet σ ω)
    (ends : List (List ω × σ)) : Prop :=
  List.Forall₂ (fun s r => Sends work s r.1 r.2) members ends ∧
    f.members = ends.map Prod.snd ∧ f.sent.Perm (ends.map Prod.fst).flatten

theorem forall₂_set {α β : Type*} {R : α → β → Prop} {as : List α} {bs : List β} {b b' : β} {i : Nat}
    (h : List.Forall₂ R as bs) (hb : bs[i]? = some b) (hR : ∀ a, R a b → R a b') :
    List.Forall₂ R as (bs.set i b') := by
  induction h generalizing i with
  | nil => exact List.Forall₂.nil
  | cons hab hrest ih =>
    cases i with
    | zero =>
      obtain rfl := Option.some.inj hb
      exact List.Forall₂.cons (hR _ hab) hrest
    | succ i => exact List.Forall₂.cons hab (ih hb)

theorem exists_of_forall₂_of_mem {α β : Type*} {R : α → β → Prop} {as : List α} {bs : List β}
    (h : List.Forall₂ R as bs) {a : α} (ha : a ∈ as) : ∃ b ∈ bs, R a b := by
  induction h with
  | nil => cases ha
  | @cons a' b as bs hab _ ih =>
    rcases List.mem_cons.mp ha with rfl | hrest
    · exact ⟨b, List.mem_cons_self, hab⟩
    · obtain ⟨b', hb', hR⟩ := ih hrest
      exact ⟨b', List.mem_cons_of_mem b hb', hR⟩

theorem exists_forall₂ {α β : Type*} {R : α → β → Prop} {as : List α} (h : ∀ a ∈ as, ∃ b, R a b) :
    ∃ bs, List.Forall₂ R as bs := by
  induction as with
  | nil => exact ⟨[], List.Forall₂.nil⟩
  | cons a as ih =>
    obtain ⟨b, hb⟩ := h a List.mem_cons_self
    obtain ⟨bs, hbs⟩ := ih fun a' ha' => h a' (List.mem_cons_of_mem a ha')
    exact ⟨b :: bs, List.Forall₂.cons hb hbs⟩

theorem flatten_set_perm {logs : List (List ω)} {log : List ω} {i : Nat} (h : logs[i]? = some log)
    (out : List ω) : (logs.flatten ++ out).Perm (logs.set i (log ++ out)).flatten := by
  induction logs generalizing i with
  | nil => cases h
  | cons first rest ih =>
    cases i with
    | zero =>
      obtain rfl := Option.some.inj h
      show (first ++ rest.flatten ++ out).Perm (first ++ out ++ rest.flatten)
      rw [List.append_assoc, List.append_assoc]
      exact List.Perm.append_left _ List.perm_append_comm
    | succ i =>
      show (first ++ rest.flatten ++ out).Perm (first ++ (rest.set i (log ++ out)).flatten)
      rw [List.append_assoc]
      exact List.Perm.append_left _ (ih h)

theorem step_interleaved {members : List σ} {f f' : Fleet σ ω} {e : Nat × ε}
    (h : step work f e = some f') (hf : ∃ ends, Interleaved work members f ends) :
    ∃ ends, Interleaved work members f' ends := by
  obtain ⟨ends, hruns, hmembers, hsent⟩ := hf
  obtain ⟨s, s', out, hs, hwork, rfl⟩ := step_cases h
  rw [hmembers, List.getElem?_map] at hs
  obtain ⟨⟨log, t⟩, hend, rfl⟩ := Option.map_eq_some_iff.mp hs
  refine ⟨ends.set e.1 (log ++ out, s'), ?_, ?_, ?_⟩
  · exact forall₂_set hruns hend fun a ha => Sends.tail ha hwork
  · show f.members.set e.1 s' = _
    rw [hmembers, List.map_set]
  · show (f.sent ++ out).Perm _
    have hlog : (ends.map Prod.fst)[e.1]? = some log := by rw [List.getElem?_map, hend]; rfl
    rw [List.map_set]
    exact (hsent.append_right out).trans (flatten_set_perm hlog out)

/-- **Every run of a fleet interleaves runs of its members.** -/
theorem run_interleaved {members : List σ} {f : Fleet σ ω} {es : List (Nat × ε)}
    (h : Machine.run (step work) { members := members } es = some f) :
    ∃ ends, Interleaved work members f ends := by
  have hinit : ∃ ends, Interleaved work members { members := members } ends := by
    refine ⟨members.map fun s => ([], s), ?_, ?_, ?_⟩
    · rw [List.forall₂_map_right_iff, List.forall₂_same]
      exact fun s _ => Sends.refl
    · rw [List.map_map]
      exact (List.map_id _).symm
    · rw [List.map_map]
      have hnil : (members.map (Prod.fst ∘ fun s => (([] : List ω), s))).flatten = [] := by
        rw [List.flatten_eq_nil_iff]
        intro l hl
        obtain ⟨_, _, rfl⟩ := List.mem_map.mp hl
        rfl
      rw [hnil]
  exact Machine.run_invariant (P := fun g => ∃ ends, Interleaved work members g ends)
    (fun _ _ _ => step_interleaved) h hinit

/-! ## Runs of the members, one after the other -/

/-- A run of one member is one of the fleet. -/
theorem Sends.lift {before after : List σ} {s t : σ} {log : List ω} (h : Sends work s log t)
    (sent : List ω) :
    ∃ es, Machine.run (step work) { members := before ++ s :: after, sent := sent } es =
      some { members := before ++ t :: after, sent := sent ++ log } := by
  induction h with
  | refl => exact ⟨[], by rw [List.append_nil]; rfl⟩
  | @tail log out t u e _ hwork ih =>
    obtain ⟨es, hes⟩ := ih
    refine ⟨es ++ [(before.length, e)], ?_⟩
    rw [Machine.run_append, hes]
    simp [Machine.run, step, hwork]

/-- **Runs of the members make a run of the fleet.** -/
theorem exists_run {members : List σ} {ends : List (List ω × σ)}
    (h : List.Forall₂ (fun s r => Sends work s r.1 r.2) members ends) :
    ∃ es, Machine.run (step work) { members := members } es =
      some { members := ends.map Prod.snd, sent := (ends.map Prod.fst).flatten } := by
  -- the members before have ended, those after have not begun
  have hrest : ∀ (before : List σ) (sent : List ω),
      ∃ es, Machine.run (step work) { members := before ++ members, sent := sent } es =
        some { members := before ++ ends.map Prod.snd,
               sent := sent ++ (ends.map Prod.fst).flatten } := by
    induction h with
    | nil => exact fun before sent => ⟨[], by simp⟩
    | @cons s r members ends hs _ ih =>
      intro before sent
      obtain ⟨es, hes⟩ := @Sends.lift _ _ _ _ before members _ _ _ hs sent
      obtain ⟨fs, hfs⟩ := ih (before ++ [r.2]) (sent ++ r.1)
      refine ⟨es ++ fs, ?_⟩
      rw [Machine.run_append, hes]
      show Machine.run (step work) { members := before ++ r.2 :: members, sent := sent ++ r.1 } fs = _
      rw [List.append_cons, hfs]
      simp
  exact hrest [] []

/-- What every step of a member keeps holds of every member along every run. -/
theorem run_forall {I : σ → Prop} (hstep : ∀ s e s' out, work s e = some (s', out) → I s → I s')
    {f : Fleet σ ω} (hf : ∀ s ∈ f.members, I s) (es : List (Nat × ε)) :
    Machine.Always (step work) (fun g => ∀ s ∈ g.members, I s) f es := by
  refine Machine.always_of_along (fun f e f' _ h hI => ?_)
    (Machine.along_of_forall (fun _ _ => trivial) f es) hf
  obtain ⟨s, s', out, hs, hwork, rfl⟩ := step_cases h
  intro t ht
  rcases List.mem_or_eq_of_mem_set ht with hold | rfl
  · exact hI t hold
  · exact hstep s e.2 _ out hwork (hI s (List.mem_of_getElem? hs))

end Fleet
