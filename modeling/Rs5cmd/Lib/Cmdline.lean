import Mathlib.Data.List.Basic

/-!
# Options on a command line

A command line gives some declared options, each with its values, before a command.
`Cmdline` is what is declared of the options. How a line is read is left open: a
reader that takes the options as declared (`Cmdline.Reads`) reads a list of options
that was spelled out as a line back as just these options.
-/

/-- The declared options: what introduces each, whether a value follows, which values
it accepts, and which tokens are never taken for a value. -/
structure Cmdline (ι τ : Type*) where
  name : ι → τ
  takesValue : ι → Bool
  accepts : ι → τ → Bool
  optionLike : τ → Bool

/-- What is found on a line: the values of the options given on it, and the command. -/
structure Cmdline.Matches (ι τ κ : Type*) where
  given : ι → Option (List τ)
  command : κ

namespace Cmdline

variable {ι τ κ ε : Type*} [DecidableEq ι]

def Matches.give (m : Matches ι τ κ) (o : ι) (vals : List τ) : Matches ι τ κ where
  given := fun o' => if o' = o then some vals else m.given o'
  command := m.command

/-- The reader takes the options as declared. -/
structure Reads (D : Cmdline ι τ) (read : List τ → Except ε (Matches ι τ κ)) : Prop where
  switch : ∀ o args m, D.takesValue o = false → read args = .ok m → m.given o = none →
    read (D.name o :: args) = .ok (m.give o [])
  value : ∀ o v args m, D.takesValue o = true → D.optionLike v = false → D.accepts o v = true →
    read args = .ok m → m.given o = none → read (D.name o :: v :: args) = .ok (m.give o [v])
  noValue : ∀ o v args, D.takesValue o = true → D.optionLike v = true →
    ∃ e, read (D.name o :: v :: args) = .error e
  invalid : ∀ o v args, D.takesValue o = true → D.accepts o v = false →
    ∃ e, read (D.name o :: v :: args) = .error e
  switch_rest : ∀ o args e, D.takesValue o = false → read args = .error e →
    ∃ e', read (D.name o :: args) = .error e'
  value_rest : ∀ o v args e, D.takesValue o = true → read args = .error e →
    ∃ e', read (D.name o :: v :: args) = .error e'

/-- The tokens that give these options. -/
def spell (D : Cmdline ι τ) (opts : List (ι × List τ)) : List τ :=
  opts.flatMap fun o => D.name o.1 :: o.2

/-- A switch without a value, or an option with one value. -/
def Shaped (D : Cmdline ι τ) (o : ι × List τ) : Prop :=
  if D.takesValue o.1 then ∃ v, o.2 = [v] else o.2 = []

/-- The values can be told from options, and are accepted. -/
def Fits (D : Cmdline ι τ) (o : ι × List τ) : Prop :=
  ∀ v ∈ o.2, D.optionLike v = false ∧ D.accepts o.1 v = true

/-- What is found when these options are given before the rest of a line. -/
def Matches.giveAll (opts : List (ι × List τ)) (m : Matches ι τ κ) : Matches ι τ κ :=
  opts.foldr (fun o m => m.give o.1 o.2) m

theorem Matches.giveAll_command (opts : List (ι × List τ)) (m : Matches ι τ κ) :
    (m.giveAll opts).command = m.command := by
  induction opts with
  | nil => rfl
  | cons o opts ih => exact ih

theorem Matches.giveAll_given (opts : List (ι × List τ)) (m : Matches ι τ κ) (o : ι) :
    (m.giveAll opts).given o = (opts.lookup o).or (m.given o) := by
  induction opts with
  | nil => rfl
  | cons first opts ih =>
    show (if o = first.1 then some first.2 else (m.giveAll opts).given o) = _
    by_cases ho : o = first.1
    · rw [if_pos ho, List.lookup_cons, beq_iff_eq.mpr ho]
      rfl
    · rw [if_neg ho, ih, List.lookup_cons, beq_eq_false_iff_ne.mpr ho]

variable {D : Cmdline ι τ} {read : List τ → Except ε (Matches ι τ κ)}

/-- **Options that are spelled out are read back**, whatever stands after them. -/
theorem Reads.read_spell (hread : D.Reads read) {args : List τ} {m : Matches ι τ κ}
    (hargs : read args = .ok m) {opts : List (ι × List τ)} (hnodup : (opts.map Prod.fst).Nodup)
    (hnew : ∀ o ∈ opts, m.given o.1 = none) (hshaped : ∀ o ∈ opts, D.Shaped o)
    (hfits : ∀ o ∈ opts, D.Fits o) : read (D.spell opts ++ args) = .ok (m.giveAll opts) := by
  induction opts with
  | nil => exact hargs
  | cons first opts ih =>
    obtain ⟨o, vals⟩ := first
    obtain ⟨hfresh, hnodup⟩ := List.nodup_cons.mp hnodup
    have hrest := ih hnodup (fun o ho => hnew o (List.mem_cons_of_mem _ ho))
      (fun o ho => hshaped o (List.mem_cons_of_mem _ ho))
      (fun o ho => hfits o (List.mem_cons_of_mem _ ho))
    have hnone : (m.giveAll opts).given o = none := by
      rw [Matches.giveAll_given, List.lookup_eq_none_iff.mpr, hnew (o, vals) List.mem_cons_self]
      · rfl
      · intro p hp
        exact bne_iff_ne.mpr fun heq => hfresh (List.mem_map.mpr ⟨p, hp, heq.symm⟩)
    have hfirst : D.Shaped (o, vals) := hshaped _ List.mem_cons_self
    unfold Shaped at hfirst
    split at hfirst
    · rename_i htakes
      obtain ⟨v, rfl⟩ := hfirst
      obtain ⟨hv, haccepts⟩ := hfits (o, [v]) List.mem_cons_self v List.mem_cons_self
      exact hread.value o v _ _ htakes hv haccepts hrest hnone
    · rename_i htakes
      obtain rfl := hfirst
      exact hread.switch o _ _ (by simpa using htakes) hrest hnone

/-- Where a value does not fit, the line is refused. -/
theorem Reads.read_spell_error (hread : D.Reads read) (args : List τ) {opts : List (ι × List τ)}
    (hshaped : ∀ o ∈ opts, D.Shaped o) (hbad : ∃ o ∈ opts, ¬ D.Fits o) :
    ∃ e, read (D.spell opts ++ args) = .error e := by
  induction opts with
  | nil =>
    obtain ⟨_, ho, -⟩ := hbad
    cases ho
  | cons first opts ih =>
    obtain ⟨o, vals⟩ := first
    have hfirst : D.Shaped (o, vals) := hshaped _ List.mem_cons_self
    by_cases hrest : ∃ o ∈ opts, ¬ D.Fits o
    · -- the error further on stays one
      obtain ⟨e, he⟩ := ih (fun o ho => hshaped o (List.mem_cons_of_mem _ ho)) hrest
      unfold Shaped at hfirst
      split at hfirst
      · rename_i htakes
        obtain ⟨v, rfl⟩ := hfirst
        exact hread.value_rest o v _ e htakes he
      · rename_i htakes
        obtain rfl := hfirst
        exact hread.switch_rest o _ e (by simpa using htakes) he
    · have hhead : ¬ D.Fits (o, vals) := by
        obtain ⟨p, hp, hnot⟩ := hbad
        rcases List.mem_cons.mp hp with rfl | hin
        · exact hnot
        · exact absurd ⟨p, hin, hnot⟩ hrest
      unfold Shaped at hfirst
      split at hfirst
      · rename_i htakes
        obtain ⟨v, rfl⟩ := hfirst
        cases hlike : D.optionLike v with
        | true => exact hread.noValue o v _ htakes hlike
        | false =>
          cases haccepts : D.accepts o v with
          | false => exact hread.invalid o v _ htakes haccepts
          | true =>
            refine absurd ?_ hhead
            intro w hw
            obtain rfl := List.mem_singleton.mp hw
            exact ⟨hlike, haccepts⟩
      · obtain rfl := hfirst
        exact absurd (fun v hv => by cases hv) hhead

end Cmdline
