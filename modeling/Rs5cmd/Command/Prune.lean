import Rs5cmd.Storage.Tree

/-!
# Pruning emptied directories (`command/cp.rs`)

After `mv --remove-empty-dirs` has removed a source file, `prune_empty_dirs` climbs
from its directory and removes what is empty, up to an anchor that it gets by
dropping as many components as the relative path has. Other transfers run meanwhile,
so the tree that each of its calls meets is a parameter.
-/

namespace Rs5cmd

open LexPath

/-- `Component::Normal`. -/
def PathComp.isNormal : PathComp → Bool
  | .seg (.name _) => true
  | _ => false

/-- `rel_components`. -/
def relComponents (src : Url) : Nat := (components src.relative).countP PathComp.isNormal

/-- The anchor: the path without its last components. -/
def pruneAnchor : Nat → List PathComp → Option (List PathComp)
  | 0, path => some path
  | n + 1, path => (pathParent path).bind (pruneAnchor n)

/-- The climb from `dir`, whose next call is number `i`: each directory removed, with
the number of the call. -/
def climbDirs (cwd : List Name) (trees : Nat → DirTree) (anchor : List PathComp) (i : Nat)
    (dir : List PathComp) : List (Nat × List PathComp) :=
  if dir = anchor || !anchor.isSuffixOf dir then []
  else if !(trees i).removes cwd dir then []
  else
    (i, dir) ::
      match dir with
      | [] => []
      | .rootDir :: _ => []
      | _ :: up => climbDirs cwd trees anchor (i + 1) up

/-- `prune_empty_dirs`, in the working directory `cwd`; call number `i` to the
filesystem meets the tree `trees i`. -/
def pruneEmptyDirs (cwd : List Name) (trees : Nat → DirTree) (src : Url) :
    List (Nat × List PathComp) :=
  let filePath := components src.absolute
  if relComponents src ≤ 1 then []
  else
    match pruneAnchor (relComponents src) filePath with
    | none => []
    | some anchor =>
      match pathParent filePath with
      | none => []
      | some dir => climbDirs cwd trees anchor 0 dir

/-! ## Names among the components -/

/-- How many of the moves go down. -/
def nameCount (segs : List (Seg Name)) : Nat := segs.countP fun s => (PathComp.seg s).isNormal

theorem countP_components (p : Str) :
    (components p).countP PathComp.isNormal = nameCount (segsOf p) := by
  have hstart : ∀ b b' : Bool, (if b then [PathComp.rootDir] else if b' then [.curDir] else []).countP
      PathComp.isNormal = 0 := by
    decide
  have := hstart (Str.startsWith ['/'] p) (decide ((Str.split '/' p).head? = some dot))
  simp only [decide_eq_true_eq] at this
  rw [components, List.countP_append, this, Nat.add_zero, List.countP_map, List.countP_reverse]
  rfl

/-! ## What is removed -/

section Climb

variable {cwd : List Name} {trees : Nat → DirTree}

theorem pruneAnchor_append {dirs : List PathComp} (hdirs : .rootDir ∉ dirs) (anchor : List PathComp) :
    pruneAnchor dirs.length (dirs ++ anchor) = some anchor := by
  induction dirs with
  | nil => rfl
  | cons c dirs ih =>
    obtain ⟨hc, hdirs⟩ := not_or.mp fun h => hdirs (List.mem_cons.mpr h)
    have hparent : pathParent ((c :: dirs) ++ anchor) = some (dirs ++ anchor) := by
      cases c with
      | rootDir => exact absurd rfl hc
      | curDir => rfl
      | seg s => rfl
    rw [List.length_cons, pruneAnchor, hparent, Option.bind_some, ih hdirs]

/-- **The climb removes a directory** above the anchor if that call and all before it
succeed. -/
theorem mem_climbDirs {dirs : List PathComp} (hdirs : .rootDir ∉ dirs) {anchor : List PathComp}
    {i k : Nat} {dir : List PathComp} :
    (k, dir) ∈ climbDirs cwd trees anchor i (dirs ++ anchor) ↔
      ∃ j < dirs.length, k = i + j ∧ dir = (dirs ++ anchor).drop j ∧
        ∀ l ≤ j, (trees (i + l)).removes cwd ((dirs ++ anchor).drop l) = true := by
  induction dirs generalizing i with
  | nil =>
    unfold climbDirs
    simp
  | cons c dirs ih =>
    obtain ⟨hc, hdirs⟩ := not_or.mp fun h => hdirs (List.mem_cons.mpr h)
    rw [List.cons_append]
    have hne : c :: (dirs ++ anchor) ≠ anchor := by
      intro heq
      have := congrArg List.length heq
      simp at this
      omega
    have hsuffix : anchor.isSuffixOf (c :: (dirs ++ anchor)) = true :=
      List.isSuffixOf_iff_suffix.mpr (List.suffix_append (c :: dirs) _)
    cases hok : (trees i).removes cwd (c :: (dirs ++ anchor)) with
    | false =>
      have hnil : climbDirs cwd trees anchor i (c :: (dirs ++ anchor)) = [] := by
        unfold climbDirs
        simp [hok]
      rw [hnil]
      refine iff_of_false (by simp) ?_
      rintro ⟨j, -, -, -, hall⟩
      have := hall 0 (Nat.zero_le j)
      rw [Nat.add_zero, List.drop_zero, hok] at this
      cases this
    | true =>
      have hcons : climbDirs cwd trees anchor i (c :: (dirs ++ anchor)) =
          (i, c :: (dirs ++ anchor)) :: climbDirs cwd trees anchor (i + 1) (dirs ++ anchor) := by
        conv_lhs => unfold climbDirs
        cases c with
        | rootDir => exact absurd rfl hc
        | curDir => simp [hne, hsuffix, hok]
        | seg s => simp [hne, hsuffix, hok]
      rw [hcons, List.mem_cons, ih hdirs]
      constructor
      · rintro (heq | ⟨j, hj, rfl, rfl, hall⟩)
        · obtain ⟨rfl, rfl⟩ := Prod.mk.inj heq
          refine ⟨0, by simp, rfl, rfl, fun l hl => ?_⟩
          obtain rfl := Nat.le_zero.mp hl
          exact hok
        · refine ⟨j + 1, by simpa using hj, by omega, rfl, fun l hl => ?_⟩
          cases l with
          | zero => exact hok
          | succ l =>
            have := hall l (by omega)
            rwa [show i + 1 + l = i + (l + 1) by omega] at this
      · rintro ⟨j, hj, rfl, rfl, hall⟩
        cases j with
        | zero => exact .inl rfl
        | succ j =>
          refine .inr ⟨j, by simpa using hj, by omega, rfl, fun l hl => ?_⟩
          have := hall (l + 1) (by omega)
          rwa [show i + (l + 1) = i + 1 + l by omega] at this

/-- The names of a path are not its start. -/
theorem rootDir_not_mem_take {p : Str} {n : Nat}
    (hn : n ≤ (components p).countP PathComp.isNormal) :
    n ≤ (components p).length ∧ .rootDir ∉ (components p).take n := by
  have hmoves : (components p).countP PathComp.isNormal ≤ (segsOf p).length := by
    rw [countP_components]
    exact List.countP_le_length
  have hn := Nat.le_trans hn hmoves
  have htake : (components p).take n = ((segsOf p).reverse.map PathComp.seg).take n := by
    rw [components, List.take_append_of_le_length (by simpa using hn)]
  constructor
  · rw [components, List.length_append, List.length_map, List.length_reverse]
    omega
  · rw [htake]
    intro hmem
    obtain ⟨s, -, hs⟩ := List.mem_map.mp (List.mem_of_mem_take hmem)
    cases hs

/-- **What is removed**: the directories above the file, as many as the relative path
has besides its last component, while the calls succeed. -/
theorem mem_pruneEmptyDirs {src : Url}
    (hcount : relComponents src ≤ (components src.absolute).countP PathComp.isNormal) {k : Nat}
    {dir : List PathComp} :
    (k, dir) ∈ pruneEmptyDirs cwd trees src ↔ k + 1 < relComponents src ∧
      dir = (components src.absolute).drop (k + 1) ∧
      ∀ l ≤ k, (trees l).removes cwd ((components src.absolute).drop (l + 1)) = true := by
  obtain ⟨hlen, hroot⟩ := rootDir_not_mem_take hcount
  by_cases hone : relComponents src ≤ 1
  · rw [pruneEmptyDirs, if_pos hone]
    exact iff_of_false List.not_mem_nil fun h => by omega
  · generalize hc : components src.absolute = c at hlen hroot ⊢
    have htake : (c.take (relComponents src)).length = relComponents src := by
      rw [List.length_take]
      omega
    have hanchor : pruneAnchor (relComponents src) c = some (c.drop (relComponents src)) := by
      have := pruneAnchor_append hroot (c.drop (relComponents src))
      rwa [htake, List.take_append_drop] at this
    have hparent : pathParent c = some (c.drop 1) := by
      cases c with
      | nil =>
        simp at hlen
        omega
      | cons x rest =>
        obtain ⟨n, hn⟩ : ∃ n, relComponents src = n + 1 := ⟨relComponents src - 1, by omega⟩
        rw [hn, List.take_succ_cons] at hroot
        cases x with
        | rootDir => exact absurd List.mem_cons_self hroot
        | curDir => rfl
        | seg s => rfl
    have hdirs : c.drop 1 = (c.take (relComponents src)).drop 1 ++ c.drop (relComponents src) := by
      conv_lhs => rw [← List.take_append_drop (relComponents src) c]
      exact List.drop_append_of_le_length (by omega)
    rw [pruneEmptyDirs, if_neg hone]
    simp only [hc, hanchor, hparent]
    conv_lhs => rw [hdirs]
    rw [mem_climbDirs fun h => hroot (List.mem_of_mem_drop h), ← hdirs]
    simp only [List.drop_drop, List.length_drop, htake, Nat.zero_add]
    constructor
    · rintro ⟨j, hj, rfl, rfl, hall⟩
      refine ⟨by omega, by rw [Nat.add_comm], fun l hl => ?_⟩
      rw [Nat.add_comm]
      exact hall l hl
    · rintro ⟨hk, rfl, hall⟩
      refine ⟨k, by omega, rfl, by rw [Nat.add_comm], fun l hl => ?_⟩
      rw [Nat.add_comm]
      exact hall l hl

end Climb

end Rs5cmd
