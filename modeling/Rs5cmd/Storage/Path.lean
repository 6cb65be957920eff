import Rs5cmd.Str
import Rs5cmd.Lib.LexPath

/-!
# Path helpers (`storage/url.rs`, Go `path` and `filepath` semantics)

The string functions at the bottom of `storage/url.rs`: `clean_path`,
`path_join`, `go_dir`, `rel_path` and the base and directory helpers of remote
paths.

A path string denotes a lexical location (`locOf`), and every location has one
spelling (`render`). `cleanPath` computes that spelling (`cleanPath_eq_render`),
so two paths clean to the same string exactly when they denote the same
location (`cleanPath_eq_iff`), and the laws of `pathJoin` and `relPath` are laws
of locations.
-/

namespace Rs5cmd

open LexPath

/-- The segment `..`. -/
def dotdot : Str := ['.', '.']

/-- The path `.`. -/
def dot : Str := ['.']

/-! ## The source's functions -/

/-- One iteration of the loop of `clean_path` over the segments. -/
def cleanStep (rooted : Bool) (out : List Str) (seg : Str) : List Str :=
  if seg = [] ∨ seg = dot then out
  else if seg = dotdot then
    match out.getLast? with
    | some last =>
      if last ≠ dotdot then out.dropLast
      else if rooted then out else out ++ [dotdot]
    | none => if rooted then out else out ++ [dotdot]
  else out ++ [seg]

/-- A minimal lexical path cleaner (Go's `path.Clean` for forward slashes). -/
def cleanPath (p : Str) : Str :=
  if p = [] then dot
  else
    let rooted := Str.startsWith ['/'] p
    let out := (Str.split '/' p).foldl (cleanStep rooted) []
    let result := Str.join '/' out
    let result := if rooted then '/' :: result else result
    if result = [] then dot else result

/-- Go's `path.Join` for two elements. -/
def pathJoin (a b : Str) : Str :=
  cleanPath
    (if a = [] then b
     else if b = [] then a
     else Str.trimEndMatches '/' a ++ '/' :: b)

/-- Go's `filepath.Dir`: drop the trailing run of non-slash characters and
clean the rest. -/
def goDir (p : Str) : Str :=
  if p = [] then dot else cleanPath (p.rdropWhile (· != '/'))

/-- The number of leading segments two lists share. -/
def commonLen : List Str → List Str → Nat
  | a :: as, b :: bs => if a = b then commonLen as bs + 1 else 0
  | _, _ => 0

/-- Go's `filepath.Rel` for the cases s5cmd relies on. The source returns an
`Option` that is never `None`. -/
def relPath (base target : Str) : Str :=
  let base := cleanPath base
  let target := cleanPath target
  if base = target then dot
  else
    let baseSegs := (Str.split '/' base).filter (· ≠ [])
    let targetSegs := (Str.split '/' target).filter (· ≠ [])
    let i := commonLen baseSegs targetSegs
    let parts := List.replicate (baseSegs.length - i) dotdot ++ targetSegs.drop i
    if parts = [] then dot else Str.join '/' parts

/-- The last element of a remote path. -/
def remoteBase (p : Str) : Str :=
  if p = [] then dot
  else
    let trimmed := Str.trimEndMatches '/' p
    if trimmed = [] then ['/']
    else
      match Str.rfind '/' trimmed with
      | some i => trimmed.drop (i + 1)
      | none => trimmed

/-! ## Path strings as locations -/

/-- A segment that names a directory entry. -/
def IsName (s : Str) : Prop := s ≠ [] ∧ s ≠ dot ∧ s ≠ dotdot ∧ '/' ∉ s

instance (s : Str) : Decidable (IsName s) := inferInstanceAs (Decidable (_ ∧ _))

/-- A name: a non-empty segment other than `.` and `..`. -/
abbrev Name := { s : Str // IsName s }

/-- How a path segment moves: empty segments and `.` do not. -/
def toSeg (s : Str) : Option (Seg Name) :=
  if h : IsName s then some (.name ⟨s, h⟩)
  else if s = dotdot then some .up
  else none

/-- The moves of a path string. -/
def segsOf (p : Str) : List (Seg Name) := (Str.split '/' p).filterMap toSeg

/-- The location a path string denotes. -/
def locOf (p : Str) : Loc Name :=
  (Loc.start (Str.startsWith ['/'] p)).walk (segsOf p)

/-- The segments of a location's spelling. -/
def outOf (l : Loc Name) : List Str :=
  List.replicate l.ups dotdot ++ l.names.map Subtype.val

/-- The spelling of a location. -/
def render (l : Loc Name) : Str :=
  if l.rooted then '/' :: Str.join '/' (outOf l)
  else if outOf l = [] then dot else Str.join '/' (outOf l)

/-! ## Splitting and joining -/

theorem split_append_slash (a b : Str) :
    Str.split '/' (a ++ '/' :: b) = Str.split '/' a ++ Str.split '/' b :=
  List.splitOn_append_cons_self a b

theorem split_join {ls : List Str} (h : ∀ s ∈ ls, '/' ∉ s) (hne : ls ≠ []) :
    Str.split '/' (Str.join '/' ls) = ls :=
  List.splitOn_intercalate '/' h hne

theorem of_mem_split {s t : Str} (h : t ∈ Str.split '/' s) : '/' ∉ t ∧ t ⊆ s := by
  induction s generalizing t with
  | nil =>
    simp only [Str.split, List.splitOn_nil, List.mem_singleton] at h
    simp [h]
  | cons c s ih =>
    have hrest : t ∈ Str.split '/' s → '/' ∉ t ∧ t ⊆ c :: s := by
      intro h
      obtain ⟨hslash, hsub⟩ := ih h
      exact ⟨hslash, fun x hx => List.mem_cons_of_mem c (hsub hx)⟩
    simp only [Str.split, List.splitOn_cons_eq_if_modifyHead] at h
    split at h
    · rcases List.mem_cons.mp h with rfl | h
      · simp
      · exact hrest h
    · rename_i hc
      have hc' : c ≠ '/' := by simpa using hc
      cases hs : List.splitOn '/' s with
      | nil => exact absurd hs (List.splitOn_ne_nil '/' s)
      | cons x xs =>
        rw [hs] at h
        rcases List.mem_cons.mp h with rfl | h
        · obtain ⟨hslash, hsub⟩ := ih (t := x) (by simp [Str.split, hs])
          refine ⟨by simp [hslash, Ne.symm hc'], ?_⟩
          exact List.cons_subset_cons c hsub
        · exact hrest (by simp [Str.split, hs, h])

theorem not_mem_of_mem_split {s t : Str} (h : t ∈ Str.split '/' s) : '/' ∉ t := (of_mem_split h).1

theorem segsOf_append_slash (a b : Str) :
    segsOf (a ++ '/' :: b) = segsOf a ++ segsOf b := by
  simp [segsOf, split_append_slash]

@[simp] theorem segsOf_nil : segsOf [] = [] := by decide

/-- Trailing slashes do not move. -/
theorem segsOf_append_replicate (a : Str) (n : Nat) :
    segsOf (a ++ List.replicate n '/') = segsOf a := by
  induction n generalizing a with
  | zero => simp
  | succ n ih =>
    rw [List.replicate_succ, show a ++ '/' :: List.replicate n '/' =
      (a ++ '/' :: []) ++ List.replicate n '/' by simp, ih, segsOf_append_slash]
    simp

theorem segsOf_trimEndMatches (a : Str) :
    segsOf (Str.trimEndMatches '/' a) = segsOf a := by
  obtain ⟨n, hn⟩ := Str.exists_trimEndMatches '/' a
  conv_rhs => rw [hn]
  rw [segsOf_append_replicate]

theorem toSeg_name (n : Name) : toSeg n.val = some (.name n) := by
  simp [toSeg, n.property]

theorem toSeg_dotdot : toSeg dotdot = some .up := by decide

/-! ## `cleanPath` spells the location -/

theorem outOf_start (r : Bool) : outOf (Loc.start r) = [] := by
  simp [outOf, Loc.start]

theorem outOf_getLast? (l : Loc Name) :
    (outOf l).getLast? =
      match l.names.getLast? with
      | some n => some n.val
      | none => if l.ups = 0 then none else some dotdot := by
  unfold outOf
  cases h : l.names.getLast? with
  | none =>
    have hn : l.names = [] := by simpa using h
    by_cases hu : l.ups = 0
    · simp [hn, hu]
    · simp [hn, hu, List.getLast?_replicate]
  | some n =>
    rw [List.getLast?_append, List.getLast?_map, h]
    rfl

/-- One iteration of the loop follows the segment it reads. -/
theorem cleanStep_outOf (l : Loc Name) {s : Str} (hs : '/' ∉ s) :
    cleanStep l.rooted (outOf l) s =
      match toSeg s with
      | some x => outOf (l.step x)
      | none => outOf l := by
  by_cases hn : IsName s
  · have h0 := hn.1
    have h1 := hn.2.1
    have h2 := hn.2.2.1
    simp [cleanStep, toSeg, hn, h0, h1, h2, Loc.step, outOf]
  · by_cases hu : s = dotdot
    · subst hu
      have hd : dotdot ≠ [] ∧ dotdot ≠ dot := by decide
      have hseg : toSeg dotdot = some .up := toSeg_dotdot
      simp only [cleanStep, hd.1, hd.2, or_self, if_false, if_true, hseg, outOf_getLast?]
      cases hl : l.names.getLast? with
      | some n =>
        -- a name to drop: it is not `..`, so it is popped
        have hne : l.names ≠ [] := by
          intro h
          simp [h] at hl
        have hnd : n.val ≠ dotdot := n.property.2.2.1
        simp only [ne_eq, hnd, not_false_eq_true, if_true, Loc.step]
        have hlen : 0 < l.names.length := List.length_pos_of_ne_nil hne
        have hnames : (l.climb 1).names = l.names.dropLast := by
          simp [Loc.climb, List.dropLast_eq_take]
        have hups : (l.climb 1).ups = l.ups := by
          simp only [Loc.climb]
          split
          · rfl
          · omega
        rw [outOf, outOf, hnames, hups, List.map_dropLast,
          List.dropLast_append_of_ne_nil (fun h => hne (List.map_eq_nil_iff.mp h))]
      | none =>
        have hn' : l.names = [] := by simpa using hl
        cases hr : l.rooted with
        | true =>
          have hz : l.ups = 0 := l.rootUps hr
          simp [hz, Loc.step, outOf, Loc.climb, hn', hr]
        | false =>
          have hout : outOf (l.climb 1) = outOf l ++ [dotdot] := by
            simp [outOf, Loc.climb, hn', hr, List.replicate_succ']
          by_cases hz : l.ups = 0
          · simp [hz, Loc.step, hout]
          · simp [hz, Loc.step, hout]
    · -- neither a name nor `..`: the empty segment or `.`
      have he : s = [] ∨ s = dot := by
        by_contra hc
        rw [not_or] at hc
        exact hn ⟨hc.1, hc.2, hu, hs⟩
      simp [cleanStep, he, toSeg, hn, hu]

theorem foldl_cleanStep (l : Loc Name) (ss : List Str) (hss : ∀ s ∈ ss, '/' ∉ s) :
    ss.foldl (cleanStep l.rooted) (outOf l) = outOf (l.walk (ss.filterMap toSeg)) := by
  induction ss generalizing l with
  | nil => rfl
  | cons s ss ih =>
    have hs : '/' ∉ s := hss s List.mem_cons_self
    have hss' : ∀ t ∈ ss, '/' ∉ t := fun t ht => hss t (List.mem_cons_of_mem _ ht)
    rw [List.foldl_cons, cleanStep_outOf l hs]
    cases hx : toSeg s with
    | none => simpa [List.filterMap_cons, hx] using ih l hss'
    | some x =>
      have hroot : (l.step x).rooted = l.rooted := by cases x <;> rfl
      simpa [List.filterMap_cons, hx, hroot] using ih (l.step x) hss'

theorem walk_rooted (l : Loc Name) (s : List (Seg Name)) :
    (l.walk s).rooted = l.rooted := by
  rw [walk_eq_descend_climb]
  rfl

@[simp] theorem locOf_rooted (p : Str) : (locOf p).rooted = Str.startsWith ['/'] p := by
  rw [locOf, walk_rooted]
  rfl

theorem locOf_nil : locOf [] = Loc.start false := by decide

/-- A segment of a spelling is non-empty, is not `.`, and has no slash. -/
theorem of_mem_outOf {l : Loc Name} {s : Str} (hs : s ∈ outOf l) :
    s ≠ [] ∧ s ≠ dot ∧ '/' ∉ s := by
  rcases List.mem_append.mp hs with hs | hs
  · rw [List.eq_of_mem_replicate hs]
    decide
  · obtain ⟨n, _, rfl⟩ := List.mem_map.mp hs
    exact ⟨n.property.1, n.property.2.1, n.property.2.2.2⟩

theorem split_join_outOf {l : Loc Name} (hne : outOf l ≠ []) :
    Str.split '/' (Str.join '/' (outOf l)) = outOf l :=
  split_join (fun _ hs => (of_mem_outOf hs).2.2) hne

theorem join_outOf_eq_nil {l : Loc Name} : Str.join '/' (outOf l) = [] ↔ outOf l = [] := by
  constructor
  · intro h
    by_contra hne
    have hsplit := split_join_outOf hne
    rw [h] at hsplit
    have hnil : ([] : Str) ∈ outOf l := by
      rw [← hsplit]
      simp [Str.split]
    exact (of_mem_outOf hnil).1 rfl
  · intro h
    simp [h, Str.join, List.intercalate]

/-- **`clean_path` spells the location a path denotes.** -/
theorem cleanPath_eq_render (p : Str) : cleanPath p = render (locOf p) := by
  by_cases hp : p = []
  · subst hp
    decide
  · have hfold : (Str.split '/' p).foldl (cleanStep (Str.startsWith ['/'] p)) [] =
        outOf (locOf p) := by
      have h := foldl_cleanStep (Loc.start (Str.startsWith ['/'] p)) (Str.split '/' p)
        (fun s hs => not_mem_of_mem_split hs)
      rw [outOf_start] at h
      exact h
    simp only [cleanPath, if_neg hp, hfold, render, locOf_rooted]
    cases Str.startsWith ['/'] p with
    | true => simp
    | false => simp [join_outOf_eq_nil]

/-! ## Every location has one spelling -/

theorem filterMap_toSeg_outOf (l : Loc Name) :
    (outOf l).filterMap toSeg = List.replicate l.ups .up ++ l.names.map .name := by
  rw [outOf, List.filterMap_append]
  congr 1
  · induction l.ups with
    | zero => rfl
    | succ n ih => simp [List.replicate_succ, toSeg_dotdot, ih]
  · induction l.names with
    | nil => rfl
    | cons n ns ih =>
      rw [List.map_cons, List.filterMap_cons_some (toSeg_name n), ih, List.map_cons]

/-- Following the segments of a location's spelling leads to it. -/
theorem walk_outOf (l : Loc Name) :
    (Loc.start l.rooted).walk ((outOf l).filterMap toSeg) = l := by
  rw [filterMap_toSeg_outOf, Loc.walk_append, Loc.walk_replicate_up, Loc.walk_names]
  apply Loc.ext
  · rfl
  · simp only [Loc.descend_ups, Loc.climb, Loc.start, List.length_nil, Nat.sub_zero, Nat.zero_add]
    split
    · rename_i h
      exact (l.rootUps h).symm
    · rfl
  · simp [Loc.climb, Loc.start]

/-- A spelling starts with a slash exactly when its location is rooted. -/
theorem startsWith_render (l : Loc Name) : Str.startsWith ['/'] (render l) = l.rooted := by
  cases hr : l.rooted with
  | true =>
    rw [render, if_pos hr]
    simp [Str.startsWith]
  | false =>
    rw [render, if_neg (by simp [hr])]
    split
    · decide
    · rename_i hne
      -- the first segment is non-empty and has no slash
      obtain ⟨s, ss, hss⟩ := List.exists_cons_of_ne_nil hne
      have hs := of_mem_outOf (l := l) (s := s) (by simp [hss])
      obtain ⟨c, cs, hc⟩ := List.exists_cons_of_ne_nil hs.1
      have hcs : c ≠ '/' := by
        intro h
        exact hs.2.2 (by simp [hc, h])
      cases ss with
      | nil => simp [Str.startsWith, Str.join, hss, hc, Ne.symm hcs]
      | cons t ts => simp [Str.startsWith, Str.join, hss, hc, Ne.symm hcs]

/-- The moves of a spelling are its segments. -/
theorem segsOf_render (l : Loc Name) : segsOf (render l) = (outOf l).filterMap toSeg := by
  by_cases hne : outOf l = []
  · rw [render, hne]
    cases l.rooted <;> decide
  · have hsegs : segsOf (Str.join '/' (outOf l)) = (outOf l).filterMap toSeg := by
      rw [segsOf, split_join_outOf hne]
    rw [render, if_neg hne]
    split
    · exact (segsOf_append_slash [] _).trans hsegs
    · exact hsegs

/-- **A location is read back from its spelling.** -/
theorem locOf_render (l : Loc Name) : locOf (render l) = l := by
  rw [locOf, startsWith_render, segsOf_render]
  exact walk_outOf l

@[simp] theorem locOf_cleanPath (p : Str) : locOf (cleanPath p) = locOf p := by
  rw [cleanPath_eq_render, locOf_render]

/-- **Two paths clean to the same string iff they denote the same location.** -/
theorem cleanPath_eq_iff {p q : Str} : cleanPath p = cleanPath q ↔ locOf p = locOf q := by
  constructor
  · intro h
    rw [← locOf_cleanPath p, h, locOf_cleanPath]
  · intro h
    rw [cleanPath_eq_render, cleanPath_eq_render, h]

theorem cleanPath_cleanPath (p : Str) : cleanPath (cleanPath p) = cleanPath p := by
  rw [cleanPath_eq_iff, locOf_cleanPath]

/-! ## Joining -/

theorem startsWith_slash_iff (p : Str) : Str.startsWith ['/'] p = true ↔ ∃ q, p = '/' :: q := by
  cases p with
  | nil => simp [Str.startsWith]
  | cons c p =>
    constructor
    · intro h
      simp only [Str.startsWith, decide_eq_true_eq, List.cons_prefix_cons] at h
      exact ⟨p, by rw [h.1]⟩
    · rintro ⟨q, hq⟩
      simp only [List.cons.injEq] at hq
      simp [Str.startsWith, hq.1]

/-- Joining below a non-empty path follows the moves of the second one. -/
theorem locOf_append_slash {a : Str} (ha : a ≠ []) (b : Str) :
    locOf (Str.trimEndMatches '/' a ++ '/' :: b) = (locOf a).walk (segsOf b) := by
  have hroot : Str.startsWith ['/'] (Str.trimEndMatches '/' a ++ '/' :: b) =
      Str.startsWith ['/'] a := by
    obtain ⟨n, hn⟩ := Str.exists_trimEndMatches '/' a
    cases htr : Str.trimEndMatches '/' a with
    | nil =>
      -- `a` is a run of slashes
      rw [htr, List.nil_append] at hn
      obtain ⟨c, cs, hc⟩ := List.exists_cons_of_ne_nil ha
      have hslash : c = '/' := by
        have : c ∈ List.replicate n '/' := by rw [← hn, hc]; simp
        exact List.eq_of_mem_replicate this
      simp [Str.startsWith, hc, hslash]
    | cons c cs =>
      have : a = c :: (cs ++ List.replicate n '/') := by rw [hn, htr]; simp
      simp [Str.startsWith, this]
  rw [locOf, hroot, segsOf_append_slash, segsOf_trimEndMatches, Loc.walk_append]
  rfl

/-- **`path_join` follows the second path from the first**, except that an
empty first path leaves the second as it is, its root included. -/
theorem locOf_pathJoin (a b : Str) :
    locOf (pathJoin a b) = if a = [] then locOf b else (locOf a).walk (segsOf b) := by
  rw [pathJoin, locOf_cleanPath]
  by_cases ha : a = []
  · simp [ha]
  · by_cases hb : b = []
    · simp [ha, hb]
    · simp only [if_neg ha, if_neg hb]
      exact locOf_append_slash ha b

theorem cleanPath_pathJoin (a b : Str) : cleanPath (pathJoin a b) = pathJoin a b := by
  rw [pathJoin, cleanPath_cleanPath]

/-- The segments of a list of names, joined. -/
theorem segsOf_join_names (w : List Name) :
    segsOf (Str.join '/' (w.map Subtype.val)) = w.map .name := by
  cases w with
  | nil => decide
  | cons n w =>
    have hslash : ∀ s ∈ ((n :: w).map Subtype.val : List Str), '/' ∉ s := by
      intro s hs
      obtain ⟨m, -, rfl⟩ := List.mem_map.mp hs
      exact m.property.2.2.2
    rw [segsOf, split_join hslash (by simp), List.filterMap_map]
    induction n :: w with
    | nil => rfl
    | cons m ms ih => rw [List.filterMap_cons, Function.comp_apply, toSeg_name, ih, List.map_cons]

theorem locOf_join_slash {p : Str} (hp : p ≠ []) : locOf (p ++ ['/']) = locOf p := by
  have hroot : Str.startsWith ['/'] (p ++ ['/']) = Str.startsWith ['/'] p := by
    cases p with
    | nil => exact absurd rfl hp
    | cons c p => simp [Str.startsWith, List.cons_prefix_cons]
  rw [locOf, hroot, segsOf_append_slash, segsOf_nil, List.append_nil]
  rfl

/-! ## Relative paths -/

/-- The segments `rel_path` compares: those of the spelling, with the start of a
relative path spelled `.`. -/
def cleanSegs (l : Loc Name) : List Str := if l = Loc.start false then [dot] else outOf l

theorem outOf_eq_nil {l : Loc Name} : outOf l = [] ↔ l.ups = 0 ∧ l.names = [] := by
  rw [outOf, List.append_eq_nil_iff, List.replicate_eq_nil_iff, List.map_eq_nil_iff]

theorem eq_start_of_outOf_nil {l : Loc Name} (h : outOf l = []) : l = Loc.start l.rooted := by
  obtain ⟨hu, hn⟩ := outOf_eq_nil.mp h
  exact Loc.ext rfl hu hn

theorem filter_split_render (l : Loc Name) :
    (Str.split '/' (render l)).filter (· ≠ []) = cleanSegs l := by
  have hfilter : (outOf l).filter (· ≠ []) = outOf l := by
    rw [List.filter_eq_self]
    intro s hs
    simpa using (of_mem_outOf hs).1
  by_cases hout : outOf l = []
  · have hl := eq_start_of_outOf_nil hout
    cases hr : l.rooted with
    | true =>
      rw [hr] at hl
      subst hl
      decide
    | false =>
      rw [hr] at hl
      subst hl
      decide
  · have hne : l ≠ Loc.start false := by
      rintro rfl
      exact hout (outOf_start false)
    rw [cleanSegs, if_neg hne, render]
    split
    · -- the root contributes one empty segment
      have hsplit : Str.split '/' ('/' :: Str.join '/' (outOf l)) =
          Str.split '/' [] ++ Str.split '/' (Str.join '/' (outOf l)) :=
        split_append_slash [] (Str.join '/' (outOf l))
      rw [hsplit, split_join_outOf hout]
      simpa [Str.split] using hfilter
    · rw [split_join_outOf hout, hfilter]

/-- `rel_path` in terms of locations. -/
theorem relPath_eq (base target : Str) :
    relPath base target =
      if locOf base = locOf target then dot
      else
        let bs := cleanSegs (locOf base)
        let ts := cleanSegs (locOf target)
        let parts := List.replicate (bs.length - commonLen bs ts) dotdot ++ ts.drop (commonLen bs ts)
        if parts = [] then dot else Str.join '/' parts := by
  simp only [relPath, cleanPath_eq_iff]
  simp only [cleanPath_eq_render, filter_split_render]

theorem cleanSegs_ne_nil_mem {l : Loc Name} {s : Str} (hs : s ∈ cleanSegs l) : s ≠ [] := by
  unfold cleanSegs at hs
  split at hs
  · rw [List.mem_singleton.mp hs]
    decide
  · exact (of_mem_outOf hs).1

theorem join_ne_nil {parts : List Str} (hne : parts ≠ []) (h : ∀ s ∈ parts, s ≠ []) :
    Str.join '/' parts ≠ [] := by
  cases parts with
  | nil => exact absurd rfl hne
  | cons a as =>
    have ha := h a List.mem_cons_self
    cases as with
    | nil => simpa [Str.join] using ha
    | cons b bs => simp [Str.join, List.intercalate_cons_cons]

/-- A relative path is never empty. -/
theorem relPath_ne_nil (base target : Str) : relPath base target ≠ [] := by
  rw [relPath_eq]
  split
  · decide
  · dsimp only
    split
    · decide
    · rename_i hparts
      refine join_ne_nil hparts ?_
      intro s hs
      rcases List.mem_append.mp hs with hs | hs
      · rw [List.eq_of_mem_replicate hs]
        decide
      · exact cleanSegs_ne_nil_mem (List.mem_of_mem_drop hs)

theorem commonLen_append (a b : List Str) : commonLen a (a ++ b) = a.length := by
  induction a with
  | nil => cases b <;> rfl
  | cons x a ih => simp [commonLen, ih]

theorem outOf_descend (l : Loc Name) (w : List Name) :
    outOf (l.descend w) = outOf l ++ w.map Subtype.val := by
  simp [outOf, List.append_assoc]

theorem descend_ne_start {l : Loc Name} {w : List Name} (hw : w ≠ []) (r : Bool) :
    l.descend w ≠ Loc.start r := by
  intro h
  have hn : (l.descend w).names = [] := by rw [h]; rfl
  exact hw (List.append_eq_nil_iff.mp hn).2

/-- **The relative path of what lies below a directory** is the way down, unless
the directory is spelled `.`: then the two spellings share no segment and a
climb is put in front. -/
theorem relPath_descend {base target : Str} {w : List Name} (hw : w ≠ [])
    (h : locOf target = (locOf base).descend w) :
    relPath base target =
      if locOf base = Loc.start false then Str.join '/' (dotdot :: w.map Subtype.val)
      else Str.join '/' (w.map Subtype.val) := by
  have hne : locOf base ≠ locOf target := by
    intro heq
    rw [h] at heq
    have hn : ((locOf base).descend w).names = (locOf base).names := by rw [← heq]
    exact hw (by simpa using hn)
  have hts : cleanSegs (locOf target) = outOf (locOf base) ++ w.map Subtype.val := by
    rw [h, cleanSegs, if_neg (descend_ne_start hw false), outOf_descend]
  rw [relPath_eq, if_neg hne]
  simp only [hts]
  by_cases hstart : locOf base = Loc.start false
  · have hbs : cleanSegs (locOf base) = [dot] := by rw [cleanSegs, if_pos hstart]
    have hzero : commonLen [dot] (outOf (locOf base) ++ w.map Subtype.val) = 0 := by
      rw [hstart, outOf_start, List.nil_append]
      cases w with
      | nil => exact absurd rfl hw
      | cons n w => simp [commonLen, Ne.symm n.property.2.1]
    rw [hbs, hzero, if_pos hstart, hstart, outOf_start]
    rfl
  · have hbs : cleanSegs (locOf base) = outOf (locOf base) := by rw [cleanSegs, if_neg hstart]
    have hmap : w.map Subtype.val ≠ [] := fun hnil => hw (List.map_eq_nil_iff.mp hnil)
    rw [hbs, commonLen_append, if_neg hstart, Nat.sub_self, List.replicate_zero, List.nil_append,
      List.drop_left, if_neg hmap]

end Rs5cmd
