import Rs5cmd.Storage.Fs

/-!
# The law of relative paths

`rel_path` leads from its base to its target exactly when the base is not spelled
`.`: the segments of `.` are `["."]`, which no target shares, so a climb is put in
front of every target. `set_relative` takes the directory of a source for its base,
so the sources that come out with a `..` are those whose directory is `.`, and those
whose files lie beside it.
-/

namespace Rs5cmd

open LexPath

/-! ## Segments -/

/-- The path has no segment `..`. -/
def NoUp (p : Str) : Prop := dotdot ∉ Str.split '/' p

instance (p : Str) : Decidable (NoUp p) := inferInstanceAs (Decidable (¬ _))

/-- The segments that are left over on both sides of what two lists share. -/
theorem commonLen_split (a b : List Str) :
    ∃ c a' b', a = c ++ a' ∧ b = c ++ b' ∧ commonLen a b = c.length := by
  induction a generalizing b with
  | nil => exact ⟨[], [], b, rfl, rfl, rfl⟩
  | cons x a ih =>
    cases b with
    | nil => exact ⟨[], x :: a, [], rfl, rfl, rfl⟩
    | cons y b =>
      by_cases hxy : x = y
      · obtain ⟨c, a', b', ha, hb, hlen⟩ := ih b
        refine ⟨x :: c, a', b', by rw [ha, List.cons_append], by rw [hb, hxy, List.cons_append], ?_⟩
        simp [commonLen, hxy, hlen]
      · exact ⟨[], x :: a, y :: b, rfl, rfl, by simp [commonLen, hxy]⟩

/-- The parts that `rel_path` joins. -/
def relParts (b t : Loc Name) : List Str :=
  List.replicate ((cleanSegs b).length - commonLen (cleanSegs b) (cleanSegs t)) dotdot ++
    (cleanSegs t).drop (commonLen (cleanSegs b) (cleanSegs t))

theorem slash_not_mem_cleanSegs {l : Loc Name} {s : Str} (hs : s ∈ cleanSegs l) : '/' ∉ s := by
  unfold cleanSegs at hs
  split at hs
  · rw [List.mem_singleton.mp hs]
    decide
  · exact (of_mem_outOf hs).2.2

theorem slash_not_mem_relParts {b t : Loc Name} {s : Str} (hs : s ∈ relParts b t) : '/' ∉ s := by
  rcases List.mem_append.mp hs with hs | hs
  · rw [List.eq_of_mem_replicate hs]
    decide
  · exact slash_not_mem_cleanSegs (List.mem_of_mem_drop hs)

theorem relPath_eq_relParts {base target : Str} (hne : locOf base ≠ locOf target) :
    relPath base target = if relParts (locOf base) (locOf target) = [] then dot
      else Str.join '/' (relParts (locOf base) (locOf target)) := by
  rw [relPath_eq, if_neg hne]
  rfl

/-- The moves of a relative path are those of its parts. -/
theorem segsOf_relPath {base target : Str} (hne : locOf base ≠ locOf target) :
    segsOf (relPath base target) = (relParts (locOf base) (locOf target)).filterMap toSeg := by
  rw [relPath_eq_relParts hne]
  split
  · rename_i hnil
    rw [hnil]
    decide
  · rename_i hparts
    rw [segsOf, split_join (fun s hs => slash_not_mem_relParts hs) hparts]

theorem noUp_relPath_iff {base target : Str} (hne : locOf base ≠ locOf target) :
    NoUp (relPath base target) ↔ dotdot ∉ relParts (locOf base) (locOf target) := by
  rw [relPath_eq_relParts hne, NoUp]
  split
  · rename_i hnil
    rw [hnil]
    decide
  · rename_i hparts
    rw [split_join (fun s hs => slash_not_mem_relParts hs) hparts]

/-! ## Bases -/

/-- Below `.` every target other than `.` gets a climb put in front. -/
theorem relParts_start {t : Loc Name} (ht : t ≠ Loc.start false) :
    relParts (Loc.start false) t = dotdot :: outOf t := by
  have hbs : cleanSegs (Loc.start false) = [dot] := if_pos rfl
  have hts : cleanSegs t = outOf t := if_neg ht
  have hzero : commonLen [dot] (outOf t) = 0 := by
    cases hout : outOf t with
    | nil => rfl
    | cons s ss =>
      have hs : s ≠ dot := (of_mem_outOf (l := t) (s := s) (by rw [hout]; exact List.mem_cons_self)).2.1
      simp [commonLen, Ne.symm hs]
  rw [relParts, hbs, hts, hzero]
  rfl

/-- Following the segments that `rel_path` compares leads to the location. -/
theorem walk_cleanSegs (l : Loc Name) :
    (Loc.start l.rooted).walk ((cleanSegs l).filterMap toSeg) = l := by
  unfold cleanSegs
  split
  · rename_i hl
    rw [hl]
    decide
  · exact walk_outOf l

/-- The climb back to what base and target share. -/
theorem climb_to_shared {b : Loc Name} (hups : b.ups = 0) {c rest : List Str}
    (hout : outOf b = c ++ rest) :
    b.climb rest.length = (Loc.start b.rooted).walk (c.filterMap toSeg) := by
  have hnames : b.names.map Subtype.val = c ++ rest := by
    rw [← hout, outOf, hups]
    rfl
  have hlen : b.names.length = c.length + rest.length := by
    have := congrArg List.length hnames
    simpa using this
  have hc : c = (b.names.take c.length).map Subtype.val := by
    rw [List.map_take, hnames, List.take_left']
    rfl
  have hseg : c.filterMap toSeg = (b.names.take c.length).map .name := by
    conv_lhs => rw [hc]
    rw [List.filterMap_map]
    induction b.names.take c.length with
    | nil => rfl
    | cons n ns ih => rw [List.filterMap_cons, Function.comp_apply, toSeg_name, ih, List.map_cons]
  rw [hseg, Loc.walk_names]
  apply Loc.ext
  · rfl
  · show (if b.rooted then b.ups else b.ups + (rest.length - b.names.length)) = 0
    rw [hups, hlen]
    split
    · rfl
    · omega
  · show b.names.take (b.names.length - rest.length) = [] ++ b.names.take c.length
    rw [hlen, Nat.add_sub_cancel, List.nil_append]

/-- **The law, away from `.`**: following the relative path from the base ends at
the target. -/
theorem walk_segsOf_relPath {base target : Str}
    (hroot : (locOf base).rooted = (locOf target).rooted) (hups : (locOf base).ups = 0)
    (hbase : locOf base ≠ Loc.start false) :
    (locOf base).walk (segsOf (relPath base target)) = locOf target := by
  by_cases heq : locOf base = locOf target
  · rw [relPath_eq, if_pos heq, heq]
    have hdot : segsOf dot = [] := by decide
    rw [hdot, Loc.walk_nil]
  · have hbs : cleanSegs (locOf base) = outOf (locOf base) := if_neg hbase
    obtain ⟨c, a', b', ha, hb, hlen⟩ := commonLen_split (cleanSegs (locOf base))
      (cleanSegs (locOf target))
    have hparts : relParts (locOf base) (locOf target) = List.replicate a'.length dotdot ++ b' := by
      rw [relParts, hlen]
      congr 1
      · rw [ha, List.length_append, Nat.add_sub_cancel_left]
      · rw [hb, List.drop_left]
    have hmoves : (List.replicate a'.length dotdot).filterMap toSeg =
        List.replicate a'.length .up := by
      induction a'.length with
      | zero => rfl
      | succ n ih => simp [List.replicate_succ, toSeg_dotdot, ih]
    rw [segsOf_relPath heq, hparts, List.filterMap_append, hmoves, Loc.walk_append,
      Loc.walk_replicate_up, climb_to_shared hups (hbs ▸ ha), ← Loc.walk_append,
      ← List.filterMap_append, ← hb, hroot]
    exact walk_cleanSegs (locOf target)

/-- Two spellings agree on what is above the start, and the rest of the longer one
does not climb: then the one lies inside the other. -/
theorem inside_of_outOf {b t : Loc Name} (hroot : b.rooted = t.rooted) {rest : List Str}
    (hout : outOf t = outOf b ++ rest) (hrest : dotdot ∉ rest) : Inside b t := by
  have hcount : ∀ l : Loc Name, (outOf l).count dotdot = l.ups := by
    intro l
    have hnames : (l.names.map Subtype.val).count dotdot = 0 := by
      rw [List.count_eq_zero]
      intro hmem
      obtain ⟨n, -, hn⟩ := List.mem_map.mp hmem
      exact n.property.2.2.1 hn
    rw [outOf, List.count_append, List.count_replicate_self, hnames, Nat.add_zero]
  have hups : t.ups = b.ups := by
    rw [← hcount t, hout, List.count_append, hcount b, List.count_eq_zero.mpr hrest, Nat.add_zero]
  have hnames : t.names.map Subtype.val = b.names.map Subtype.val ++ rest := by
    rw [outOf, outOf, hups, List.append_assoc] at hout
    exact List.append_cancel_left hout
  refine ⟨hroot.symm, hups, ?_⟩
  have hval : Function.Injective (Subtype.val : Name → Str) := Subtype.val_injective
  have hlen : b.names.length ≤ t.names.length := by
    have := congrArg List.length hnames
    simp only [List.length_map, List.length_append] at this
    omega
  have htake : b.names = t.names.take b.names.length := by
    apply (List.map_injective_iff.mpr hval)
    rw [List.map_take, hnames, List.take_left' (by simp)]
  rw [htake]
  exact List.take_prefix _ _

/-- **When a relative path does not climb**: its target lies inside its base, and
the base is not `.` unless the target is. -/
theorem noUp_relPath {base target : Str}
    (hroot : (locOf base).rooted = (locOf target).rooted) :
    NoUp (relPath base target) ↔ Inside (locOf base) (locOf target) ∧
      (locOf base = Loc.start false → locOf target = Loc.start false) := by
  by_cases heq : locOf base = locOf target
  · have hdot : NoUp dot := by decide
    have hrel : relPath base target = dot := by rw [relPath_eq, if_pos heq]
    rw [hrel, heq]
    exact ⟨fun _ => ⟨⟨rfl, rfl, List.prefix_refl _⟩, id⟩, fun _ => hdot⟩
  · by_cases hstart : locOf base = Loc.start false
    · -- the climb that is put in front
      have ht : locOf target ≠ Loc.start false := fun ht => heq (hstart.trans ht.symm)
      rw [noUp_relPath_iff heq, hstart, relParts_start ht]
      constructor
      · intro h
        exact absurd List.mem_cons_self h
      · rintro ⟨-, h⟩
        exact absurd (h rfl) ht
    · constructor
      · intro h
        refine ⟨?_, fun h => absurd h hstart⟩
        rw [noUp_relPath_iff heq] at h
        have hbs : cleanSegs (locOf base) = outOf (locOf base) := if_neg hstart
        obtain ⟨c, a', b', ha, hb, hlen⟩ := commonLen_split (cleanSegs (locOf base))
          (cleanSegs (locOf target))
        have hnone : (cleanSegs (locOf base)).length - c.length = 0 := by
          by_contra hpos
          apply h
          rw [relParts, hlen]
          exact List.mem_append_left _ (List.mem_replicate.mpr ⟨hpos, rfl⟩)
        have hc : c = outOf (locOf base) := by
          rw [ha, List.length_append] at hnone
          have hnil : a' = [] := List.eq_nil_of_length_eq_zero (by omega)
          rw [← hbs, ha, hnil, List.append_nil]
        have hrest : dotdot ∉ b' := by
          intro hmem
          apply h
          rw [relParts, hlen]
          refine List.mem_append_right _ ?_
          rw [hb, List.drop_left]
          exact hmem
        by_cases ht : locOf target = Loc.start false
        · -- the base would be the root, which is no relative path
          have hdot : cleanSegs (locOf target) = [dot] := if_pos ht
          rw [hdot, hc] at hb
          have hnil : outOf (locOf base) = [] := by
            cases hout : outOf (locOf base) with
            | nil => rfl
            | cons s ss =>
              rw [hout, List.cons_append] at hb
              have hs := of_mem_outOf (l := locOf base) (s := s) (by rw [hout]; exact List.mem_cons_self)
              exact absurd (List.cons.inj hb).1.symm hs.2.1
          have hbroot := eq_start_of_outOf_nil hnil
          rw [hroot, ht] at hbroot
          exact absurd hbroot hstart
        · have hts : cleanSegs (locOf target) = outOf (locOf target) := if_neg ht
          rw [hts, hc] at hb
          exact inside_of_outOf hroot hb hrest
      · rintro ⟨hinside, -⟩
        obtain ⟨w, hw⟩ := inside_iff_descend.mp hinside
        have hne : w ≠ [] := by
          rintro rfl
          rw [Loc.descend_nil] at hw
          exact heq hw.symm
        have hmap : w.map Subtype.val ≠ [] := fun hnil => hne (List.map_eq_nil_iff.mp hnil)
        rw [relPath_descend hne hw, if_neg hstart, NoUp, split_join ?_ hmap]
        · intro hmem
          obtain ⟨n, -, hn⟩ := List.mem_map.mp hmem
          exact n.property.2.2.1 hn
        · intro s hs
          obtain ⟨n, -, rfl⟩ := List.mem_map.mp hs
          exact n.property.2.2.2

/-! ## Both parts of the law -/

theorem cleanPath_eq_dot_iff {p : Str} : cleanPath p = dot ↔ locOf p = Loc.start false := by
  have hdot : dot = cleanPath dot := by decide
  have hstart : locOf dot = Loc.start false := by decide
  rw [hdot, cleanPath_eq_iff, hstart]

/-- Joining with a slash follows the second path from the first. -/
theorem locOf_slash {a : Str} (ha : a ≠ []) (b : Str) :
    locOf (a ++ '/' :: b) = (locOf a).walk (segsOf b) := by
  have hroot : Str.startsWith ['/'] (a ++ '/' :: b) = Str.startsWith ['/'] a := by
    obtain ⟨c, cs, rfl⟩ := List.exists_cons_of_ne_nil ha
    simp [Str.startsWith, List.cons_prefix_cons]
  rw [locOf, hroot, segsOf_append_slash, Loc.walk_append]
  rfl

/-- A path is its directory part and what follows the last slash. -/
theorem exists_dirPart (p : Str) : ∃ parent last, p = parent ++ last ∧ '/' ∉ last ∧
    (parent = [] ∨ Str.endsWith '/' parent = true) := by
  refine ⟨p.rdropWhile (· != '/'), p.rtakeWhile (· != '/'),
    List.rdropWhile_append_rtakeWhile.symm, ?_, ?_⟩
  · intro hmem
    have := List.mem_rtakeWhile_imp hmem
    simp at this
  · by_cases hnil : p.rdropWhile (· != '/') = []
    · exact .inl hnil
    · right
      have hlast := List.rdropWhile_last_not (· != '/') _ hnil
      rw [Str.endsWith, List.getLast?_eq_some_getLast hnil]
      simpa using hlast

/-- The last piece of a path is followed from the directory part. -/
theorem locOf_append_last {parent last : Str} (h : parent = [] ∨ Str.endsWith '/' parent = true)
    (hlast : '/' ∉ last) : locOf (parent ++ last) = (locOf parent).walk (segsOf last) := by
  rcases h with rfl | h
  · have hstart : Str.startsWith ['/'] last = false := by
      cases hs : Str.startsWith ['/'] last with
      | false => rfl
      | true =>
        obtain ⟨q, hq⟩ := (startsWith_slash_iff _).mp hs
        exact absurd (hq ▸ List.mem_cons_self) hlast
    rw [List.nil_append, locOf, hstart, locOf_nil]
  · have hslash : parent.getLast? = some '/' := by simpa [Str.endsWith] using h
    obtain ⟨q, rfl⟩ := List.getLast?_eq_some_iff.mp hslash
    have hroot : Str.startsWith ['/'] (q ++ ['/'] ++ last) = Str.startsWith ['/'] (q ++ ['/']) := by
      cases q with
      | nil => simp [Str.startsWith]
      | cons c q => simp [Str.startsWith, List.cons_prefix_cons]
    have hsegs : segsOf (q ++ ['/'] ++ last) = segsOf (q ++ ['/']) ++ segsOf last := by
      rw [List.append_assoc, List.singleton_append, segsOf_append_slash, segsOf_append_slash,
        segsOf_nil, List.append_nil]
    rw [locOf, hroot, hsegs, Loc.walk_append]
    rfl

/-- From `.` the relative path leads to the target only if that is `.` as well. -/
theorem walk_segsOf_relPath_start {base target : Str}
    (hroot : (locOf base).rooted = (locOf target).rooted) (hbase : locOf base = Loc.start false)
    (hwalk : (locOf base).walk (segsOf (relPath base target)) = locOf target) :
    locOf target = Loc.start false := by
  by_contra ht
  have hne : locOf base ≠ locOf target := fun heq => ht (heq.symm.trans hbase)
  have hfalse : (locOf target).rooted = false := by rw [← hroot, hbase]; rfl
  have hmoves : (dotdot :: outOf (locOf target)).filterMap toSeg =
      List.replicate ((locOf target).ups + 1) .up ++ (locOf target).names.map .name := by
    rw [List.filterMap_cons, toSeg_dotdot, filterMap_toSeg_outOf, List.replicate_succ,
      List.cons_append]
  rw [segsOf_relPath hne, hbase, relParts_start ht, hmoves, Loc.walk_append, Loc.walk_replicate_up,
    Loc.walk_names] at hwalk
  -- one level too high
  have hups : ((Loc.start false : Loc Name).climb ((locOf target).ups + 1)).ups =
      (locOf target).ups + 1 := by
    simp [Loc.climb, Loc.start]
  have := congrArg Loc.ups hwalk
  rw [Loc.descend_ups, hups] at this
  omega

/-- The law of `rel_path`: from the base it leads to the target, and without a
climb if the target lies inside. -/
structure RelLaw (base target : Str) : Prop where
  leads : cleanPath (base ++ '/' :: relPath base target) = cleanPath target
  down : Inside (locOf base) (locOf target) → NoUp (relPath base target)

theorem relLaw_iff {base target : Str}
    (hroot : Str.startsWith ['/'] base = Str.startsWith ['/'] target) (hups : (locOf base).ups = 0) :
    RelLaw base target ↔ cleanPath base ≠ dot ∨ (base ≠ [] ∧ cleanPath target = dot) := by
  have hroot' : (locOf base).rooted = (locOf target).rooted := by
    rw [locOf_rooted, locOf_rooted, hroot]
  rw [ne_eq, cleanPath_eq_dot_iff, cleanPath_eq_dot_iff]
  constructor
  · intro h
    by_cases hbase : locOf base = Loc.start false
    · right
      have hleads := cleanPath_eq_iff.mp h.leads
      have hne : base ≠ [] := by
        rintro rfl
        -- without a base the joined path is absolute
        have hrooted := congrArg Loc.rooted hleads
        rw [← hroot', hbase, locOf_rooted] at hrooted
        cases hrooted
      rw [locOf_slash hne] at hleads
      exact ⟨hne, walk_segsOf_relPath_start hroot' hbase hleads⟩
    · exact Or.inl hbase
  · intro h
    have hne : base ≠ [] := by
      rcases h with h | h
      · rintro rfl
        exact h locOf_nil
      · exact h.1
    refine ⟨?_, fun hinside => (noUp_relPath hroot').mpr ⟨hinside, fun hstart => ?_⟩⟩
    · rw [cleanPath_eq_iff, locOf_slash hne]
      by_cases hbase : locOf base = Loc.start false
      · have ht := (h.resolve_left fun hno => hno hbase).2
        have hrel : relPath base target = dot := by rw [relPath_eq, if_pos (hbase.trans ht.symm)]
        have hdot : segsOf dot = [] := by decide
        rw [hrel, hdot, Loc.walk_nil, hbase, ht]
      · exact walk_segsOf_relPath hroot' hups hbase
    · exact (h.resolve_left fun hno => hno hstart).2

/-! ## The files of a source -/

/-- What the path crates promise about spellings: a walk stays below its root, a
match is absolute just when its pattern is, and neither puts a `://` together. -/
structure LocalFs.Lexical (fs : LocalFs) : Prop where
  walk : ∀ root follow entry, .ok entry ∈ fs.walkDir root follow →
    Inside (locOf root) (locOf entry.path) ∧
      (Str.splitOnce "://".toList root = none → Str.splitOnce "://".toList entry.path = none)
  glob : ∀ pattern found e, fs.glob pattern = .ok found → .ok e ∈ found →
    Str.startsWith ['/'] e = Str.startsWith ['/'] pattern ∧
      (Str.splitOnce "://".toList pattern = none → Str.splitOnce "://".toList e = none)

/-- A file found under a source that is a directory or a glob, after the URL whose
directory it is taken relative to: the source, or the directory that was matched. -/
inductive LocalFs.Found (fs : LocalFs) (src : Url) (follow : Bool) : Url → Url → Prop where
  | walked {entry : WalkEntry} {file : Url} (hsrc : src.isWildcard = false)
      (hentry : .ok entry ∈ fs.walkDir src.absolute follow) (hfile : Url.new entry.path {} = .ok file) :
      Found fs src follow src file
  | matched {found : List (Except Str Str)} {e : Str} {file : Url} (hsrc : src.isWildcard = true)
      (hglob : fs.glob src.absolute = .ok found) (he : .ok e ∈ found)
      (hfile : Url.new e {} = .ok file) : Found fs src follow src file
  | below {found : List (Except Str Str)} {e : Str} {dir : Url} {entry : WalkEntry} {file : Url}
      (hsrc : src.isWildcard = true) (hglob : fs.glob src.absolute = .ok found) (he : .ok e ∈ found)
      (hdir : Url.new e {} = .ok dir) (hentry : .ok entry ∈ fs.walkDir dir.absolute follow)
      (hfile : Url.new entry.path {} = .ok file) : Found fs src follow dir file

theorem LocalFs.mem_walk {fs : LocalFs} {src : Url} {follow : Bool} {obj : Object}
    (h : obj ∈ fs.walk src follow) (herr : obj.err = none) :
    ∃ entry file, .ok entry ∈ fs.walkDir src.absolute follow ∧ Url.new entry.path {} = .ok file ∧
      obj.url = some (file.setRelative src) := by
  unfold LocalFs.walk at h
  split at h
  · cases h
  · obtain ⟨entry, file, hentry, -, hfile, -, hstat⟩ := LocalFs.mem_walkEntries h herr
    exact ⟨entry, file, hentry, hfile, (LocalFs.statSync_err hstat).2⟩

/-- **Every listed file is found so**, and its relative path was set accordingly. -/
theorem LocalFs.found_of_mem_list {fs : LocalFs} {src : Url} {follow : Bool} {obj : Object}
    (hmulti : src.isWildcard = true ∨ fs.IsDir src) (h : obj ∈ fs.list src follow)
    (herr : obj.err = none) :
    ∃ base file, fs.Found src follow base file ∧ obj.url = some (file.setRelative base) := by
  unfold LocalFs.list at h
  split at h
  · rename_i hwild
    unfold LocalFs.expandGlob at h
    split at h
    · rw [List.mem_singleton.mp h] at herr
      cases herr
    · rename_i found hglob
      rcases List.mem_append.mp h with h | h
      · obtain ⟨e, u, dir, he, hu, hstat, ⟨-, rfl⟩ | ⟨-, hwalk⟩⟩ := LocalFs.mem_globEntries h herr
        · exact ⟨src, u, .matched hwild hglob he hu, (LocalFs.statSync_err hstat).2⟩
        · obtain ⟨entry, file, hentry, hfile, hurl⟩ := LocalFs.mem_walk hwalk herr
          exact ⟨u, file, .below hwild hglob he hu hentry hfile, hurl⟩
      · split at h
        · rw [List.mem_singleton.mp h] at herr
          cases herr
        · cases h
  · rename_i hwild
    split at h
    · rename_i dir hstat
      split at h
      · obtain ⟨entry, file, hentry, hfile, hurl⟩ := LocalFs.mem_walk h herr
        exact ⟨src, file, .walked (by simpa using hwild) hentry hfile, hurl⟩
      · rename_i hno
        rcases hmulti with hyes | hdir
        · exact absurd hyes hwild
        · exact absurd ((LocalFs.statSync_cases hstat).1.mpr hdir) hno
    · rw [List.mem_singleton.mp h] at herr
      cases herr

/-- A URL that was parsed to a local one. -/
structure Url.IsLocal (u : Url) : Prop where
  kind : u.kind = .loc
  noScheme : Str.splitOnce "://".toList u.path = none

theorem Url.IsLocal.absolute_eq {u : Url} (h : u.IsLocal) : u.absolute = u.path := by
  simp [Url.absolute, Url.isRemote, h.kind]

/-- A string without `://` parses to the local URL of that path. -/
theorem Url.isLocal_of_new {s : Str} {u : Url} (hs : Str.splitOnce "://".toList s = none)
    (h : Url.new s {} = .ok u) : u.IsLocal ∧ u.path = s := by
  unfold Url.new at h
  simp only [hs, Url.setPrefixAndFilter_blank _ _ _ _ (rfl : ({} : UrlOptions).raw = false)] at h
  obtain rfl := Except.ok.inj h
  exact ⟨⟨rfl, hs⟩, rfl⟩

/-- The directory of a path is absolute just when the path is. -/
theorem rooted_goDir (p : Str) : (locOf (goDir p)).rooted = Str.startsWith ['/'] p := by
  cases p with
  | nil => decide
  | cons c p =>
    have hdir : locOf (goDir (c :: p)) = locOf ((c :: p).rdropWhile (· != '/')) := by
      rw [goDir, if_neg (List.cons_ne_nil c p), locOf_cleanPath]
    rw [hdir, locOf_rooted]
    obtain ⟨tail, htail⟩ := List.rdropWhile_prefix (· != '/') (l := c :: p)
    cases hdrop : (c :: p).rdropWhile (· != '/') with
    | nil =>
      -- no slash at all
      have hc : (c != '/') = true := List.rdropWhile_eq_nil_iff.mp hdrop c List.mem_cons_self
      have hne : c ≠ '/' := by simpa using hc
      simp [Str.startsWith, List.cons_prefix_cons, Ne.symm hne]
    | cons d q =>
      rw [hdrop, List.cons_append] at htail
      rw [← (List.cons.inj htail).1]
      simp [Str.startsWith, List.cons_prefix_cons]

theorem startsWith_literalPart (p : Str) :
    Str.startsWith ['/'] (Url.literalPart p) = Str.startsWith ['/'] p := by
  cases p with
  | nil => rfl
  | cons c p =>
    by_cases hc : isGlobChar c = true
    · have hne : '/' ≠ c := by
        rintro rfl
        cases hc
      have hnil : Url.literalPart (c :: p) = [] := by simp [Url.literalPart, hc]
      rw [hnil]
      simp [Str.startsWith, List.cons_prefix_cons, hne]
    · have hcons : Url.literalPart (c :: p) = c :: Url.literalPart p := by
        simp [Url.literalPart, hc]
      rw [hcons]
      simp [Str.startsWith, List.cons_prefix_cons]

/-- The base directory of a local URL is absolute just when its path is. -/
theorem Url.IsLocal.rooted_baseDir {u : Url} (h : u.IsLocal) :
    (locOf u.baseDir).rooted = Str.startsWith ['/'] u.path := by
  unfold Url.baseDir
  rw [h.absolute_eq]
  dsimp only
  rw [rooted_goDir]
  split
  · split
    · rename_i i hi
      rw [Url.find_isGlobChar] at hi
      split at hi
      · cases hi
      · obtain rfl := Option.some.inj hi
        have htake : u.path.take (Url.literalPart u.path).length = Url.literalPart u.path :=
          (List.prefix_iff_eq_take.mp (List.takeWhile_prefix _)).symm
        rw [htake, startsWith_literalPart]
    · rfl
  · rfl

/-- The file and the URL it is taken relative to are local, and absolute both or
not at all. -/
theorem LocalFs.Found.isLocal {fs : LocalFs} (hfs : fs.Lexical) {src : Url} (hsrc : src.IsLocal)
    {follow : Bool} {base file : Url} (h : fs.Found src follow base file) :
    base.IsLocal ∧ file.IsLocal ∧ (locOf base.baseDir).rooted = (locOf file.path).rooted := by
  have hwalk : ∀ {root : Url} {entry : WalkEntry} {file : Url}, root.IsLocal →
      .ok entry ∈ fs.walkDir root.absolute follow → Url.new entry.path {} = .ok file →
      file.IsLocal ∧ (locOf root.baseDir).rooted = (locOf file.path).rooted := by
    intro root entry file hroot hentry hfile
    rw [hroot.absolute_eq] at hentry
    obtain ⟨hinside, hscheme⟩ := hfs.walk _ _ _ hentry
    obtain ⟨hlocal, hpath⟩ := Url.isLocal_of_new (hscheme hroot.noScheme) hfile
    refine ⟨hlocal, ?_⟩
    rw [hroot.rooted_baseDir, hpath, ← locOf_rooted, hinside.1]
  cases h with
  | walked hwild hentry hfile => exact ⟨hsrc, hwalk hsrc hentry hfile⟩
  | matched hwild hglob he hfile =>
    rw [hsrc.absolute_eq] at hglob
    obtain ⟨hroot, hscheme⟩ := hfs.glob _ _ _ hglob he
    obtain ⟨hlocal, hpath⟩ := Url.isLocal_of_new (hscheme hsrc.noScheme) hfile
    refine ⟨hsrc, hlocal, ?_⟩
    rw [hsrc.rooted_baseDir, locOf_rooted, hpath, hroot]
  | below hwild hglob he hdir hentry hfile =>
    rw [hsrc.absolute_eq] at hglob
    have hlocal := (Url.isLocal_of_new ((hfs.glob _ _ _ hglob he).2 hsrc.noScheme) hdir).1
    exact ⟨hlocal, hwalk hlocal hentry hfile⟩

/-- What `set_relative` leaves does not climb exactly when the file lies inside the
directory of the base, and that is not `.`. -/
theorem noUp_setRelative_iff {base file : Url} (hfile : file.IsLocal)
    (hroot : (locOf base.baseDir).rooted = (locOf file.path).rooted) :
    NoUp (file.setRelative base).relative ↔ Inside (locOf base.baseDir) (locOf file.path) ∧
      (cleanPath base.baseDir ≠ dot ∨ cleanPath file.path = dot) := by
  have hrel : (file.setRelative base).relative = relPath base.baseDir file.path := by
    have hset : (file.setRelative base).relativePath = relPath base.baseDir file.absolute := rfl
    rw [Url.relative, hset, if_pos (relPath_ne_nil _ _), hfile.absolute_eq]
  rw [hrel, noUp_relPath hroot, ne_eq, cleanPath_eq_dot_iff, cleanPath_eq_dot_iff, imp_iff_not_or]

/-- **The law of relative paths, exactly.** `rel_path` obeys it iff the base does not
clean to `.`, or is a spelling of `.` and so is the target; and a file found under a
local directory or glob has a relative path without `..` iff it lies inside the base
directory, which does not clean to `.`. -/
theorem relative_path_law_iff (base target : Str) (fs : LocalFs) (src : Url) (follow : Bool) :
    (Str.startsWith ['/'] base = Str.startsWith ['/'] target → (locOf base).ups = 0 →
      (RelLaw base target ↔ cleanPath base ≠ dot ∨ (base ≠ [] ∧ cleanPath target = dot))) ∧
    (fs.Lexical → src.IsLocal → ∀ origin file, fs.Found src follow origin file →
      (NoUp (file.setRelative origin).relative ↔
        Inside (locOf origin.baseDir) (locOf file.path) ∧
          (cleanPath origin.baseDir ≠ dot ∨ cleanPath file.path = dot))) := by
  refine ⟨relLaw_iff, ?_⟩
  intro hfs hsrc origin file hfound
  obtain ⟨-, hfile, hroot⟩ := hfound.isLocal hfs hsrc
  exact noUp_setRelative_iff hfile hroot

/-- A filesystem with one file, in the directory `d`. -/
def LocalFs.oneFile : LocalFs :=
  { LocalFs.empty with
    walkDir := fun root _ => if root = "d/".toList then [.ok ⟨"d/f".toList, .file⟩] else [] }

theorem LocalFs.lexical_oneFile : LocalFs.oneFile.Lexical where
  walk := by
    intro root follow entry h
    by_cases hroot : root = "d/".toList
    · subst hroot
      obtain rfl := Except.ok.inj (List.mem_singleton.mp h)
      exact ⟨⟨by decide, by decide, by decide⟩, fun _ => by decide⟩
    · simp only [LocalFs.oneFile, if_neg hroot, List.not_mem_nil] at h
  glob := by
    intro pattern found e h he
    obtain rfl := Except.ok.inj h
    cases he

theorem relative_path_law_below :
    RelLaw "a".toList "a/b".toList ∧
      NoUp ((Url.ofString "d/f").setRelative (Url.ofString "d/")).relative := by
  have hlaw := relative_path_law_iff "a".toList "a/b".toList LocalFs.oneFile (Url.ofString "d/") true
  refine ⟨(hlaw.1 (by decide) (by decide)).mpr (Or.inl (by decide)), ?_⟩
  have hentry : (.ok ⟨"d/f".toList, .file⟩ : Except WalkError WalkEntry) ∈
      LocalFs.oneFile.walkDir (Url.ofString "d/").absolute true := by decide +kernel
  have hfound : LocalFs.oneFile.Found (Url.ofString "d/") true (Url.ofString "d/")
      (Url.ofString "d/f") := .walked (by decide +kernel) hentry (by decide +kernel)
  refine (hlaw.2 LocalFs.lexical_oneFile ⟨by decide +kernel, by decide +kernel⟩ _ _ hfound).mpr ?_
  exact ⟨⟨by decide +kernel, by decide +kernel, by decide +kernel⟩, Or.inl (by decide +kernel)⟩

/-- From `.` to the file `f` in it, `rel_path` leads to `../f`, and so it does for a
file of the source `.`. -/
theorem dot_source_climbs :
    Str.startsWith ['/'] dot = Str.startsWith ['/'] "f".toList ∧ (locOf dot).ups = 0 ∧
      relPath dot "f".toList = "../f".toList ∧ ¬ RelLaw dot "f".toList ∧
      ¬ NoUp ((Url.ofString "./f").setRelative (Url.ofString ".")).relative := by
  refine ⟨by decide, by decide, by decide, ?_, by decide +kernel⟩
  intro h
  exact absurd h.leads (by decide)

end Rs5cmd
