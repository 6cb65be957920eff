import Rs5cmd.Command.SyncScope
import Rs5cmd.Storage.Tree
import Rs5cmd.Theorems.RelPath

/-!
# Local globs and the files below their matches

A match that is a file is taken relative to the directory part of the glob, a file
below a match that is a directory relative to that match's own parent. The two agree
on matches directly below the directory part only.
-/

namespace Rs5cmd

open LexPath

/-! ## What the filesystem answers -/

/-- A spelling of the entry `w` of the directory `dir`: its name after a spelling of
the directory it lies in, with no wildcard and no scheme put together. -/
def Spells (dir p : Str) (w : List Name) : Prop :=
  ∃ parent init last, w = init ++ [last] ∧ p = parent ++ last.val ∧
    (parent = [] ∨ Str.endsWith '/' parent = true) ∧ locOf parent = (locOf dir).descend init ∧
    hasGlobCharacter p = false ∧ Str.splitOnce "://".toList p = none

/-- The filesystem holds the tree below `dir`, and `matched` are the entries of it that
match the source: globbing yields each of them once, walking a directory each entry
below it once. -/
structure LocalFs.Holds (fs : LocalFs) (dir : Str) (src : Url) (follow : Bool) (tree : DirTree)
    (matched : List (List Name)) : Prop where
  sub : ∀ v ∈ matched, ∃ k, (v, k) ∈ tree.entries
  once : matched.Nodup
  glob : ∃ ps : List Str, fs.glob src.absolute = .ok (ps.map .ok) ∧
    List.Forall₂ (Spells dir) ps matched
  stat : ∀ p w k, Spells dir p w → (w, k) ∈ tree.entries →
    ∃ m, fs.symlinkMetadata p = .ok m ∧ m.kind = k
  walk : ∀ p v, Spells dir p v → (v, .dir) ∈ tree.entries →
    ∃ (found : List (List Name × FileKind)) (xs : List WalkEntry),
      fs.walkDir p follow = xs.map .ok ∧ found.Nodup ∧
      (∀ e, e ∈ found ↔ e ∈ tree.entries ∧ v <+: e.1) ∧
      List.Forall₂ (fun x e => Spells dir x.path e.1 ∧ x.kind = e.2) xs found

/-- The source is a local glob whose literal directory part is `dir`. -/
structure Url.GlobIn (src : Url) (dir : Str) : Prop where
  isLocal : src.IsLocal
  notRaw : src.raw = false
  dirEnd : dir = [] ∨ Str.endsWith '/' dir = true
  shape : ∃ pat, src.path = dir ++ pat ∧ hasGlobCharacter dir = false ∧
    '/' ∉ Url.literalPart pat ∧ hasGlobCharacter pat = true

/-! ## Spellings -/

/-- A name after a directory leads one level down. -/
theorem locOf_append_name {parent : Str} (h : parent = [] ∨ Str.endsWith '/' parent = true)
    (n : Name) : locOf (parent ++ n.val) = (locOf parent).descend [n] := by
  have hname : segsOf n.val = [.name n] := by
    have := segsOf_join_names [n]
    simpa [Str.join, List.intercalate] using this
  rw [locOf_append_last h n.property.2.2.2, hname]
  rfl

/-- A local URL without wildcards, at an entry of the directory. -/
structure Url.At (u : Url) (dir : Str) (w : List Name) : Prop where
  isLocal : u.IsLocal
  loc : locOf u.path = (locOf dir).descend w
  base : locOf u.baseDir = (locOf dir).descend w.dropLast
  ne : w ≠ []

theorem Spells.url {dir p : Str} {w : List Name} (h : Spells dir p w) :
    ∃ u, Url.new p {} = .ok u ∧ u.absolute = p ∧ u.At dir w := by
  obtain ⟨parent, init, last, rfl, rfl, hend, hloc, hglob, hscheme⟩ := h
  have hnew : Url.new (parent ++ last.val) {} =
      .ok (Url.parsed .loc [] [] (parent ++ last.val) {}) := by
    rw [Url.new, hscheme]
    exact Url.setPrefixAndFilter_blank _ _ _ _ rfl
  refine ⟨_, hnew, rfl, ⟨rfl, hscheme⟩, ?_, ?_, by simp⟩
  · show locOf (parent ++ last.val) = _
    rw [locOf_append_name hend, hloc, Loc.descend_descend]
  · have hwild : (Url.parsed .loc [] [] (parent ++ last.val) {}).isWildcard = false := by
      show (!false && hasGlobCharacter (parent ++ last.val)) = false
      rw [hglob, Bool.and_false]
    have hbase : (Url.parsed .loc [] [] (parent ++ last.val) {}).baseDir =
        goDir (parent ++ last.val) := by
      rw [Url.baseDir, hwild]
      rfl
    rw [hbase, goDir_append last.property.2.2.2 hend, locOf_cleanPath, hloc, List.dropLast_concat]

theorem Url.GlobIn.isWildcard {src : Url} {dir : Str} (h : src.GlobIn dir) :
    src.isWildcard = true := by
  obtain ⟨pat, hpath, -, -, hglob⟩ := h.shape
  rw [hasGlobCharacter] at hglob
  rw [Url.isWildcard, h.notRaw, hpath, hasGlobCharacter, List.any_append, hglob]
  simp

/-- Paths of the source are taken relative to its directory part. -/
theorem Url.GlobIn.baseDir {src : Url} {dir : Str} (h : src.GlobIn dir) :
    locOf src.baseDir = locOf dir := by
  have hwild := h.isWildcard
  obtain ⟨pat, hpath, hlit, hslash, hglob⟩ := h.shape
  have hne : Url.globPart pat ≠ [] := Url.globPart_ne_nil hglob
  have hfind : Str.find isGlobChar (dir ++ pat) = some (dir ++ Url.literalPart pat).length := by
    rw [Url.find_isGlobChar, Url.globPart_append hlit, if_neg hne, Url.literalPart_append hlit]
  have htake : (dir ++ pat).take (dir ++ Url.literalPart pat).length = dir ++ Url.literalPart pat := by
    refine (List.prefix_iff_eq_take.mp ⟨Url.globPart pat, ?_⟩).symm
    rw [List.append_assoc, Url.literalPart_append_globPart]
  rw [Url.baseDir, hwild, if_pos rfl, h.isLocal.absolute_eq, hpath, hfind]
  show locOf (goDir ((dir ++ pat).take (dir ++ Url.literalPart pat).length)) = locOf dir
  rw [htake, goDir_append hslash h.dirEnd, locOf_cleanPath]

/-! ## The objects of a listing -/

/-- The names above an entry that its relative path leaves out when the match `v`
yields it. -/
def leftOut (v w : List Name) : List Name := if v = w then [] else v.dropLast

/-- The relative path of the file `w` that the match `v` yields. -/
def relName (dir : Str) (v w : List Name) : Str :=
  if (locOf dir).descend (leftOut v w) = Loc.start false then
    Str.join '/' (dotdot :: (w.drop (leftOut v w).length).map Subtype.val)
  else Str.join '/' ((w.drop (leftOut v w).length).map Subtype.val)

/-- The object is the file `w`, yielded by the match `v`. -/
structure ListedFor (dir : Str) (obj : Object) (vw : List Name × List Name) : Prop where
  err : obj.err = none
  url : ∃ u, obj.url = some u ∧ locOf u.path = (locOf dir).descend vw.2 ∧
    u.relative = relName dir vw.1 vw.2

theorem relPath_eq_relName {dir base target : Str} {v w : List Name}
    (hbase : locOf base = (locOf dir).descend (leftOut v w))
    (htarget : locOf target = (locOf dir).descend w) (hpre : leftOut v w <+: w)
    (hne : leftOut v w ≠ w) : relPath base target = relName dir v w := by
  have hsplit : leftOut v w ++ w.drop (leftOut v w).length = w := List.prefix_iff_eq_append.mp hpre
  have hrest : w.drop (leftOut v w).length ≠ [] := by
    intro hnil
    rw [hnil, List.append_nil] at hsplit
    exact hne hsplit
  have hdesc : locOf target = (locOf base).descend (w.drop (leftOut v w).length) := by
    rw [htarget, hbase, Loc.descend_descend, hsplit]
  rw [relPath_descend hrest hdesc, hbase, relName]

section Listing

variable {fs : LocalFs} {dir : Str} {src : Url} {follow : Bool} {tree : DirTree}
  {matched : List (List Name)}

/-- What the code learns about an entry, however it is spelled. -/
theorem LocalFs.Holds.statSync (h : fs.Holds dir src follow tree matched) {p : Str} {w : List Name}
    {k : FileKind} (hp : Spells dir p w) (hk : (w, k) ∈ tree.entries) {u : Url}
    (hu : u.absolute = p) :
    fs.shouldProcessUrl p follow = true ∧ ∃ obj, fs.statSync u = .ok obj ∧ obj.err = none ∧
      obj.url = some u ∧ (obj.typ.isDir = true ↔ k = .dir) := by
  obtain ⟨m, hm, hkind⟩ := h.stat p w k hp hk
  have hplain := tree.kinds _ hk
  refine ⟨?_, ?_⟩
  · have hno : (m.kind != .symlink) = true := by
      rw [hkind]
      rcases hplain with hfile | hdir
      · rw [show k = .file from hfile]
        rfl
      · rw [show k = .dir from hdir]
        rfl
    simp [LocalFs.shouldProcessUrl, hm, hno]
  · cases hstat : fs.statSync u with
    | error e =>
      rw [LocalFs.statSync, hu] at hstat
      simp [hm] at hstat
    | ok obj =>
      obtain ⟨herr, hurl⟩ := LocalFs.statSync_err hstat
      refine ⟨obj, rfl, herr, hurl, (LocalFs.statSync_cases hstat).1.trans ?_⟩
      unfold LocalFs.IsDir
      rw [hu, hm]
      constructor
      · rintro ⟨m', hm', hdir⟩
        rw [← hkind, Except.ok.inj hm', hdir]
      · intro hdir
        exact ⟨m, rfl, hkind.trans hdir⟩

/-- Of a walk the regular files are sent, in turn. -/
theorem LocalFs.Holds.walkEntries (h : fs.Holds dir src follow tree matched) {base : Url}
    {v : List Name} (hbase : locOf base.baseDir = (locOf dir).descend v.dropLast) (hv : v ≠ [])
    {xs : List WalkEntry} {found : List (List Name × FileKind)}
    (hxs : List.Forall₂ (fun x e => Spells dir x.path e.1 ∧ x.kind = e.2) xs found)
    (hfound : ∀ e ∈ found, e ∈ tree.entries ∧ v <+: e.1 ∧ (e.2 = .file → v ≠ e.1)) :
    List.Forall₂ (ListedFor dir) (fs.walkEntries base follow (xs.map .ok))
      ((found.filter (·.2 == .file)).map fun e => (v, e.1)) := by
  induction hxs with
  | nil => exact .nil
  | cons hhead hrest ih =>
    rename_i x e xs found
    obtain ⟨hspell, hkind⟩ := hhead
    have ih := ih fun e he => hfound e (List.mem_cons_of_mem _ he)
    obtain ⟨hin, hpre, hne⟩ := hfound e List.mem_cons_self
    obtain ⟨u, hu, habs, hat⟩ := hspell.url
    rw [List.map_cons, LocalFs.walkEntries]
    by_cases hfile : e.2 = .file
    · obtain ⟨hproc, obj, hstat, herr, hurl, -⟩ :=
        h.statSync (u := u.setRelative base) hspell hin (by rw [absolute_setRelative, habs])
      rw [if_neg (by rw [hkind, hfile]; simp), hu]
      simp only [hproc, Bool.not_true, Bool.false_eq_true, if_false, hstat]
      rw [List.filter_cons_of_pos (by rw [hfile]; rfl), List.map_cons]
      refine .cons ⟨herr, u.setRelative base, hurl, hat.loc, ?_⟩ ih
      have hleft : leftOut v e.1 = v.dropLast := if_neg (hne hfile)
      have hlpre : v.dropLast <+: e.1 := (List.dropLast_prefix v).trans hpre
      rw [relative_setRelative, habs]
      refine relPath_eq_relName (by rw [hbase, hleft]) ?_ (by rw [hleft]; exact hlpre) ?_
      · rw [← habs, hat.isLocal.absolute_eq]
        exact hat.loc
      · rw [hleft]
        intro heq
        have hlen := hpre.length_le
        have heq' : v.dropLast = e.1 := heq
        rw [← heq', List.length_dropLast] at hlen
        have := List.length_pos_of_ne_nil hv
        omega
    · rw [if_pos (by rw [hkind]; exact hfile), List.filter_cons_of_neg (by simpa using hfile)]
      exact ih

/-- **The objects of the expansion**: for each match the files it leads to. -/
theorem LocalFs.Holds.globEntries (h : fs.Holds dir src follow tree matched) (hsrc : src.GlobIn dir)
    {ps : List Str} {ms : List (List Name)} (hps : List.Forall₂ (Spells dir) ps ms)
    (hsub : ∀ v ∈ ms, ∃ k, (v, k) ∈ tree.entries) (honce : ms.Nodup) :
    ∃ pairs : List (List Name × List Name),
      List.Forall₂ (ListedFor dir) (fs.globEntries src follow (ps.map .ok)) pairs ∧ pairs.Nodup ∧
      ∀ v w, (v, w) ∈ pairs ↔ v ∈ ms ∧ (w, .file) ∈ tree.entries ∧ v <+: w := by
  induction hps with
  | nil => exact ⟨[], .nil, .nil, by simp⟩
  | cons hspell hrest ih =>
    rename_i p v ps ms
    obtain ⟨hnot, honce'⟩ := List.nodup_cons.mp honce
    obtain ⟨pairs, hpairs, hnodup, hmem⟩ := ih (fun v hv => hsub v (List.mem_cons_of_mem _ hv)) honce'
    obtain ⟨k, hk⟩ := hsub v List.mem_cons_self
    obtain ⟨u, hu, habs, hat⟩ := hspell.url
    obtain ⟨hproc, obj, hstat, herr, hurl, hdir⟩ :=
      h.statSync (u := u.setRelative src) hspell hk (by rw [absolute_setRelative, habs])
    have hother : ∀ w, (v, w) ∉ pairs := fun w hw => hnot ((hmem v w).mp hw).1
    rw [List.map_cons, LocalFs.globEntries, hu]
    simp only [hstat]
    rcases tree.kinds _ hk with hfile | hisdir
    · -- a file is sent as it is
      have hno : obj.typ.isDir = false := by
        cases hd : obj.typ.isDir with
        | false => rfl
        | true =>
          have := hdir.mp hd
          rw [this] at hfile
          cases hfile
      rw [hno, Bool.not_false, if_pos rfl]
      refine ⟨(v, v) :: pairs, .cons ⟨herr, u.setRelative src, hurl, hat.loc, ?_⟩ hpairs,
        List.nodup_cons.mpr ⟨hother v, hnodup⟩, ?_⟩
      · have hleft : leftOut v v = [] := if_pos rfl
        rw [relative_setRelative, habs]
        refine relPath_eq_relName (by rw [hsrc.baseDir, hleft, Loc.descend_nil]) ?_
          (by rw [hleft]; exact List.nil_prefix) (by rw [hleft]; exact Ne.symm hat.ne)
        rw [← habs, hat.isLocal.absolute_eq]
        exact hat.loc
      · intro v' w
        rw [List.mem_cons, hmem, List.mem_cons]
        have hkf : (v, .file) ∈ tree.entries := by rw [← hfile]; exact hk
        constructor
        · rintro (heq | ⟨hv', hw⟩)
          · obtain ⟨rfl, rfl⟩ := Prod.mk.inj heq
            exact ⟨.inl rfl, hkf, List.prefix_refl _⟩
          · exact ⟨.inr hv', hw⟩
        · rintro ⟨rfl | hv', hw, hpre⟩
          · exact .inl (by rw [tree.leaf hkf hw hat.ne hpre])
          · exact .inr ⟨hv', hw, hpre⟩
    · -- a directory is walked
      have hkd : (v, .dir) ∈ tree.entries := by rw [← hisdir]; exact hk
      have hyes : obj.typ.isDir = true := hdir.mpr hisdir
      rw [hyes, Bool.not_true, if_neg (by simp)]
      obtain ⟨found, xs, hwalk, hfnodup, hfmem, hxs⟩ := h.walk p v hspell hkd
      have hself : (v, .file) ∉ tree.entries := by
        intro hkf
        cases tree.unique hkf hkd
      have hbase : locOf (u.setRelative src).baseDir = (locOf dir).descend v.dropLast := by
        rw [baseDir_setRelative]
        exact hat.base
      have hentries := h.walkEntries hbase hat.ne hxs (by
        intro e he
        obtain ⟨hin, hpre⟩ := (hfmem e).mp he
        refine ⟨hin, hpre, fun hkf heq => hself ?_⟩
        rw [heq, ← hkf]
        exact hin)
      have hwalk' : fs.walk (u.setRelative src) follow =
          fs.walkEntries (u.setRelative src) follow (xs.map .ok) := by
        rw [LocalFs.walk, absolute_setRelative, habs, hproc, hwalk]
        rfl
      rw [hwalk']
      refine ⟨((found.filter (·.2 == .file)).map fun e => (v, e.1)) ++ pairs,
        List.rel_append hentries hpairs, ?_, ?_⟩
      · rw [List.nodup_append]
        refine ⟨?_, hnodup, ?_⟩
        · refine List.Nodup.map_on ?_ (hfnodup.filter _)
          intro a ha b hb hab
          have ha2 : a.2 = .file := by simpa using (List.mem_filter.mp ha).2
          have hb2 : b.2 = .file := by simpa using (List.mem_filter.mp hb).2
          exact Prod.ext (Prod.mk.inj hab).2 (ha2.trans hb2.symm)
        · intro a ha b hb heq
          obtain ⟨e, -, rfl⟩ := List.mem_map.mp ha
          exact hother e.1 (heq ▸ hb)
      · intro v' w
        rw [List.mem_append, hmem, List.mem_cons]
        constructor
        · rintro (hin | ⟨hv', hw⟩)
          · obtain ⟨e, he, heq⟩ := List.mem_map.mp hin
            obtain ⟨rfl, rfl⟩ := Prod.mk.inj heq
            obtain ⟨he1, he2⟩ := List.mem_filter.mp he
            obtain ⟨hin, hpre⟩ := (hfmem e).mp he1
            have hkf : e.2 = .file := by simpa using he2
            exact ⟨.inl rfl, by rw [← hkf]; exact hin, hpre⟩
          · exact ⟨.inr hv', hw⟩
        · rintro ⟨rfl | hv', hw, hpre⟩
          · refine .inl (List.mem_map.mpr ⟨(w, .file), List.mem_filter.mpr ⟨?_, rfl⟩, rfl⟩)
            exact (hfmem (w, .file)).mpr ⟨hw, hpre⟩
          · exact .inr ⟨hv', hw, hpre⟩

end Listing

/-! ## Faithful listings -/

/-- The listing has each selected file once, under its path below the directory part,
and so no two under the same path. -/
def FaithfulGlob (dir : Str) (tree : DirTree) (matched : List (List Name)) (objs : List Object) :
    Prop :=
  ∃ ws : List (List Name), ws.Nodup ∧
    (∀ w, w ∈ ws ↔ (w, .file) ∈ tree.entries ∧ ∃ v ∈ matched, v <+: w) ∧
    List.Forall₂ (fun obj w => ∃ u, obj.url = some u ∧ locOf u.path = (locOf dir).descend w ∧
      u.relative = Str.join '/' (w.map Subtype.val)) objs ws ∧
    (objs.map fun obj => obj.url.map Url.relative).Nodup

theorem join_names_inj {v w : List Name}
    (h : Str.join '/' (v.map Subtype.val) = Str.join '/' (w.map Subtype.val)) : v = w := by
  have hsegs := congrArg segsOf h
  rw [segsOf_join_names, segsOf_join_names] at hsegs
  exact List.map_injective_iff.mpr (fun _ _ h => Seg.name.inj h) hsegs

/-- The relative path is the path below the directory part exactly when that is not
`.` and nothing above the entry is left out. -/
theorem relName_eq_iff {dir : Str} {v w : List Name} (hw : w ≠ []) :
    relName dir v w = Str.join '/' (w.map Subtype.val) ↔
      locOf dir ≠ Loc.start false ∧ leftOut v w = [] := by
  unfold relName
  split
  · rename_i hstart
    constructor
    · intro heq
      -- a climb is no name
      exfalso
      have hslash : ∀ s ∈ dotdot :: (w.drop (leftOut v w).length).map Subtype.val, '/' ∉ s := by
        intro s hs
        rcases List.mem_cons.mp hs with rfl | hs
        · decide
        · obtain ⟨n, -, rfl⟩ := List.mem_map.mp hs
          exact n.property.2.2.2
      have hsegs := congrArg segsOf heq
      rw [segsOf_join_names, segsOf, split_join hslash (by simp),
        List.filterMap_cons_some toSeg_dotdot] at hsegs
      cases w with
      | nil => exact hw rfl
      | cons n w => cases hsegs
    · rintro ⟨hdir, hleft⟩
      rw [hleft, Loc.descend_nil] at hstart
      exact absurd hstart hdir
  · rename_i hstart
    constructor
    · intro heq
      have hdrop := congrArg List.length (join_names_inj heq)
      rw [List.length_drop] at hdrop
      have hpos := List.length_pos_of_ne_nil hw
      have hleft : leftOut v w = [] := List.eq_nil_of_length_eq_zero (by omega)
      rw [hleft, Loc.descend_nil] at hstart
      exact ⟨hstart, hleft⟩
    · rintro ⟨-, hleft⟩
      rw [hleft]
      rfl

theorem leftOut_eq_nil_iff {v w : List Name} (hv : v ≠ []) :
    leftOut v w = [] ↔ v = w ∨ v.length = 1 := by
  unfold leftOut
  have hpos := List.length_pos_of_ne_nil hv
  split
  · rename_i heq
    simp [heq]
  · rename_i hne
    rw [← List.length_eq_zero_iff, List.length_dropLast]
    constructor
    · intro hlen
      exact .inr (by omega)
    · rintro (heq | hlen)
      · exact absurd heq hne
      · omega

section Faithful

variable {fs : LocalFs} {dir : Str} {src : Url} {follow : Bool} {tree : DirTree}
  {matched : List (List Name)}

/-- The objects of the listing, for the pairs of a match and a file it leads to. -/
theorem LocalFs.Holds.objects (h : fs.Holds dir src follow tree matched) (hsrc : src.GlobIn dir) :
    ∃ pairs : List (List Name × List Name),
      List.Forall₂ (ListedFor dir) ((fs.list src follow).filter (·.err.isNone)) pairs ∧
      pairs.Nodup ∧
      ∀ v w, (v, w) ∈ pairs ↔ v ∈ matched ∧ (w, .file) ∈ tree.entries ∧ v <+: w := by
  obtain ⟨ps, hglob, hps⟩ := h.glob
  obtain ⟨pairs, hpairs, hnodup, hmem⟩ := h.globEntries hsrc hps h.sub h.once
  refine ⟨pairs, ?_, hnodup, hmem⟩
  have hlist : fs.list src follow = fs.globEntries src follow (ps.map .ok) ++
      if (ps.map (Except.ok (ε := Str))).isEmpty then
        [Object.withError (.msg ("no match found for ".toList ++ debugStr src.absolute))]
      else [] := by
    rw [LocalFs.list, if_pos hsrc.isWildcard, LocalFs.expandGlob, hglob]
  have hobjs : (fs.globEntries src follow (ps.map .ok)).filter (·.err.isNone) =
      fs.globEntries src follow (ps.map .ok) := by
    have hnone : List.Forall₂ (fun obj _ => obj.err = none ∧ True)
        (fs.globEntries src follow (ps.map .ok)) pairs := hpairs.imp fun _ _ h => ⟨h.err, trivial⟩
    rw [List.filter_eq_self]
    intro obj hobj
    rw [((List.forall₂_and_left _ _).mp hnone).1 obj hobj]
    rfl
  have hend : (if (ps.map (Except.ok (ε := Str))).isEmpty then
        [Object.withError (.msg ("no match found for ".toList ++ debugStr src.absolute))]
      else []).filter (·.err.isNone) = [] := by
    split <;> rfl
  rw [hlist, List.filter_append, hobjs, hend, List.append_nil]
  exact hpairs

/-- Both descriptions of the objects agree on the files. -/
theorem aligned {objs : List Object} {pairs : List (List Name × List Name)} {ws : List (List Name)}
    (hp : List.Forall₂ (ListedFor dir) objs pairs)
    (hw : List.Forall₂ (fun obj w => ∃ u, obj.url = some u ∧ locOf u.path = (locOf dir).descend w ∧
      u.relative = Str.join '/' (w.map Subtype.val)) objs ws) :
    ws = pairs.map Prod.snd ∧
      ∀ vw ∈ pairs, relName dir vw.1 vw.2 = Str.join '/' (vw.2.map Subtype.val) := by
  induction hp generalizing ws with
  | nil =>
    cases hw
    exact ⟨rfl, by simp⟩
  | cons hhead _ ih =>
    cases hw with
    | cons hhead' hrest =>
      rename_i obj vw objs pairs _ w ws
      obtain ⟨hws, hnames⟩ := ih hrest
      obtain ⟨u, hu, hloc, hrel⟩ := hhead.url
      obtain ⟨u', hu', hloc', hrel'⟩ := hhead'
      obtain rfl := Option.some.inj (hu.symm.trans hu')
      have hw : w = vw.2 := by
        have := congrArg Loc.names (hloc'.symm.trans hloc)
        simpa using this
      refine ⟨by rw [hws, hw, List.map_cons], ?_⟩
      intro x hx
      rcases List.mem_cons.mp hx with rfl | hx
      · rw [← hrel, hrel', hw]
      · exact hnames x hx

/-- **Faithful local globs, exactly.** Each file that matches or lies below a match is
listed once under its path below the directory part iff that part does not clean to
`.`, every match with a file below it is an entry of that directory itself, and none
of those files matches as well. -/
theorem glob_listing_faithful_iff (fs : LocalFs) (dir : Str) (src : Url) (follow : Bool)
    (tree : DirTree) (matched : List (List Name)) (hsrc : src.GlobIn dir)
    (h : fs.Holds dir src follow tree matched) :
    FaithfulGlob dir tree matched ((fs.list src follow).filter (·.err.isNone)) ↔
      ∀ v ∈ matched, ∀ w, (w, .file) ∈ tree.entries → v <+: w →
        cleanPath dir ≠ dot ∧ (v ≠ w → v.length = 1 ∧ w ∉ matched) := by
  obtain ⟨pairs, hpairs, hnodup, hmem⟩ := h.objects hsrc
  have hne : ∀ v ∈ matched, v ≠ [] := by
    obtain ⟨ps, -, hps⟩ := h.glob
    have hflip : List.Forall₂ (fun v p => v ≠ [] ∧ True) matched ps :=
      (hps.imp fun _ _ hsp => by
        obtain ⟨_, _, _, rfl, -⟩ := hsp
        exact ⟨by simp, trivial⟩).flip
    exact ((List.forall₂_and_left _ _).mp hflip).1
  have hfile : ∀ {v w : List Name}, v ∈ matched → v <+: w → w ≠ [] := by
    rintro v w hv hpre rfl
    exact hne v hv (List.prefix_nil.mp hpre)
  simp only [ne_eq, cleanPath_eq_dot_iff]
  constructor
  · rintro ⟨ws, honce, -, hws, -⟩ v hv w hw hpre
    obtain ⟨rfl, hnames⟩ := aligned hpairs hws
    have hin : (v, w) ∈ pairs := (hmem v w).mpr ⟨hv, hw, hpre⟩
    obtain ⟨hdir, hleft⟩ := (relName_eq_iff (hfile hv hpre)).mp (hnames _ hin)
    refine ⟨hdir, fun hvw => ⟨?_, fun hmatch => ?_⟩⟩
    · exact ((leftOut_eq_nil_iff (hne v hv)).mp hleft).resolve_left hvw
    · -- it would be listed for itself and for the directory
      have hself : (w, w) ∈ pairs := (hmem w w).mpr ⟨hmatch, hw, List.prefix_refl w⟩
      exact hvw (Prod.mk.inj (List.inj_on_of_nodup_map honce hin hself rfl)).1
  · intro hcond
    -- no file has two matches
    have huniq : ∀ v v' w, (v, w) ∈ pairs → (v', w) ∈ pairs → v = v' := by
      intro v v' w hv hv'
      obtain ⟨hv, hw, hpre⟩ := (hmem v w).mp hv
      obtain ⟨hv', -, hpre'⟩ := (hmem v' w).mp hv'
      by_cases hvw : v = w
      · by_contra hne'
        have hnot : v' ≠ w := fun heq => hne' (hvw.trans heq.symm)
        exact ((hcond v' hv' w hw hpre').2 hnot).2 (hvw ▸ hv)
      · by_cases hvw' : v' = w
        · exact absurd (hvw' ▸ hv') ((hcond v hv w hw hpre).2 hvw).2
        · have hlen := ((hcond v hv w hw hpre).2 hvw).1
          have hlen' := ((hcond v' hv' w hw hpre').2 hvw').1
          exact (List.prefix_of_prefix_length_le hpre hpre' (by omega)).eq_of_length (by omega)
    have hws : List.Forall₂ (fun obj w => ∃ u, obj.url = some u ∧
        locOf u.path = (locOf dir).descend w ∧ u.relative = Str.join '/' (w.map Subtype.val))
        ((fs.list src follow).filter (·.err.isNone)) (pairs.map Prod.snd) := by
      rw [List.forall₂_map_right_iff]
      have hin := ((List.forall₂_and_left _ _).mpr ⟨fun vw hvw => hvw, hpairs.flip⟩).flip
      refine hin.imp ?_
      rintro obj ⟨v, w⟩ ⟨hvw, hlisted⟩
      obtain ⟨u, hu, hloc, hrel⟩ := hlisted.url
      obtain ⟨hv, hw, hpre⟩ := (hmem v w).mp hvw
      obtain ⟨hdir, hflat⟩ := hcond v hv w hw hpre
      refine ⟨u, hu, hloc, hrel.trans ((relName_eq_iff (hfile hv hpre)).mpr ⟨hdir, ?_⟩)⟩
      rw [leftOut_eq_nil_iff (hne v hv)]
      by_cases hvw : v = w
      · exact .inl hvw
      · exact .inr (hflat hvw).1
    have honce : (pairs.map Prod.snd).Nodup := by
      refine List.Nodup.map_on ?_ hnodup
      rintro ⟨v, w⟩ hv ⟨v', w'⟩ hv' heq
      obtain rfl : w = w' := heq
      rw [huniq v v' w hv hv']
    refine ⟨pairs.map Prod.snd, honce, ?_, hws, ?_⟩
    · intro w
      constructor
      · intro hw
        obtain ⟨⟨v, w'⟩, hin, rfl⟩ := List.mem_map.mp hw
        obtain ⟨hv, hw, hpre⟩ := (hmem v w').mp hin
        exact ⟨hw, v, hv, hpre⟩
      · rintro ⟨hw, v, hv, hpre⟩
        exact List.mem_map.mpr ⟨(v, w), (hmem v w).mpr ⟨hv, hw, hpre⟩, rfl⟩
    · -- distinct files have distinct paths below the directory part
      have hrel : ((fs.list src follow).filter (·.err.isNone)).map (fun obj => obj.url.map Url.relative) =
          (pairs.map Prod.snd).map fun w => some (Str.join '/' (w.map Subtype.val)) := by
        rw [← List.forall₂_eq_eq_eq, List.forall₂_map_left_iff, List.forall₂_map_right_iff]
        refine hws.imp ?_
        rintro obj w ⟨u, hu, -, hrel⟩
        rw [hu, Option.map_some, hrel]
      rw [hrel]
      exact honce.map fun v w hvw => join_names_inj (Option.some.inj hvw)

end Faithful

/-! ## A filesystem for a tree -/

/-- The plain spelling of an entry. -/
def spellIn (dir : Str) (w : List Name) : Str := dir ++ Str.join '/' (w.map Subtype.val)

/-- The entry that a path leads to. -/
def DirTree.at? (tree : DirTree) (dir p : Str) : Option (List Name × FileKind) :=
  tree.entries.find? fun e => locOf p = (locOf dir).descend e.1

/-- The filesystem that holds the tree below `dir`, for a glob that matches `matched`. -/
def DirTree.fs (tree : DirTree) (dir : Str) (matched : List (List Name)) : LocalFs where
  symlinkMetadata p :=
    match tree.at? dir p with
    | some e => .ok ⟨e.2, 0, none⟩
    | none => .error (.notFound [])
  metadata p :=
    match tree.at? dir p with
    | some e => .ok ⟨e.2, 0, none⟩
    | none => .error (.notFound [])
  glob _ := .ok (matched.map fun w => .ok (spellIn dir w))
  walkDir p _ :=
    match tree.at? dir p with
    | some v => (tree.entries.filter fun e => v.1 <+: e.1).map fun e => .ok ⟨spellIn dir e.1, e.2⟩
    | none => []
  md5Hex _ := none

theorem DirTree.at?_eq_some (tree : DirTree) {dir p : Str} {w : List Name} {k : FileKind}
    (hp : Spells dir p w) (hk : (w, k) ∈ tree.entries) : tree.at? dir p = some (w, k) := by
  obtain ⟨u, -, habs, hat⟩ := hp.url
  have hloc : locOf p = (locOf dir).descend w := by
    rw [← habs, hat.isLocal.absolute_eq]
    exact hat.loc
  cases hfind : tree.at? dir p with
  | none =>
    have := List.find?_eq_none.mp hfind _ hk
    exact absurd (by simpa using hloc) this
  | some e =>
    have he := List.mem_of_find?_eq_some hfind
    have hloc' : locOf p = (locOf dir).descend e.1 := by simpa using List.find?_some hfind
    have hw : e.1 = w := by
      have := congrArg Loc.names (hloc'.symm.trans hloc)
      simpa using this
    rw [List.inj_on_of_nodup_map tree.once he hk hw]

theorem DirTree.holds (tree : DirTree) {dir : Str} {matched : List (List Name)}
    (hspell : ∀ e ∈ tree.entries, Spells dir (spellIn dir e.1) e.1)
    (hsub : ∀ v ∈ matched, ∃ k, (v, k) ∈ tree.entries) (honce : matched.Nodup) (src : Url)
    (follow : Bool) : (tree.fs dir matched).Holds dir src follow tree matched where
  sub := hsub
  once := honce
  glob := by
    refine ⟨matched.map (spellIn dir), ?_, ?_⟩
    · rw [List.map_map]
      rfl
    · rw [List.forall₂_map_left_iff, List.forall₂_same]
      intro v hv
      obtain ⟨k, hk⟩ := hsub v hv
      exact hspell _ hk
  stat := by
    intro p w k hp hk
    refine ⟨⟨k, 0, none⟩, ?_, rfl⟩
    simp only [DirTree.fs, tree.at?_eq_some hp hk]
  walk := by
    intro p v hp hk
    refine ⟨tree.entries.filter fun e => v <+: e.1,
      (tree.entries.filter fun e => v <+: e.1).map fun e => ⟨spellIn dir e.1, e.2⟩, ?_, ?_, ?_, ?_⟩
    · simp only [DirTree.fs, tree.at?_eq_some hp hk, List.map_map]
      rfl
    · exact (List.Nodup.of_map _ tree.once).filter _
    · intro e
      rw [List.mem_filter, decide_eq_true_eq]
    · rw [List.forall₂_map_left_iff, List.forall₂_same]
      intro e he
      exact ⟨hspell e (List.mem_of_mem_filter he), rfl⟩

/-- A name at the end of a joined path. -/
theorem join_concat {ss : List Str} (hne : ss ≠ []) (s : Str) :
    Str.join '/' (ss ++ [s]) = Str.join '/' ss ++ '/' :: s := by
  induction ss with
  | nil => exact absurd rfl hne
  | cons t ss ih =>
    cases ss with
    | nil => simp [Str.join, List.intercalate_cons_cons]
    | cons t' ss =>
      have ih := ih (List.cons_ne_nil _ _)
      unfold Str.join at ih ⊢
      rw [List.cons_append, List.cons_append, List.intercalate_cons_cons, ← List.cons_append, ih,
        List.intercalate_cons_cons]
      simp

/-- The plain spelling is one, unless it puts a wildcard or a scheme together. -/
theorem spells_spellIn {dir : Str} (hdir : Str.endsWith '/' dir = true) {w : List Name} (hw : w ≠ [])
    (hglob : hasGlobCharacter (spellIn dir w) = false)
    (hscheme : Str.splitOnce "://".toList (spellIn dir w) = none) :
    Spells dir (spellIn dir w) w := by
  obtain ⟨init, last, rfl⟩ : ∃ init last, w = init ++ [last] :=
    ⟨_, _, (List.dropLast_append_getLast hw).symm⟩
  by_cases hinit : init = []
  · subst hinit
    refine ⟨dir, [], last, rfl, ?_, .inr hdir, (Loc.descend_nil _).symm, hglob, hscheme⟩
    simp [spellIn, Str.join]
  · have hmap : init.map Subtype.val ≠ [] := fun hnil => hinit (List.map_eq_nil_iff.mp hnil)
    refine ⟨spellIn dir init ++ ['/'], init, last, rfl, ?_, .inr (by simp [Str.endsWith]), ?_, hglob,
      hscheme⟩
    · rw [spellIn, List.map_append, List.map_singleton, join_concat hmap, spellIn]
      simp
    · have hlast : dir.getLast? = some '/' := by simpa [Str.endsWith] using hdir
      obtain ⟨q, rfl⟩ := List.getLast?_eq_some_iff.mp hlast
      have hspell : spellIn (q ++ ['/']) init = q ++ '/' :: Str.join '/' (init.map Subtype.val) := by
        simp [spellIn]
      have hroot : Str.startsWith ['/'] (q ++ '/' :: Str.join '/' (init.map Subtype.val)) =
          Str.startsWith ['/'] (q ++ ['/']) := by
        cases q with
        | nil => simp [Str.startsWith]
        | cons c q => simp [Str.startsWith, List.cons_prefix_cons]
      have hsegs : segsOf (q ++ ['/']) = segsOf q := by
        rw [segsOf_append_slash, segsOf_nil, List.append_nil]
      rw [hspell, locOf_join_slash (by simp), locOf, hroot, segsOf_append_slash, segsOf_join_names,
        Loc.walk_append, Loc.walk_names, ← hsegs]
      rfl

/-- The names among the given strings. -/
def namesOf (ss : List String) : List Name :=
  ss.filterMap fun s => if h : IsName s.toList then some ⟨s.toList, h⟩ else none

/-- The directory holds the file `x` and the directory `s`, in which there is `f`. -/
def flatTree : DirTree where
  entries := [(namesOf ["x"], .file), (namesOf ["s"], .dir), (namesOf ["s", "f"], .file)]
  once := by decide
  kinds := by decide
  closed := by decide

/-- The directories `a` and `b` both hold a directory `s` with a file `f`. -/
def deepTree : DirTree where
  entries := [(namesOf ["a"], .dir), (namesOf ["b"], .dir), (namesOf ["a", "s"], .dir),
    (namesOf ["b", "s"], .dir), (namesOf ["a", "s", "f"], .file), (namesOf ["b", "s", "f"], .file)]
  once := by decide
  kinds := by decide
  closed := by decide

/-- `d/*` lists `x` and `s/f`. -/
theorem glob_listing_faithful_flat :
    (flatTree.fs "d/".toList [namesOf ["x"], namesOf ["s"]]).Holds "d/".toList (.ofString "d/*") true
        flatTree [namesOf ["x"], namesOf ["s"]] ∧
      FaithfulGlob "d/".toList flatTree [namesOf ["x"], namesOf ["s"]]
        (((flatTree.fs "d/".toList [namesOf ["x"], namesOf ["s"]]).list (.ofString "d/*") true).filter
          (·.err.isNone)) := by
  have hsrc : (Url.ofString "d/*").GlobIn "d/".toList := by
    refine ⟨⟨by decide +kernel, by decide +kernel⟩, by decide +kernel, .inr (by decide), "*".toList, ?_⟩
    exact ⟨by decide +kernel, by decide, by decide, by decide⟩
  have hspell : ∀ e ∈ flatTree.entries, Spells "d/".toList (spellIn "d/".toList e.1) e.1 := by
    have hcheck : ∀ e ∈ flatTree.entries, e.1 ≠ [] ∧
        hasGlobCharacter (spellIn "d/".toList e.1) = false ∧
        Str.splitOnce "://".toList (spellIn "d/".toList e.1) = none := by decide
    intro e he
    obtain ⟨hne, hglob, hscheme⟩ := hcheck e he
    exact spells_spellIn (by decide) hne hglob hscheme
  have hsub : ∀ v ∈ [namesOf ["x"], namesOf ["s"]], ∃ k, (v, k) ∈ flatTree.entries := by
    intro v hv
    have hmem : v ∈ flatTree.entries.map Prod.fst := by
      revert v
      decide
    obtain ⟨e, he, rfl⟩ := List.mem_map.mp hmem
    exact ⟨e.2, he⟩
  have hholds := flatTree.holds hspell hsub (by decide) (.ofString "d/*") true
  refine ⟨hholds, (glob_listing_faithful_iff _ _ _ _ _ _ hsrc hholds).mpr ?_⟩
  intro v hv w hw
  have hcheck : ∀ v ∈ [namesOf ["x"], namesOf ["s"]], ∀ e ∈ flatTree.entries, v <+: e.1 →
      cleanPath "d/".toList ≠ dot ∧
        (v ≠ e.1 → v.length = 1 ∧ e.1 ∉ [namesOf ["x"], namesOf ["s"]]) := by decide
  exact hcheck v hv _ hw

/-- `d/*/*` lists the files of `d/a/s` and of `d/b/s` both as `s/f`. -/
theorem glob_listing_collides :
    (deepTree.fs "d/".toList [namesOf ["a", "s"], namesOf ["b", "s"]]).Holds "d/".toList
        (.ofString "d/*/*") true deepTree [namesOf ["a", "s"], namesOf ["b", "s"]] ∧
      ¬ FaithfulGlob "d/".toList deepTree [namesOf ["a", "s"], namesOf ["b", "s"]]
        (((deepTree.fs "d/".toList [namesOf ["a", "s"], namesOf ["b", "s"]]).list
          (.ofString "d/*/*") true).filter (·.err.isNone)) := by
  refine ⟨?_, ?_⟩
  · refine deepTree.holds ?_ ?_ (by decide) _ _
    · have hcheck : ∀ e ∈ deepTree.entries, e.1 ≠ [] ∧
          hasGlobCharacter (spellIn "d/".toList e.1) = false ∧
          Str.splitOnce "://".toList (spellIn "d/".toList e.1) = none := by decide
      intro e he
      obtain ⟨hne, hglob, hscheme⟩ := hcheck e he
      exact spells_spellIn (by decide) hne hglob hscheme
    · intro v hv
      have hmem : v ∈ deepTree.entries.map Prod.fst := by
        revert v
        decide
      obtain ⟨e, he, rfl⟩ := List.mem_map.mp hmem
      exact ⟨e.2, he⟩
  · rintro ⟨ws, -, -, -, hapart⟩
    have hrel : ((((deepTree.fs "d/".toList [namesOf ["a", "s"], namesOf ["b", "s"]]).list
        (.ofString "d/*/*") true).filter (·.err.isNone)).map fun obj => obj.url.map Url.relative) =
          [some "s/f".toList, some "s/f".toList] := by
      decide +kernel
    rw [hrel] at hapart
    exact absurd hapart (by decide)

end Rs5cmd
