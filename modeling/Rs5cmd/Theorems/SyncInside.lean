import Rs5cmd.Theorems.RelPath
import Rs5cmd.Theorems.SyncPlan

/-!
# `sync --delete` stays inside its destination

The destination is listed through the URL `dst/*`, in which the wildcards of `dst`
count as wildcards. A destination that is spelled with one therefore has objects
deleted that lie beside it; a literal one has not.
-/

namespace Rs5cmd

open LexPath

/-- The place lies under the destination: the key starts with the destination's key
and a slash, the path leads into the destination directory. -/
def Place.Under (dst : Url) : Place → Prop
  | .remote bucket key => dst.isRemote = true ∧ bucket = dst.bucket ∧ listingKey dst <+: key
  | .loc path => dst.isRemote = false ∧ Inside (locOf (listingDir dst)) (locOf path)

/-! ## What the glob crate matches -/

/-- A pattern of plain wildcards: no character class, no `**`. -/
def PlainGlob (p : Str) : Prop := '[' ∉ p ∧ ¬ ['*', '*'] <:+: p

instance (p : Str) : Decidable (PlainGlob p) := inferInstanceAs (Decidable (_ ∧ _))

/-- A name matches one level of a pattern. -/
def GlobName (pattern name : Name) : Prop := matchToks (globToks pattern.val) name.val = true

/-- What the `glob` crate promises about plain wildcards: a path matches level by
level, and below a directory part with a wildcard every path that does is found
where it exists. Left out are the matches `.` and `..` of a level like `.*`, a wildcard
behind a leading dot. -/
structure GlobCrate.Matching (g : GlobCrate) : Prop where
  sound : ∀ p e, PlainGlob p → g.yields p e → Str.startsWith ['/'] e = Str.startsWith ['/'] p ∧
    List.Forall₂ (Seg.Rel GlobName) (segsOf p) (segsOf e)
  complete : ∀ dir segs, PlainGlob dir → hasGlobCharacter dir = true →
    Str.endsWith '/' dir = true →
    List.Forall₂ (Seg.Rel GlobName) (segsOf (dir ++ ['*'])) segs →
    ∃ e, g.yields (dir ++ ['*']) e ∧ Str.startsWith ['/'] e = Str.startsWith ['/'] (dir ++ ['*']) ∧
      segsOf e = segs ∧ Str.splitOnce "://".toList e = none

/-- A literal level matches itself alone. -/
theorem GlobName.eq_of_literal {pattern name : Name} (h : GlobName pattern name)
    (hlit : hasGlobCharacter pattern.val = false) : name = pattern := by
  have htoks : globToks pattern.val = pattern.val.map .lit ++ [] := by
    rw [Url.globToks_literal hlit, List.append_nil]
  rw [GlobName, htoks, matchToks_lits] at h
  obtain ⟨t, ht, hnil⟩ := h
  obtain rfl : t = [] := List.isEmpty_iff.mp hnil
  exact Subtype.ext (by rw [ht, List.append_nil])

/-! ## Filling in the wildcards -/

/-- An `x` for every wildcard. -/
def fillIn (s : Str) : Str := s.map fun c => if isGlobChar c then 'x' else c

theorem matchToks_fillIn (s : Str) : matchToks (globToks s) (fillIn s) = true := by
  induction s with
  | nil => rfl
  | cons c s ih =>
    have hfill : fillIn (c :: s) = (if isGlobChar c then 'x' else c) :: fillIn s := rfl
    have htoks : globToks (c :: s) = globTok c :: globToks s := rfl
    rw [hfill, htoks, globTok]
    by_cases hq : c = '?'
    · simp [hq, matchToks, ih]
    · by_cases hs : c = '*'
      · simp only [hs, if_neg (show ('*' : Char) ≠ '?' by decide), if_true]
        rw [matchToks_many]
        exact ⟨['x'], fillIn s, rfl, ih⟩
      · have hno : isGlobChar c = false := by simp [isGlobChar, hq, hs]
        simp [hq, hs, hno, matchToks, ih]

theorem fillIn_ne {s : Str} (h : hasGlobCharacter s = true) : fillIn s ≠ s := by
  intro heq
  obtain ⟨c, hc, hglob⟩ := List.any_eq_true.mp h
  have hx : (if isGlobChar c then 'x' else c) = c := by
    have hmap : s.map (fun c => if isGlobChar c then 'x' else c) = s.map id := by
      rw [List.map_id]
      exact heq
    exact List.map_inj_left.mp hmap c hc
  rw [if_pos hglob] at hx
  rw [← hx] at hglob
  exact absurd hglob (by decide)

theorem isName_fillIn {s : Str} (h : IsName s) : IsName (fillIn s) := by
  cases hglob : hasGlobCharacter s with
  | false =>
    have hsame : fillIn s = s := by
      have hid : s.map (fun c => if isGlobChar c then 'x' else c) = s.map id := by
        apply List.map_congr_left
        intro c hc
        have hno := List.any_eq_false.mp hglob c hc
        rw [if_neg hno, id]
      rw [fillIn, hid, List.map_id]
    rw [hsame]
    exact h
  | true =>
    -- an `x` stands in it
    obtain ⟨c, hc, hc'⟩ := List.any_eq_true.mp hglob
    have hx : 'x' ∈ fillIn s := List.mem_map.mpr ⟨c, hc, if_pos hc'⟩
    refine ⟨?_, ?_, ?_, ?_⟩
    · intro hnil
      rw [hnil] at hx
      cases hx
    · intro hdot
      rw [hdot] at hx
      exact absurd hx (by decide)
    · intro hdots
      rw [hdots] at hx
      exact absurd hx (by decide)
    · intro hslash
      obtain ⟨d, hd, hd'⟩ := List.mem_map.mp hslash
      split at hd'
      · exact absurd hd' (by decide)
      · rw [hd'] at hd
        exact h.2.2.2 hd

/-- The name with its wildcards filled in. -/
def fillName (n : Name) : Name := ⟨fillIn n.val, isName_fillIn n.property⟩

/-- The segment with its wildcards filled in. -/
def fillSeg : Seg Name → Seg Name
  | .name n => .name (fillName n)
  | .up => .up

theorem rel_fillSeg {R : Name → Name → Prop} (hR : ∀ n, R n (fillName n)) (s : List (Seg Name)) :
    List.Forall₂ (Seg.Rel R) s (s.map fillSeg) := by
  induction s with
  | nil => exact .nil
  | cons seg s ih =>
    refine .cons ?_ ih
    cases seg with
    | name n => exact .name (hR n)
    | up => exact .up

/-! ## Plain patterns -/

/-- The name `*` of the last level. -/
def star : Name := ⟨['*'], by decide⟩

theorem segsOf_star {dir : Str} (h : Str.endsWith '/' dir = true) :
    segsOf (dir ++ ['*']) = segsOf dir ++ [.name star] := by
  have hlast : dir.getLast? = some '/' := by simpa [Str.endsWith] using h
  obtain ⟨q, rfl⟩ := List.getLast?_eq_some_iff.mp hlast
  have hstar : segsOf ['*'] = [.name star] := by decide
  have hdir : segsOf (q ++ ['/']) = segsOf q := by
    rw [segsOf_append_slash, segsOf_nil, List.append_nil]
  rw [hdir, List.append_assoc, List.singleton_append, segsOf_append_slash, hstar]

theorem startsWith_star {dir : Str} (h : Str.endsWith '/' dir = true) :
    Str.startsWith ['/'] (dir ++ ['*']) = Str.startsWith ['/'] dir := by
  cases dir with
  | nil => cases h
  | cons c dir => simp [Str.startsWith, List.cons_prefix_cons]

/-- What matches `dir/*` level by level leads to an entry of a directory on the
level of `dir`, with matching names. -/
theorem loc_of_matching {dir e : Str} (hend : Str.endsWith '/' dir = true)
    (hroot : Str.startsWith ['/'] e = Str.startsWith ['/'] (dir ++ ['*']))
    (hsegs : List.Forall₂ (Seg.Rel GlobName) (segsOf (dir ++ ['*'])) (segsOf e)) :
    ∃ l m, Loc.Rel GlobName (locOf dir) l ∧ locOf e = l.descend [m] := by
  rw [segsOf_star hend] at hsegs
  have hfront := List.forall₂_take (segsOf dir).length hsegs
  have hlast := List.forall₂_drop (segsOf dir).length hsegs
  rw [List.take_left] at hfront
  rw [List.drop_left] at hlast
  obtain ⟨t, rest, hstar, hnil, hdrop⟩ := List.forall₂_cons_left_iff.mp hlast
  obtain rfl := List.forall₂_nil_left_iff.mp hnil
  cases hstar with
  | name =>
    rename_i m _
    refine ⟨(Loc.start (Str.startsWith ['/'] dir)).walk ((segsOf e).take (segsOf dir).length), m,
      (Loc.Rel.start _).walk hfront, ?_⟩
    have hsplit := List.take_append_drop (segsOf dir).length (segsOf e)
    rw [hdrop] at hsplit
    rw [locOf, hroot, startsWith_star hend]
    conv_lhs => rw [← hsplit]
    rw [Loc.walk_append]
    rfl

/-- Literal names are matched by themselves alone. -/
theorem names_eq_of_literal {ns ms : List Name} (h : List.Forall₂ GlobName ns ms)
    (hlit : ∀ n ∈ ns, hasGlobCharacter n.val = false) : ms = ns := by
  induction h with
  | nil => rfl
  | cons hhead _ ih =>
    rw [hhead.eq_of_literal (hlit _ List.mem_cons_self),
      ih fun n hn => hlit n (List.mem_cons_of_mem _ hn)]

/-- Every path the listing of a local destination can come by lies inside it. -/
def YieldsInside (g : GlobCrate) (dst : Url) : Prop :=
  ∀ e, g.yields (listingPath dst) e →
    Str.startsWith ['/'] e = Str.startsWith ['/'] (listingPath dst) →
    Str.splitOnce "://".toList e = none → Inside (locOf (listingDir dst)) (locOf e)

/-- The destination leads along names without wildcards. -/
def LiteralLevels (dst : Url) : Prop := ∀ n ∈ (locOf dst.path).names, hasGlobCharacter n.val = false

theorem names_listingDir (dst : Url) : (locOf (listingDir dst)).names = (locOf dst.path).names := by
  unfold listingDir
  split
  · rfl
  · by_cases hnil : dst.path = []
    · rw [hnil]
      decide
    · rw [locOf_join_slash hnil]

/-- A character that does not double the last one keeps a pattern plain. -/
theorem PlainGlob.concat {p : Str} (h : PlainGlob p) {c : Char} (hc : c ≠ '[')
    (hlast : c = '*' → Str.endsWith '*' p = false) : PlainGlob (p ++ [c]) := by
  refine ⟨?_, ?_⟩
  · intro hmem
    rcases List.mem_append.mp hmem with hmem | hmem
    · exact h.1 hmem
    · exact hc (List.mem_singleton.mp hmem).symm
  · rw [List.infix_concat_iff]
    rintro (⟨q, hq⟩ | hinfix)
    · have hends : q ++ ['*'] = p ∧ '*' = c := by
        have : (q ++ ['*']) ++ ['*'] = p ++ [c] := by simpa using hq
        exact List.append_singleton_inj.mp this
      have hno := hlast hends.2.symm
      rw [← hends.1] at hno
      simp [Str.endsWith] at hno
    · exact h.2 hinfix

theorem plainGlob_listingDir {dst : Url} (h : PlainGlob dst.path) :
    PlainGlob (listingDir dst) ∧ PlainGlob (listingDir dst ++ ['*']) := by
  have hdir : PlainGlob (listingDir dst) := by
    unfold listingDir
    split
    · exact h
    · exact h.concat (by decide) fun hc => absurd hc (by decide)
  refine ⟨hdir, hdir.concat (by decide) fun _ => ?_⟩
  have hslash := listingDir_slash dst
  simp only [Str.endsWith, beq_iff_eq] at hslash
  simp [Str.endsWith, hslash]

/-- A name of the location is a level of the path, and its wildcards are the path's. -/
theorem hasGlobCharacter_of_name {p : Str} {n : Name} (hn : n ∈ (locOf p).names)
    (hglob : hasGlobCharacter n.val = true) : hasGlobCharacter p = true := by
  rcases Loc.mem_names_walk hn with hstart | hseg
  · cases hstart
  · obtain ⟨s, hs, htoSeg⟩ := List.mem_filterMap.mp hseg
    have hval : s = n.val := by
      unfold toSeg at htoSeg
      split at htoSeg
      · rw [← Seg.name.inj (Option.some.inj htoSeg)]
      · split at htoSeg <;> cases htoSeg
    obtain ⟨c, hc, hc'⟩ := List.any_eq_true.mp hglob
    exact List.any_eq_true.mpr ⟨c, (of_mem_split hs).2 (hval ▸ hc), hc'⟩

/-- **Plain destinations**: what matches lies inside iff no level has a wildcard. -/
theorem yieldsInside_plain_iff {g : GlobCrate} (hg : g.Matching) {dst : Url}
    (hloc : dst.isRemote = false) (hplain : PlainGlob dst.path) :
    YieldsInside g dst ↔ LiteralLevels dst := by
  have hend := listingDir_slash dst
  obtain ⟨hpdir, hppat⟩ := plainGlob_listingDir hplain
  unfold YieldsInside LiteralLevels
  rw [listingPath_local hloc, ← names_listingDir]
  constructor
  · intro h n hn
    by_contra hglob
    have hglob' : hasGlobCharacter n.val = true := by simpa using hglob
    obtain ⟨e, hy, hroot, hsegs, hscheme⟩ := hg.complete (listingDir dst)
      ((segsOf (listingDir dst ++ ['*'])).map fillSeg) hpdir (hasGlobCharacter_of_name hn hglob') hend
      (rel_fillSeg (fun n => matchToks_fillIn n.val) _)
    obtain ⟨-, -, hpre⟩ := h e hy hroot hscheme
    -- the names of the match are those of the destination, filled in
    have hrel : Loc.Rel (fun a b => fillName a = b) (locOf (listingDir dst ++ ['*'])) (locOf e) := by
      rw [locOf, locOf, hroot, hsegs]
      exact (Loc.Rel.start _).walk (rel_fillSeg (fun _ => rfl) _)
    have hnames : (locOf e).names = ((locOf (listingDir dst)).names ++ [star]).map fillName := by
      have hstar : (locOf (listingDir dst ++ ['*'])).names = (locOf (listingDir dst)).names ++ [star] := by
        rw [locOf, startsWith_star hend, segsOf_star hend, Loc.walk_append]
        rfl
      rw [← hstar]
      exact (List.forall₂_eq_eq_eq ▸ List.forall₂_map_left_iff.mpr hrel.names).symm
    rw [hnames, List.map_append] at hpre
    have hsame : (locOf (listingDir dst)).names = (locOf (listingDir dst)).names.map fillName :=
      List.prefix_of_prefix_length_le hpre (List.prefix_append _ _) (by simp) |>.eq_of_length (by simp)
    have hn' : fillName n = n := by
      have hid : (locOf (listingDir dst)).names.map fillName =
          (locOf (listingDir dst)).names.map id := by rw [List.map_id, ← hsame]
      exact List.map_inj_left.mp hid n hn
    exact fillIn_ne hglob' (congrArg Subtype.val hn')
  · intro hlit e hy hroot _
    obtain ⟨-, hsegs⟩ := hg.sound _ e hppat hy
    obtain ⟨l, m, hrel, hloc'⟩ := loc_of_matching hend hroot hsegs
    have hl : l = locOf (listingDir dst) :=
      Loc.ext hrel.rooted.symm hrel.ups.symm (names_eq_of_literal hrel.names hlit)
    rw [hloc', hl]
    exact inside_iff_descend.mpr ⟨[m], rfl⟩

/-! ## Plans -/

/-- Whatever the source, the options and the content of the destination: everything
a plan deletes lies under the destination. -/
def DeletesInside (g : GlobCrate) (dst : Url) : Prop :=
  ∀ (bs bd : Backend) (src : Url) (args : SyncArgs) (filters : Filters) (plan : SyncPlan),
    bd.fs.Conforms g → bd.fs.Lexical → syncGroups bs bd src dst args filters = .ok plan →
    ∀ u ∈ plan.toDelete, u.place.Under dst

/-- What is deleted was listed at the destination. -/
theorem listed_of_toDelete {bs bd : Backend} {src dst : Url} {args : SyncArgs} {filters : Filters}
    {plan : SyncPlan} (h : syncGroups bs bd src dst args filters = .ok plan) {u : Url}
    (hu : u ∈ plan.toDelete) :
    ∃ lu client obj, Url.parse (listingPath dst) = .ok lu ∧ bd.newClient lu = .ok client ∧
      obj ∈ client.list lu false ∧ obj.err = none ∧ obj.url = some u := by
  obtain ⟨isBatch, source, dest, -, hs, hd, rfl⟩ := syncGroups_ok h
  cases hdel : args.delete with
  | false =>
    rw [hdel] at hu
    exact absurd hu List.not_mem_nil
  | true =>
    rw [hdel, mem_toDelete (collectSourceObjects_keyed hs).hasUrls] at hu
    obtain ⟨k, obj, hk, hurl, -⟩ := hu
    unfold collectDestObjects at hd
    split at hd
    · obtain rfl := Except.ok.inj hd
      simp at hk
    · rename_i lu hparse
      split at hd
      · obtain rfl := Except.ok.inj hd
        simp at hk
      · rename_i client hclient
        rcases collectDestListed_ok hd hk with hnone | ⟨hmem, herr, -⟩
        · simp at hnone
        · exact ⟨lu, client, obj, hparse, hclient, hmem, herr, hurl⟩

/-- A source without files. -/
def emptySource : Backend := ⟨fun _ => .error .noObjectFound, .emptySubdir⟩

/-- Everything is deleted when the source is empty. -/
def mirrorNothing : SyncArgs := { delete := true, followSymlinks := false }

theorem collect_emptySource :
    isSourceBatch emptySource (.ofString "*") = .ok true ∧
      collectSourceObjects emptySource (.ofString "*") mirrorNothing true noFilters = .ok ∅ := by
  refine ⟨by decide +kernel, ?_⟩
  have hclient : emptySource.newClient (.ofString "*") = .ok (.loc .emptySubdir) := by
    rw [Backend.newClient, if_neg (by decide +kernel)]
    rfl
  have hlist : LocalFs.emptySubdir.list (.ofString "*") false = [] :=
    LocalFs.list_emptySubdir (by decide +kernel)
  rw [collectSourceObjects, hclient]
  show collectListed emptySource.fs (.ofString "*") noFilters false false
    (LocalFs.emptySubdir.list (.ofString "*") false) ∅ = .ok ∅
  rw [hlist]
  rfl

/-- A destination that holds one object has it deleted. -/
theorem DeletesInside.place {g : GlobCrate} {dst : Url} (h : DeletesInside g dst) {bd : Backend}
    (hconf : bd.fs.Conforms g) (hlex : bd.fs.Lexical) {k : Str} {obj : Object} {u : Url}
    (hu : obj.url = some u)
    (hdest : collectDestObjects bd dst noFilters = .ok ((∅ : ObjectMap).insert k obj)) :
    u.place.Under dst := by
  obtain ⟨hbatch, hsource⟩ := collect_emptySource
  obtain ⟨plan, hgroups, -, hmem⟩ := deletion_of_collected hbatch hsource rfl hu hdest (by simp)
  exact h _ bd _ _ _ plan hconf hlex hgroups u hmem

/-! ## Local destinations -/

theorem LocalFs.lexical_oneMatch {pattern p : Str}
    (hroot : Str.startsWith ['/'] p = Str.startsWith ['/'] pattern)
    (hscheme : Str.splitOnce "://".toList p = none) : (LocalFs.oneMatch pattern p).Lexical where
  walk := by
    intro root follow entry h
    cases h
  glob := by
    intro pat found e hfound he
    obtain rfl := Except.ok.inj hfound
    split at he
    · rename_i hpat
      obtain rfl := Except.ok.inj (List.mem_singleton.mp he)
      rw [hpat]
      exact ⟨hroot, fun _ => hscheme⟩
    · cases he

theorem LocalFs.lexical_empty : LocalFs.empty.Lexical where
  walk := by
    intro root follow entry h
    cases h
  glob := by
    intro pat found e hfound he
    obtain rfl := Except.ok.inj hfound
    cases he

/-- The listing of a local destination is local. -/
theorem parse_listing_local {raw : Str} {dst : Url} (h : Url.parse raw = .ok dst)
    (hloc : dst.isRemote = false) :
    ∃ lu, Url.parse (listingPath dst) = .ok lu ∧ lu.IsLocal ∧ lu.path = listingPath dst := by
  have hno : ¬ "://".toList <:+: dst.path := by
    rcases Url.new_eq_ok rfl h with ⟨hnone, rfl⟩ | ⟨_, _, _, -, -, -, -, rfl⟩
    · exact (Str.splitOnce_eq_none (by decide)).mp hnone
    · exact absurd (show true = false from hloc) (by decide)
  -- a slash after the path does not put a separator together: the path would end in one
  have hdir : ¬ "://".toList <:+: listingDir dst := by
    unfold listingDir
    split
    · exact hno
    · rename_i hend
      rw [List.infix_concat_iff]
      rintro (⟨q, hq⟩ | hinfix)
      · have hpath : q ++ ":/".toList = dst.path := by
          have : (q ++ ":/".toList) ++ ['/'] = dst.path ++ ['/'] := by simpa using hq
          exact (List.append_singleton_inj.mp this).1
        exact hend (by simp [← hpath, Str.endsWith])
      · exact hno hinfix
  have hnone : Str.splitOnce "://".toList (listingPath dst) = none := by
    rw [Str.splitOnce_eq_none (by decide), listingPath_local hloc, List.infix_concat_iff]
    rintro (⟨q, hq⟩ | hinfix)
    · have : (q ++ ":/".toList) ++ ['/'] = listingDir dst ++ ['*'] := by simpa using hq
      exact absurd (List.append_singleton_inj.mp this).2 (by decide)
    · exact hdir hinfix
  have hnew : Url.parse (listingPath dst) = .ok (Url.parsed .loc [] [] (listingPath dst) {}) := by
    rw [Url.parse, Url.new, hnone]
    exact Url.setPrefixAndFilter_blank _ _ _ _ rfl
  exact ⟨_, hnew, ⟨rfl, hnone⟩, rfl⟩

/-- A file found under a local destination lies inside it, if every match does. -/
theorem inside_of_found {g : GlobCrate} {fs : LocalFs} {dst lu : Url} (hloc : dst.isRemote = false)
    (hyields : YieldsInside g dst) (hconf : fs.Conforms g) (hlex : fs.Lexical)
    (hlocal : lu.IsLocal) (hpath : lu.path = listingPath dst) (hwild : lu.isWildcard = true) {follow : Bool}
    {base file : Url} (hfound : fs.Found lu follow base file) : file.place.Under dst := by
  have habs : lu.absolute = listingPath dst := hlocal.absolute_eq.trans hpath
  -- of a match, and of a walk that starts at one
  have hmatch : ∀ {found : List (Except Str Str)} {e : Str}, fs.glob lu.absolute = .ok found →
      .ok e ∈ found → Str.splitOnce "://".toList e = none ∧
        Inside (locOf (listingDir dst)) (locOf e) := by
    intro found e hglob he
    obtain ⟨hroot, hscheme⟩ := hlex.glob _ _ _ hglob he
    have hno := hscheme (habs ▸ hpath ▸ hlocal.noScheme)
    exact ⟨hno, hyields e (habs ▸ hconf.glob _ _ _ hglob he) (habs ▸ hroot) hno⟩
  have hinside : Inside (locOf (listingDir dst)) (locOf file.path) := by
    cases hfound with
    | walked hno => exact absurd hwild (by rw [hno]; simp)
    | matched _ hglob he hnew =>
      obtain ⟨hno, hin⟩ := hmatch hglob he
      rw [(Url.isLocal_of_new hno hnew).2]
      exact hin
    | below _ hglob he hdir hentry hnew =>
      obtain ⟨hno, hin⟩ := hmatch hglob he
      obtain ⟨hdl, hdp⟩ := Url.isLocal_of_new hno hdir
      obtain ⟨hbelow, hscheme⟩ := hlex.walk _ _ _ hentry
      rw [hdl.absolute_eq] at hbelow hscheme
      rw [(Url.isLocal_of_new (hscheme hdl.noScheme) hnew).2]
      rw [hdp] at hbelow
      obtain ⟨w, hw⟩ := inside_iff_descend.mp hin
      obtain ⟨w', hw'⟩ := inside_iff_descend.mp hbelow
      exact inside_iff_descend.mpr ⟨w ++ w', by rw [hw', hw, Loc.descend_descend]⟩
  have hfile : file.isRemote = false := by
    simp [Url.isRemote, (hfound.isLocal hlex hlocal).2.1.kind]
  have hplace : file.place = .loc (cleanPath file.path) := by
    rw [Url.place, hfile]
    rfl
  rw [hplace]
  exact ⟨hloc, by rw [locOf_cleanPath]; exact hinside⟩

theorem deletesInside_local_iff {g : GlobCrate} {raw : Str} {dst : Url}
    (h : Url.parse raw = .ok dst) (hloc : dst.isRemote = false) :
    DeletesInside g dst ↔ YieldsInside g dst := by
  obtain ⟨lu, hparse, hlocal, hpath⟩ := parse_listing_local h hloc
  have hrem : lu.isRemote = false := by simp [Url.isRemote, hlocal.kind]
  have hwild := listing_isWildcard hparse hrem
  have habs : lu.absolute = listingPath dst := hlocal.absolute_eq.trans hpath
  constructor
  · intro hdel e hy hroot hscheme
    have hnew : Url.new e {} = .ok (Url.parsed .loc [] [] e {}) := by
      rw [Url.new, hscheme]
      exact Url.setPrefixAndFilter_blank _ _ _ _ rfl
    have hskip : noFilters.shouldSkip (relPath lu.baseDir (Url.parsed .loc [] [] e {}).absolute) =
        false := rfl
    obtain ⟨obj, u, hu, hplace, hdest⟩ := collectDestObjects_oneMatch hparse hrem hnew hskip
    have hunder := hdel.place (LocalFs.oneMatch_conforms (habs ▸ hy))
      (LocalFs.lexical_oneMatch (habs ▸ hroot) hscheme) hu hdest
    rw [hplace] at hunder
    have hinside : Inside (locOf (listingDir dst)) (locOf (cleanPath e)) := hunder.2
    rwa [locOf_cleanPath] at hinside
  · intro hyields bs bd src args filters plan hconf hlex hgroups u hu
    obtain ⟨lu', client, obj, hparse', hclient, hmem, herr, hurl⟩ := listed_of_toDelete hgroups hu
    obtain rfl : lu = lu' := Except.ok.inj (hparse.symm.trans hparse')
    have hcl : client = .loc bd.fs := by
      rw [Backend.newClient, if_neg (by rw [hrem]; simp)] at hclient
      exact (Except.ok.inj hclient).symm
    subst hcl
    obtain ⟨base, file, hfound, hfile⟩ := LocalFs.found_of_mem_list (.inl hwild) hmem herr
    obtain rfl : u = file.setRelative base := Option.some.inj (hurl.symm.trans hfile)
    rw [place_setRelative]
    exact inside_of_found hloc hyields hconf hlex hlocal hpath hwild hfound

/-! ## Remote destinations -/

theorem hasGlobCharacter_listingKey (dst : Url) :
    hasGlobCharacter (listingKey dst) = hasGlobCharacter dst.path := by
  unfold listingKey
  split
  · rename_i hnil
    rw [hnil]
  · split
    · rfl
    · simp [hasGlobCharacter, isGlobChar]

theorem deletesInside_remote_iff {g : GlobCrate} {raw : Str} {dst : Url}
    (h : Url.parse raw = .ok dst) (hrem : dst.isRemote = true) :
    DeletesInside g dst ↔ hasGlobCharacter dst.path = false := by
  have hparse := parse_listing_remote h hrem
  rw [← hasGlobCharacter_listingKey]
  constructor
  · intro hdel
    by_contra hglob
    have hglob' : hasGlobCharacter (listingKey dst) = true := by simpa using hglob
    -- the key with every wildcard filled in matches, but does not start with the destination
    have hmatch : (Url.parsed .remote "s3".toList dst.bucket (listingKey dst ++ ['*']) {}).isMatch
        (fillIn (listingKey dst ++ ['*'])) = true := by
      have hwild : hasGlobCharacter (listingKey dst ++ ['*']) = true := by
        simp [hasGlobCharacter, isGlobChar]
      show matchToks (Url.filterToks (listingKey dst ++ ['*'])) _ = true
      rw [Url.filterToks_glob hwild]
      exact matchToks_fillIn _
    obtain ⟨obj, u, hu, hplace, hdest⟩ := collectDestObjects_oneKey hparse rfl hmatch
      (show noFilters.shouldSkip _ = false from rfl)
    have hunder := hdel.place (LocalFs.empty_conforms g) LocalFs.lexical_empty hu hdest
    rw [hplace] at hunder
    obtain ⟨-, -, hpre⟩ := hunder
    have hfill : fillIn (listingKey dst ++ ['*']) = fillIn (listingKey dst) ++ fillIn ['*'] :=
      List.map_append
    rw [hfill] at hpre
    have hsame := List.prefix_of_prefix_length_le hpre (List.prefix_append _ _)
      (by simp [fillIn]) |>.eq_of_length (by simp [fillIn])
    exact fillIn_ne hglob' hsame.symm
  · intro hlit bs bd src args filters plan _ _ hgroups u hu
    obtain ⟨lu, client, obj, hparse', hclient, hmem, herr, hurl⟩ := listed_of_toDelete hgroups hu
    obtain rfl := Except.ok.inj (hparse.symm.trans hparse')
    have hlrem : (Url.parsed .remote "s3".toList dst.bucket (listingKey dst ++ ['*']) {}).isRemote =
        true := rfl
    rw [Backend.newClient, if_pos hlrem] at hclient
    cases hs3 : bd.newS3 (Url.parsed .remote "s3".toList dst.bucket (listingKey dst ++ ['*']) {}) with
    | error e =>
      rw [hs3] at hclient
      cases hclient
    | ok s3 =>
      rw [hs3] at hclient
      obtain rfl := Except.ok.inj hclient
      obtain ⟨key, hplace, hmatch, -⟩ := remoteKey_place hlrem hmem herr hurl
      rw [hplace]
      obtain ⟨t, ht⟩ := (Url.isMatch_listing hlit rfl key).mp hmatch
      exact ⟨hrem, rfl, t, ht.symm⟩

/-- The condition on the destination: a remote one has no wildcard; a local one has
none on any level that it leads along, or, if it holds a character class or `**`,
the glob crate comes by nothing outside. -/
def ListsInside (g : GlobCrate) (dst : Url) : Prop :=
  if dst.isRemote then hasGlobCharacter dst.path = false
  else if PlainGlob dst.path then LiteralLevels dst
  else YieldsInside g dst

theorem listsInside_local_iff {g : GlobCrate} (hg : g.Matching) {dst : Url}
    (hloc : dst.isRemote = false) : ListsInside g dst ↔ YieldsInside g dst := by
  rw [ListsInside, if_neg (by simp [hloc])]
  split
  · rename_i hplain
    exact (yieldsInside_plain_iff hg hloc hplain).symm
  · exact Iff.rfl

/-- **Deletions inside the destination, exactly.** -/
theorem sync_deletes_inside_iff (g : GlobCrate) (hg : g.Matching) (raw : Str) (dst : Url)
    (h : Url.parse raw = .ok dst) : DeletesInside g dst ↔ ListsInside g dst := by
  cases hrem : dst.isRemote with
  | true =>
    rw [ListsInside, if_pos hrem]
    exact deletesInside_remote_iff h hrem
  | false =>
    rw [listsInside_local_iff hg hrem]
    exact deletesInside_local_iff h hrem

/-! ## A crate that keeps the promise -/

/-- The text of a segment. -/
def segText : Seg Name → Str
  | .name n => n.val
  | .up => dotdot

/-- A path spelled segment by segment. -/
def spellSegs (rooted : Bool) (segs : List (Seg Name)) : Str :=
  (if rooted then ['/'] else []) ++ Str.join '/' (segs.map segText)

theorem segText_props (seg : Seg Name) :
    segText seg ≠ [] ∧ '/' ∉ segText seg ∧ toSeg (segText seg) = some seg := by
  cases seg with
  | name n => exact ⟨n.property.1, n.property.2.2.2, toSeg_name n⟩
  | up => exact ⟨by decide, by decide, toSeg_dotdot⟩

theorem split_spellSegs {segs : List (Seg Name)} (hne : segs ≠ []) :
    Str.split '/' (Str.join '/' (segs.map segText)) = segs.map segText := by
  refine split_join ?_ (by simpa using hne)
  intro s hs
  obtain ⟨seg, -, rfl⟩ := List.mem_map.mp hs
  exact (segText_props seg).2.1

theorem segsOf_spellSegs (rooted : Bool) {segs : List (Seg Name)} (hne : segs ≠ []) :
    segsOf (spellSegs rooted segs) = segs := by
  have hjoin : segsOf (Str.join '/' (segs.map segText)) = segs := by
    rw [segsOf, split_spellSegs hne, List.filterMap_map]
    have hsome : toSeg ∘ segText = some := funext fun seg => (segText_props seg).2.2
    rw [hsome, List.filterMap_some]
  cases rooted with
  | false => exact hjoin
  | true =>
    have := segsOf_append_slash [] (Str.join '/' (segs.map segText))
    rw [segsOf_nil, hjoin] at this
    exact this

theorem not_infix_spellSegs (rooted : Bool) {segs : List (Seg Name)} (hne : segs ≠ []) :
    ¬ "://".toList <:+: spellSegs rooted segs := by
  have hjoin : ¬ "://".toList <:+: Str.join '/' (segs.map segText) := by
    rintro ⟨a, b, hab⟩
    -- the two slashes would leave an empty segment
    have hsplit := split_spellSegs hne
    have hshape : Str.join '/' (segs.map segText) = (a ++ [':']) ++ '/' :: ('/' :: b) := by
      rw [← hab]
      simp
    have hempty : Str.split '/' ('/' :: b) = [] :: Str.split '/' b := split_append_slash [] b
    rw [hshape, split_append_slash, hempty] at hsplit
    have hmem : ([] : Str) ∈ segs.map segText := by
      rw [← hsplit]
      simp
    obtain ⟨seg, -, hseg⟩ := List.mem_map.mp hmem
    exact (segText_props seg).1 hseg
  cases rooted with
  | false => exact hjoin
  | true =>
    show ¬ "://".toList <:+: '/' :: Str.join '/' (segs.map segText)
    rw [List.infix_cons_iff]
    rintro (hpre | hinfix)
    · exact absurd (List.cons_prefix_cons.mp hpre).1 (by decide)
    · exact hjoin hinfix

theorem startsWith_spellSegs (rooted : Bool) {segs : List (Seg Name)} (hne : segs ≠ []) :
    Str.startsWith ['/'] (spellSegs rooted segs) = rooted := by
  cases rooted with
  | true => simp [spellSegs, Str.startsWith]
  | false =>
    cases hstart : Str.startsWith ['/'] (spellSegs false segs) with
    | false => rfl
    | true =>
      obtain ⟨q, hq⟩ := (startsWith_slash_iff _).mp hstart
      have hsplit := split_spellSegs hne
      have hjoin : Str.join '/' (segs.map segText) = [] ++ '/' :: q := hq
      rw [hjoin, split_append_slash] at hsplit
      have hmem : ([] : Str) ∈ segs.map segText := by
        rw [← hsplit]
        exact List.mem_append_left _ (by decide)
      obtain ⟨seg, -, hseg⟩ := List.mem_map.mp hmem
      exact absurd hseg (segText_props seg).1

/-- The crate that comes by whatever matches a plain pattern level by level. -/
def GlobCrate.levels : GlobCrate where
  yields p e := GlobCrate.any.yields p e ∧ (PlainGlob p →
    Str.startsWith ['/'] e = Str.startsWith ['/'] p ∧
      List.Forall₂ (Seg.Rel GlobName) (segsOf p) (segsOf e))
  literal dir e hlit hslash h := GlobCrate.any.literal dir e hlit hslash h.1

theorem GlobCrate.matching_levels : GlobCrate.levels.Matching where
  sound := by
    intro p e hplain h
    exact h.2 hplain
  complete := by
    intro dir segs _ hglob hend hsegs
    have hne : segs ≠ [] := by
      rintro rfl
      rw [segsOf_star hend] at hsegs
      have := hsegs.length_eq
      simp at this
    refine ⟨spellSegs (Str.startsWith ['/'] (dir ++ ['*'])) segs, ⟨?_, fun _ => ⟨?_, ?_⟩⟩, ?_, ?_, ?_⟩
    · -- nothing is promised where the directory part has a wildcard
      intro dir' hlit _ hdir
      obtain rfl : dir = dir' := (List.append_singleton_inj.mp hdir).1
      rw [hasGlob_of_meta hlit] at hglob
      cases hglob
    · exact startsWith_spellSegs _ hne
    · rw [segsOf_spellSegs _ hne]
      exact hsegs
    · exact startsWith_spellSegs _ hne
    · exact segsOf_spellSegs _ hne
    · exact (Str.splitOnce_eq_none (by decide)).mpr (not_infix_spellSegs _ hne)

/-- Below the directory `d` nothing else is deleted. -/
theorem sync_deletes_inside_directory :
    Url.parse "d".toList = .ok (.ofString "d") ∧ DeletesInside .levels (.ofString "d") := by
  have hparse : Url.parse "d".toList = .ok (.ofString "d") := by decide +kernel
  refine ⟨hparse, (sync_deletes_inside_iff _ GlobCrate.matching_levels _ _ hparse).mpr ?_⟩
  have hpath : (Url.ofString "d").path = "d".toList := by decide +kernel
  unfold ListsInside
  rw [if_neg (by decide +kernel), if_pos (by rw [hpath]; decide)]
  intro n hn
  rw [hpath] at hn
  have hnames : (locOf "d".toList).names = [⟨"d".toList, by decide⟩] := by decide
  rw [hnames] at hn
  rw [List.mem_singleton.mp hn]
  decide

/-- With the destination `s3://b/a*` the object `ax/k` is deleted, which lies beside
the destination. -/
theorem sync_deletes_beside :
    Url.parse "s3://b/a*".toList = .ok (.ofString "s3://b/a*") ∧
      LocalFs.empty.Conforms .levels ∧ LocalFs.empty.Lexical ∧
      (∃ u ∈ (okD (syncGroups emptySource (.ofKeys ["ax/k"]) (.ofString "*") (.ofString "s3://b/a*")
        mirrorNothing noFilters) ⟨[], []⟩).toDelete, u.place = .remote "b".toList "ax/k".toList) ∧
      ¬ (Place.remote "b".toList "ax/k".toList).Under (.ofString "s3://b/a*") := by
  refine ⟨by decide +kernel, LocalFs.empty_conforms _, LocalFs.lexical_empty, by decide +kernel, ?_⟩
  rintro ⟨-, -, hpre⟩
  exact absurd hpre (by decide +kernel)

end Rs5cmd
