import Rs5cmd.Command.SyncSpec

/-!
# Containment of local destinations

Where the local path computed for an object lies relative to the destination
directory. A path is contained when it is the directory joined with a relative
path that has no `..` segment. The object's name decides that exactly: read
lexically it climbs some levels and then goes down, and it stays under the
directory iff the way down retraces what was climbed (`contained_pathJoin`).
-/

namespace Rs5cmd

open LexPath

/-- A relative path without `..` segments. -/
def PlainRelative (r : Str) : Prop :=
  Str.startsWith ['/'] r = false ∧ dotdot ∉ Str.split '/' r

/-- The path lies lexically inside the directory `d`. -/
def Contained (d path : Str) : Prop :=
  ∃ r, PlainRelative r ∧ cleanPath path = pathJoin d r

/-- Joined to `d`, the object name ends up at or below `d`. An empty `d` is the
working directory, which a name that starts with `/` leaves. -/
def StaysUnder (d name : Str) : Prop :=
  (d = [] → Str.startsWith ['/'] name = false) ∧
    Returns (locOf d) (norm (segsOf name)).1 (norm (segsOf name)).2

instance (d name : Str) : Decidable (StaysUnder d name) := inferInstanceAs (Decidable (_ ∧ _))

/-! ## Plain relative paths are descents -/

theorem segsOf_of_plain {r : Str} (h : PlainRelative r) : ∃ w : List Name, segsOf r = w.map .name := by
  have hgen : ∀ ss : List Str, dotdot ∉ ss → ∃ w : List Name, ss.filterMap toSeg = w.map .name := by
    intro ss
    induction ss with
    | nil => exact fun _ => ⟨[], rfl⟩
    | cons s ss ih =>
      intro hs
      obtain ⟨hne, hss⟩ := not_or.mp (mt List.mem_cons.mpr hs)
      obtain ⟨w, hw⟩ := ih hss
      by_cases hname : IsName s
      · exact ⟨⟨s, hname⟩ :: w, by simp [toSeg, hname, hw]⟩
      · exact ⟨w, by simp [toSeg, hname, Ne.symm hne, hw]⟩
  exact hgen _ h.2

theorem plainRelative_join_names (w : List Name) :
    PlainRelative (Str.join '/' (w.map Subtype.val)) := by
  cases w with
  | nil => exact ⟨by decide, by decide⟩
  | cons n w =>
    constructor
    · -- the first character belongs to a name
      obtain ⟨hne, -, -, hslash⟩ := n.property
      obtain ⟨c, s, hs⟩ := List.exists_cons_of_ne_nil hne
      have hc : c ≠ '/' := by
        rintro rfl
        exact hslash (by simp [hs])
      have hjoin : ∃ t, Str.join '/' ((n :: w).map Subtype.val) = c :: t := by
        cases w with
        | nil => exact ⟨s, by rw [Str.join, List.map_cons, List.map_nil,
            List.intercalate_singleton, hs]⟩
        | cons m w => exact ⟨s ++ '/' :: Str.join '/' ((m :: w).map Subtype.val), by
            rw [Str.join, List.map_cons, List.map_cons, List.intercalate_cons_cons, hs]
            simp [Str.join]⟩
      obtain ⟨t, ht⟩ := hjoin
      rw [ht, ← Bool.not_eq_true, startsWith_slash_iff]
      rintro ⟨q, hq⟩
      exact hc (List.cons.inj hq).1
    · have hslash : ∀ s ∈ ((n :: w).map Subtype.val : List Str), '/' ∉ s := by
        intro s hs
        obtain ⟨m, -, rfl⟩ := List.mem_map.mp hs
        exact m.property.2.2.2
      rw [split_join hslash (by simp)]
      intro hmem
      obtain ⟨m, -, hm⟩ := List.mem_map.mp hmem
      exact m.property.2.2.1 hm

/-- Joining a plain relative path goes down. -/
theorem locOf_pathJoin_plain (d : Str) {r : Str} (hr : PlainRelative r) {w : List Name}
    (hw : segsOf r = w.map .name) : locOf (pathJoin d r) = (locOf d).descend w := by
  rw [locOf_pathJoin]
  split
  · rename_i hd
    rw [hd, locOf_nil, locOf, hr.1, hw, Loc.walk_names]
  · rw [hw, Loc.walk_names]

/-! ## Containment -/

/-- **A path is contained iff its location is at or below the directory's.** -/
theorem contained_iff_inside (d path : Str) :
    Contained d path ↔ Inside (locOf d) (locOf path) := by
  rw [inside_iff_descend]
  constructor
  · rintro ⟨r, hr, heq⟩
    obtain ⟨w, hw⟩ := segsOf_of_plain hr
    refine ⟨w, ?_⟩
    rw [← locOf_cleanPath path, heq, locOf_pathJoin_plain d hr hw]
  · rintro ⟨w, hw⟩
    have hplain := plainRelative_join_names w
    refine ⟨_, hplain, ?_⟩
    rw [← cleanPath_pathJoin, cleanPath_eq_iff, hw,
      locOf_pathJoin_plain d hplain (segsOf_join_names w)]

/-- **Containment of a joined name, exactly.** -/
theorem contained_pathJoin (d name : Str) :
    Contained d (pathJoin d name) ↔ StaysUnder d name := by
  rw [contained_iff_inside, locOf_pathJoin, StaysUnder]
  split
  · rename_i hd
    subst hd
    by_cases hroot : Str.startsWith ['/'] name = true
    · -- a rooted location is not below the working directory
      have : ¬ Inside (locOf []) (locOf name) := by
        rintro ⟨hr, -, -⟩
        rw [locOf_rooted, hroot] at hr
        exact absurd hr (by decide)
      simp [this, hroot]
    · have hroot' : Str.startsWith ['/'] name = false := by simpa using hroot
      have hloc : locOf name = (locOf []).walk (segsOf name) := by
        rw [locOf_nil, locOf, hroot']
      rw [hloc, inside_walk_iff]
      simp [hroot']
  · rename_i hd
    rw [inside_walk_iff]
    simp [hd]

/-! ## The computed destinations -/

theorem join_path_of_local {dst : Url} (hdst : dst.isRemote = false) (s : Str) :
    (dst.join s).path = pathJoin dst.path s := by
  simp [Url.join, hdst]

/-- The name `expand_sources` joins to a destination directory for an object. -/
def objectName (fs : LocalFs) (src u : Url) : Str :=
  if expandsVersions src then u.base ++ '_' :: u.versionId
  else if isMulti fs src then u.relative
  else u.base

/-- The expansion takes `dst` for a directory: it is one, or the source expands
by listing. -/
def TreatsAsDir (fs : LocalFs) (src dst : Url) : Prop :=
  destIsDirLike fs dst = true ∨ (isMulti fs src = true ∧ expandsVersions src = false)

/-- Every pair of an expansion into a directory joins the object's name. -/
theorem expandSources_join {b : Backend} {src dst : Url} {follow : Bool} {filters : Filters}
    {pairs : List (Url × Url)} (hdir : TreatsAsDir b.fs src dst)
    (h : expandSources b src dst follow filters = .ok pairs) {p : Url × Url} (hp : p ∈ pairs) :
    p.2 = dst.join (objectName b.fs src p.1) := by
  unfold expandSources at h
  cases hc : b.newClient src with
  | error e =>
    rw [hc] at h
    cases h
  | ok client =>
    rw [hc] at h
    by_cases hv : expandsVersions src = true
    · have hlike : destIsDirLike b.fs dst = true := by
        rcases hdir with hlike | ⟨-, hno⟩
        · exact hlike
        · rw [hv] at hno
          exact absurd hno (by decide)
      obtain rfl : expandAllVersions b.fs dst (client.list src follow) = pairs := by
        simpa [hv, bind, Except.bind, pure, Except.pure] using h
      obtain ⟨u, -, rfl⟩ := List.mem_map.mp hp
      simp [objectName, hv, versionedDest, hlike]
    · by_cases hm : isMulti b.fs src = true
      · obtain rfl : ((client.list src follow).filterMap (keptSource filters)).map
            (fun u => (u, dst.join u.relative)) = pairs := by
          simpa [hv, hm, bind, Except.bind, pure, Except.pure] using h
        obtain ⟨u, -, rfl⟩ := List.mem_map.mp hp
        simp [objectName, hv, hm]
      · have hlike : destIsDirLike b.fs dst = true := by
          rcases hdir with hlike | ⟨hyes, -⟩
          · exact hlike
          · exact absurd hyes hm
        obtain rfl : [(src, resolveSingleDest b.fs src dst)] = pairs := by
          simpa [hv, hm, bind, Except.bind, pure, Except.pure] using h
        obtain rfl := List.mem_singleton.mp hp
        simp [objectName, hv, hm, resolveSingleDest, hlike]

/-- Every copy of a sync plan goes to its generated destination. -/
theorem syncPlan_toCopy {bs bd : Backend} {src dst : Url} {args : SyncArgs} {filters : Filters}
    {plan : SyncPlan} {isBatch : Bool} (h : syncPlan bs bd src dst args filters = .ok plan)
    (hb : isSourceBatch bs src = .ok isBatch) {p : Url × Url} (hp : p ∈ plan.toCopy) :
    p.2 = generateDestinationUrl p.1 dst isBatch := by
  obtain ⟨isBatch', source, dest, hb', hs, -, rfl⟩ := syncGroups_ok (syncPlan_ok h)
  rw [hb] at hb'
  obtain rfl := Except.ok.inj hb'
  obtain ⟨-, -, -, -, hgen, -⟩ := (mem_toCopy (collectSourceObjects_keyed hs).hasUrls).mp hp
  exact hgen

/-- **Destination containment, exactly.** For a local destination directory the
path computed for an object by `cp`, `mv` or `sync` lies inside it iff the
object's name stays under it. -/
theorem destination_contained_iff (dst : Url) (hdst : dst.isRemote = false) :
    (∀ (b : Backend) (src : Url) (followSymlinks : Bool) (filters : Filters)
        (pairs : List (Url × Url)), TreatsAsDir b.fs src dst →
        expandSources b src dst followSymlinks filters = .ok pairs →
        ∀ p ∈ pairs, Contained dst.path p.2.path ↔
          StaysUnder dst.path (objectName b.fs src p.1)) ∧
    (∀ (bs bd : Backend) (src : Url) (args : SyncArgs) (filters : Filters) (isBatch : Bool)
        (plan : SyncPlan), isSourceBatch bs src = .ok isBatch →
        syncPlan bs bd src dst args filters = .ok plan →
        ∀ p ∈ plan.toCopy, Contained dst.path p.2.path ↔
          StaysUnder dst.path (objname p.1 isBatch)) := by
  constructor
  · intro b src follow filters pairs hdir hpairs p hp
    rw [expandSources_join hdir hpairs hp, join_path_of_local hdst, contained_pathJoin]
  · intro bs bd src args filters isBatch plan hb hplan p hp
    rw [syncPlan_toCopy hplan hb hp, generateDestinationUrl, hdst]
    simp only [Bool.false_eq_true, if_false]
    rw [join_path_of_local hdst, contained_pathJoin]

/-- The expansion of `s3://b/a/*` into `/tmp/d/` when the bucket holds one key. -/
def expandOne (key : String) : Except StorageError (List (Url × Url)) :=
  expandSources (.ofKeys [key]) (.ofString "s3://b/a/*") (.ofString "/tmp/d/") true noFilters

/-- A key with `..` segments is downloaded outside the destination directory. -/
theorem destination_escapes :
    ∃ p ∈ okD (expandOne "a/../../x") [],
      p.2.path = "/x".toList ∧ ¬ Contained (Url.ofString "/tmp/d/").path p.2.path := by
  have hpath : (okD (expandOne "a/../../x") []).map (fun p => p.2.path) = ["/x".toList] := by
    decide +kernel
  obtain ⟨p, hp, hx⟩ : ∃ p ∈ okD (expandOne "a/../../x") [], p.2.path = "/x".toList :=
    List.mem_map.mp (by rw [hpath]; exact List.mem_singleton_self _)
  refine ⟨p, hp, hx, ?_⟩
  rw [hx, contained_iff_inside]
  rintro ⟨-, -, hnames⟩
  revert hnames
  decide +kernel

theorem destination_contained_plain :
    ∃ p ∈ okD (expandOne "a/x/../y") [],
      p.2.path = "/tmp/d/y".toList ∧ Contained (Url.ofString "/tmp/d/").path p.2.path := by
  have hpath : (okD (expandOne "a/x/../y") []).map
      (fun p => (objectName .empty (.ofString "s3://b/a/*") p.1, p.2.path)) =
        [("x/../y".toList, "/tmp/d/y".toList)] := by
    decide +kernel
  obtain ⟨p, hp, hname⟩ : ∃ p ∈ okD (expandOne "a/x/../y") [],
      (objectName .empty (.ofString "s3://b/a/*") p.1, p.2.path) =
        ("x/../y".toList, "/tmp/d/y".toList) :=
    List.mem_map.mp (by rw [hpath]; exact List.mem_singleton_self _)
  obtain ⟨hname, hx⟩ := Prod.mk.inj hname
  refine ⟨p, hp, hx, ?_⟩
  cases hexp : expandOne "a/x/../y" with
  | error e =>
    rw [hexp] at hp
    exact absurd hp (List.not_mem_nil)
  | ok pairs =>
    rw [hexp] at hp
    refine ((destination_contained_iff (.ofString "/tmp/d/") (by decide +kernel)).1 _ _ _ _ pairs
      (Or.inl (by decide +kernel)) hexp p hp).mpr ?_
    have hstays : StaysUnder (Url.ofString "/tmp/d/").path "x/../y".toList := by decide +kernel
    rw [← hname] at hstays
    exact hstays

end Rs5cmd
