import Rs5cmd.Theorems.SyncInside
import Rs5cmd.Theorems.SyncListing

/-!
# Syncing to an empty destination

"Nothing there" comes back from the destination as an error: `no object found` from
a bucket, `no match found for ..` from the expansion of a local glob. The collection
loop lets the first one pass and stops at the second, so a sync into a local directory
that does not exist yet, or is empty, is not planned at all.
-/

namespace Rs5cmd

open LexPath

/-! ## What a plan has to contain -/

/-- A source object that is neither filtered out nor skipped, with its name. -/
inductive SourceObject (bs : Backend) (src : Url) (args : SyncArgs) (filters : Filters) :
    Bool → Str → Url → Prop where
  | listed {client : Client} {obj : Object} {k : Str} {u : Url} (hc : bs.newClient src = .ok client)
      (hmem : obj ∈ client.list src args.followSymlinks)
      (hkept : keptKey filters args.forceGlacierTransfer obj = some (k, u)) :
      SourceObject bs src args filters true k u
  | single {client : Client} {obj : Object} (hc : bs.newClient src = .ok client)
      (hstat : client.stat src = .ok obj) (hdir : obj.typ.isDir = false)
      (hskip : filters.shouldSkip src.base = false) :
      SourceObject bs src args filters false src.base src

/-- No two source objects have the same name. -/
def NamesApart (bs : Backend) (src : Url) (args : SyncArgs) (filters : Filters) (isBatch : Bool) :
    Prop :=
  ∀ k u v, SourceObject bs src args filters isBatch k u →
    SourceObject bs src args filters isBatch k v → u = v

/-- The sync is planned: every source object is copied and nothing is deleted. -/
def CopiesAll (bs bd : Backend) (src dst : Url) (args : SyncArgs) (filters : Filters)
    (isBatch : Bool) : Prop :=
  ∃ plan, syncPlan bs bd src dst args filters = .ok plan ∧ plan.toDelete = [] ∧
    ∀ k u, SourceObject bs src args filters isBatch k u →
      (u, generateDestinationUrl u dst isBatch) ∈ plan.toCopy

section Source

variable {bs bd : Backend} {src dst : Url} {args : SyncArgs} {filters : Filters} {isBatch : Bool}
  {source : ObjectMap}

/-- A source object has the name it is filed under. -/
theorem SourceObject.objname_eq {k : Str} {u : Url} (h : SourceObject bs src args filters isBatch k u) :
    objname u isBatch = k := by
  cases h with
  | listed _ _ hkept => exact (keptKey_eq_some.mp hkept).2.2.2.1
  | single => rfl

/-- The source map holds a source object under each of their names, and no other. -/
theorem source_iff (hs : collectSourceObjects bs src args isBatch filters = .ok source) (k : Str) :
    (∀ obj, source[k]? = some obj → ∃ u, obj.url = some u ∧
      SourceObject bs src args filters isBatch k u) ∧
      ((∃ u, SourceObject bs src args filters isBatch k u) → k ∈ source) := by
  unfold collectSourceObjects at hs
  cases hc : bs.newClient src with
  | error e =>
    rw [hc] at hs
    cases hs
  | ok client =>
    rw [hc] at hs
    cases isBatch with
    | true =>
      have hs' : collectListed bs.fs src filters args.checksum args.forceGlacierTransfer
          (client.list src args.followSymlinks) ∅ = .ok source := hs
      refine ⟨?_, ?_⟩
      · intro obj hk
        rcases collectListed_value hs' hk with hnone | ⟨o, ho, u, hkept, rfl⟩
        · simp at hnone
        · refine ⟨u, ?_, .listed hc ho hkept⟩
          rw [fillChecksum_url]
          exact (keptKey_eq_some.mp hkept).2.2.1
      · rintro ⟨u, hobj⟩
        cases hobj with
        | listed hc' hmem hkept =>
          obtain rfl := Except.ok.inj (hc.symm.trans hc')
          exact ((collectListed_ok hs').2.2 k).mpr (.inr ⟨_, hmem, u, hkept⟩)
    | false =>
      cases hstat : client.stat src with
      | error e => simp [bind, Except.bind, hstat] at hs
      | ok obj =>
        have hs' : collectSingle bs.fs src filters args.checksum obj = source := by
          simpa [bind, Except.bind, pure, Except.pure, hstat] using hs
        subst hs'
        unfold collectSingle
        split
        · rename_i hdir
          refine ⟨fun o ho => by simp at ho, ?_⟩
          rintro ⟨u, hobj⟩
          cases hobj with
          | single hc' hstat' hdir' =>
            obtain rfl := Except.ok.inj (hc.symm.trans hc')
            obtain rfl := Except.ok.inj (hstat.symm.trans hstat')
            rw [hdir] at hdir'
            cases hdir'
        · rename_i hdir
          split
          · rename_i hskip
            refine ⟨fun o ho => by simp at ho, ?_⟩
            rintro ⟨u, hobj⟩
            cases hobj with
            | single _ _ _ hskip' =>
              rw [hskip] at hskip'
              cases hskip'
          · rename_i hskip
            refine ⟨?_, ?_⟩
            · intro o ho
              by_cases hk : src.base = k
              · subst hk
                rw [Std.ExtTreeMap.getElem?_insert_self] at ho
                obtain rfl := Option.some.inj ho
                refine ⟨src, ?_, .single hc hstat (by simpa using hdir) (by simpa using hskip)⟩
                rw [fillChecksum_url, Client.stat_url hstat]
                rfl
              · rw [Maps.getElem?_insert_of_ne hk] at ho
                simp at ho
            · rintro ⟨u, hobj⟩
              cases hobj with
              | single => exact Std.ExtTreeMap.mem_insert_self

/-- A plan without deletions is under every cap. -/
theorem syncPlan_eq_of_no_deletions {plan : SyncPlan} (hdel : plan.toDelete = []) :
    syncPlan bs bd src dst args filters = .ok plan ↔
      syncGroups bs bd src dst args filters = .ok plan := by
  refine ⟨syncPlan_ok, fun h => ?_⟩
  unfold syncPlan
  rw [h]
  simp only [bind, Except.bind, pure, Except.pure, hdel]
  cases args.maxDelete with
  | none => rfl
  | some max => simp

/-- **With nothing at the destination** every source object is copied exactly when no
two of them have the same name. -/
theorem copiesAll_iff (hb : isSourceBatch bs src = .ok isBatch)
    (hs : collectSourceObjects bs src args isBatch filters = .ok source)
    (hd : collectDestObjects bd dst filters = .ok ∅) :
    CopiesAll bs bd src dst args filters isBatch ↔ NamesApart bs src args filters isBatch := by
  have hkeyed := collectSourceObjects_keyed hs
  have hgroups := syncGroups_of_collect hb hs hd
  have hnone : (partition (.new args.sizeOnly args.checksum) dst isBatch args.delete source
      ∅).toDelete = [] := by
    cases hdel : args.delete with
    | false => rfl
    | true =>
      rw [List.eq_nil_iff_forall_not_mem]
      intro u hu
      rw [mem_toDelete hkeyed.hasUrls] at hu
      obtain ⟨k, obj, hk, -⟩ := hu
      simp at hk
  constructor
  · rintro ⟨plan, hplan, -, hall⟩ k u v hu hv
    obtain rfl := Except.ok.inj (hgroups.symm.trans (syncPlan_ok hplan))
    -- whatever is copied stands in the map, under its name
    have hfiled : ∀ w, SourceObject bs src args filters isBatch k w →
        ∃ obj, source[k]? = some obj ∧ obj.url = some w := by
      intro w hw
      obtain ⟨key, obj, hkey, hurl, -⟩ := (mem_toCopy hkeyed.hasUrls).mp (hall k w hw)
      obtain ⟨w', hw', hname⟩ := hkeyed key obj hkey
      obtain rfl := Option.some.inj (hurl.symm.trans hw')
      rw [hw.objname_eq] at hname
      exact ⟨obj, hname ▸ hkey, hurl⟩
    obtain ⟨obj, hobj, hurl⟩ := hfiled u hu
    obtain ⟨obj', hobj', hurl'⟩ := hfiled v hv
    obtain rfl := Option.some.inj (hobj.symm.trans hobj')
    exact Option.some.inj (hurl.symm.trans hurl')
  · intro hapart
    refine ⟨_, (syncPlan_eq_of_no_deletions hnone).mpr hgroups, hnone, ?_⟩
    intro k u hu
    have hmem := (source_iff hs k).2 ⟨u, hu⟩
    obtain ⟨obj, hobj⟩ := Option.isSome_iff_exists.mp (Std.ExtTreeMap.mem_iff_isSome_getElem?.mp hmem)
    obtain ⟨v, hv, hsrc⟩ := (source_iff hs k).1 obj hobj
    obtain rfl := hapart k u v hu hsrc
    rw [mem_toCopy hkeyed.hasUrls]
    exact ⟨k, obj, hobj, hv, rfl, by simp [Copies]⟩

end Source

/-! ## What the destination answers -/

/-- A listing that is taken for that of an empty destination: its errors say that
nothing was found, and nothing in it is an object. -/
def QuietListing (objs : List Object) : Prop :=
  ∀ obj ∈ objs, (∀ e, obj.err = some e → isMissing e = true) ∧
    (obj.err = none → destKey noFilters obj = none)

theorem destKey_eq_none {filters : Filters} {obj : Object} (h : destKey noFilters obj = none) :
    destKey filters obj = none := by
  cases hk : destKey filters obj with
  | none => rfl
  | some k =>
    obtain ⟨hdir, u, hu, hrel, -⟩ := destKey_eq_some.mp hk
    rw [destKey_eq_some.mpr ⟨hdir, u, hu, hrel, rfl⟩] at h
    cases h

/-- A collection that returned a map met no other error. -/
theorem isMissing_of_collected {dst : Url} {filters : Filters} {objs : List Object}
    {map m : ObjectMap} (h : collectDestListed dst filters objs map = .ok m) :
    ∀ obj ∈ objs, ∀ e, obj.err = some e → isMissing e = true := by
  induction objs generalizing map with
  | nil =>
    intro obj hobj
    cases hobj
  | cons o rest ih =>
    intro obj hobj e he
    unfold collectDestListed at h
    cases herr : o.err with
    | some err =>
      rw [herr] at h
      dsimp only at h
      split at h
      · rename_i hmiss
        rcases List.mem_cons.mp hobj with rfl | hobj
        · obtain rfl := Option.some.inj (herr.symm.trans he)
          exact hmiss
        · exact ih h obj hobj e he
      · split at h <;> cases h
    | none =>
      rw [herr] at h
      rcases List.mem_cons.mp hobj with rfl | hobj
      · rw [herr] at he
        cases he
      · dsimp only at h
        split at h
        · exact ih h obj hobj e he
        · exact ih h obj hobj e he

theorem collectDestListed_quiet {dst : Url} {filters : Filters} {objs : List Object}
    (h : QuietListing objs) (map : ObjectMap) : collectDestListed dst filters objs map = .ok map := by
  induction objs with
  | nil => rfl
  | cons o rest ih =>
    obtain ⟨hmiss, hfile⟩ := h o List.mem_cons_self
    have hrest := ih fun obj hobj => h obj (List.mem_cons_of_mem o hobj)
    unfold collectDestListed
    cases herr : o.err with
    | some err =>
      dsimp only
      rw [if_pos (hmiss err herr)]
      exact hrest
    | none =>
      dsimp only
      rw [destKey_eq_none (hfile herr)]
      exact hrest

/-- A source with one object, that is not called `k`. -/
theorem exists_source (k : Str) :
    ∃ (bs : Backend) (src : Url) (source : ObjectMap),
      isSourceBatch bs src = .ok true ∧
      collectSourceObjects bs src { delete := true } true noFilters = .ok source ∧
      (∃ n u, SourceObject bs src { delete := true } noFilters true n u) ∧
      NamesApart bs src { delete := true } noFilters true ∧ k ∉ source := by
  have hone : ∀ n : String, n = "y" ∨ n = "z" → n.toList ≠ k → ∃ source,
      isSourceBatch (.ofKeys [n]) (.ofString "s3://b/*") = .ok true ∧
      collectSourceObjects (.ofKeys [n]) (.ofString "s3://b/*") { delete := true } true noFilters =
        .ok source ∧
      (∃ k u, SourceObject (.ofKeys [n]) (.ofString "s3://b/*") { delete := true } noFilters true k u) ∧
      NamesApart (.ofKeys [n]) (.ofString "s3://b/*") { delete := true } noFilters true ∧
      k ∉ source := by
    intro n hn hne
    have hs := eq_ok_okD (r := collectSourceObjects (.ofKeys [n]) (.ofString "s3://b/*")
      { delete := true } true noFilters) ∅ (by rcases hn with rfl | rfl <;> decide +kernel)
    have hkeys : (okD (collectSourceObjects (.ofKeys [n]) (.ofString "s3://b/*")
        { delete := true } true noFilters) ∅).keys = [n.toList] := by
      rcases hn with rfl | rfl <;> decide +kernel
    refine ⟨_, by rcases hn with rfl | rfl <;> decide +kernel, hs, ?_, ?_, ?_⟩
    · have hmem := Std.ExtTreeMap.mem_keys.mp (hkeys ▸ List.mem_singleton_self n.toList)
      obtain ⟨obj, hobj⟩ := Option.isSome_iff_exists.mp (Std.ExtTreeMap.mem_iff_isSome_getElem?.mp hmem)
      obtain ⟨u, -, hu⟩ := (source_iff hs n.toList).1 obj hobj
      exact ⟨n.toList, u, hu⟩
    · -- the listing has one object
      intro k u v hu hv
      have hlen : ((S3.ofPages [.ok { contents := [n].map fun k => { key := some k.toList } }]).list
          (.ofString "s3://b/*")).length = 1 := by
        rcases hn with rfl | rfl <;> decide +kernel
      have hclient : (Backend.ofKeys [n]).newClient (.ofString "s3://b/*") = .ok (.remote
          (.ofPages [.ok { contents := [n].map fun k => { key := some k.toList } }])) := by
        rw [Backend.newClient, if_pos (by decide +kernel)]
        rfl
      cases hu with
      | listed hc hmem hkept =>
        obtain rfl := Except.ok.inj (hclient.symm.trans hc)
        cases hv with
        | listed hc' hmem' hkept' =>
          obtain rfl := Except.ok.inj (hclient.symm.trans hc')
          obtain ⟨o, ho⟩ := List.length_eq_one_iff.mp hlen
          have h1 := hmem
          have h2 := hmem'
          rw [Client.list, ho, List.mem_singleton] at h1 h2
          rw [h1] at hkept
          rw [h2, hkept] at hkept'
          exact (Prod.mk.inj (Option.some.inj hkept')).2
    · intro hmem
      have := Std.ExtTreeMap.mem_keys.mpr hmem
      rw [hkeys, List.mem_singleton] at this
      exact hne this.symm
  by_cases hk : "y".toList = k
  · obtain ⟨source, h⟩ := hone "z" (.inr rfl) (by rw [← hk]; decide)
    exact ⟨_, _, source, h⟩
  · obtain ⟨source, h⟩ := hone "y" (.inl rfl) hk
    exact ⟨_, _, source, h⟩

/-- The syncs into a destination, from every source with an object and with names
that are apart, copy everything. -/
def TakesAll (bd : Backend) (dst : Url) : Prop :=
  ∀ (bs : Backend) (src : Url) (args : SyncArgs) (filters : Filters) (isBatch : Bool)
    (source : ObjectMap), isSourceBatch bs src = .ok isBatch →
    collectSourceObjects bs src args isBatch filters = .ok source →
    (∃ k u, SourceObject bs src args filters isBatch k u) →
    NamesApart bs src args filters isBatch → CopiesAll bs bd src dst args filters isBatch

theorem takesAll_iff_quiet {bd : Backend} {dst lu : Url} {client : Client}
    (hparse : Url.parse (listingPath dst) = .ok lu) (hclient : bd.newClient lu = .ok client) :
    TakesAll bd dst ↔ QuietListing (client.list lu false) := by
  constructor
  · intro htakes
    -- a plan comes out for every name that the source does not have
    have hplan : ∀ k, ∃ dest source, collectDestObjects bd dst noFilters = .ok dest ∧
        k ∉ source ∧ (partition (.new false false) dst true true source dest).toDelete = [] ∧
        HasUrls source := by
      intro k
      obtain ⟨bs, src, source, hb, hs, hobj, hapart, hk⟩ := exists_source k
      obtain ⟨plan, hplan, hdel, -⟩ := htakes bs src _ _ true source hb hs hobj hapart
      obtain ⟨isBatch, source', dest, hb', hs', hd, rfl⟩ := syncGroups_ok (syncPlan_ok hplan)
      obtain rfl := Except.ok.inj (hb.symm.trans hb')
      obtain rfl := Except.ok.inj (hs.symm.trans hs')
      exact ⟨dest, source, hd, hk, hdel, (collectSourceObjects_keyed hs).hasUrls⟩
    intro obj hobj
    refine ⟨?_, fun herr => ?_⟩
    · intro e he
      obtain ⟨dest, -, hd, -⟩ := hplan []
      rw [collectDestObjects_eq hparse hclient] at hd
      exact isMissing_of_collected hd obj hobj e he
    · cases hkey : destKey noFilters obj with
      | none => rfl
      | some k =>
        exfalso
        obtain ⟨dest, source, hd, hk, hdel, hurls⟩ := hplan k
        rw [collectDestObjects_eq hparse hclient] at hd
        have hmem := (mem_of_destKey hd).2 obj hobj herr k hkey
        obtain ⟨dobj, hdobj⟩ :=
          Option.isSome_iff_exists.mp (Std.ExtTreeMap.mem_iff_isSome_getElem?.mp hmem)
        rcases collectDestListed_ok hd hdobj with hnone | ⟨-, -, hkey'⟩
        · simp at hnone
        · obtain ⟨-, u, hu, -⟩ := destKey_eq_some.mp hkey'
          have hin : u ∈ (partition (.new false false) dst true true source dest).toDelete :=
            (mem_toDelete hurls).mpr ⟨k, dobj, hdobj, hu, getElem?_none_of_not_mem hk⟩
          rw [hdel] at hin
          cases hin
  · intro hquiet bs src args filters isBatch source hb hs _ hapart
    refine (copiesAll_iff hb hs ?_).mpr hapart
    rw [collectDestObjects_eq hparse hclient]
    exact collectDestListed_quiet hquiet ∅

/-! ## Empty destinations -/

/-- A destination without objects, listed through `lu`: no object of the bucket has
its key under the destination's; no file that a readable filesystem reports lies
inside the directory. -/
def EmptyDest (g : GlobCrate) (objs : List StoredObject) (bd : Backend) (dst lu : Url) : Prop :=
  if dst.isRemote then
    (∃ s3, bd.newS3 lu = .ok s3 ∧ Serves urlEncode objs s3 lu) ∧
      ∀ o ∈ objs, ¬ listingKey dst <+: o.key
  else
    (bd.fs.Conforms g ∧ bd.fs.Lexical ∧ ∀ found, bd.fs.glob lu.absolute = .ok found →
      ∀ obj ∈ bd.fs.globEntries lu false found, obj.err = none) ∧
      ∀ base u, SourceFile bd.fs lu false base u → ¬ u.place.Under dst

/-- What expanding a glob without a match reports. -/
def noMatch (pattern : Str) : StorageError := .msg ("no match found for ".toList ++ debugStr pattern)

/-- The collection loop takes the answer for that of an empty destination: in a bucket
no key beside the destination matches, if the destination has wildcards; a local
listing comes by at least one entry, and beside the destination by no file, or its
error happens to contain the words that are looked for. -/
def Recognised (g : GlobCrate) (objs : List StoredObject) (bd : Backend) (dst lu : Url) : Prop :=
  if dst.isRemote then
    hasGlobCharacter dst.path = true → ∀ o ∈ objs, lu.keyPrefix <+: o.key →
      lu.isMatch (shownKey o.key) = false
  else
    match bd.fs.glob lu.absolute with
    | .error e => isMissing (.msg e) = true
    | .ok [] => isMissing (noMatch lu.absolute) = true
    | .ok (_ :: _) => ListsInside g dst ∨ ∀ base u, ¬ SourceFile bd.fs lu false base u

theorem quiet_singleton (e : StorageError) : QuietListing [Object.withError e] ↔ isMissing e = true := by
  constructor
  · intro h
    exact (h _ (List.mem_singleton_self _)).1 e rfl
  · intro h obj hobj
    rw [List.mem_singleton.mp hobj]
    refine ⟨?_, fun herr => by cases herr⟩
    intro e' he'
    rw [← Option.some.inj he']
    exact h

/-- A listing without errors is quiet iff no file is found. -/
theorem quiet_local_iff {fs : LocalFs} {lu : Url} (hloc : lu.isRemote = false)
    (hwild : lu.isWildcard = true) (hall : ∀ obj ∈ fs.list lu false, obj.err = none) :
    QuietListing (fs.list lu false) ↔ ∀ base u, ¬ SourceFile fs lu false base u := by
  -- what is kept of a local listing is what the destination loop keeps
  have hkept : ∀ k, (∃ obj ∈ fs.list lu false, destKey noFilters obj = some k) ↔
      ∃ base u, SourceFile fs lu false base u ∧ relPath base u.absolute = k := by
    intro k
    have hmem : (∃ obj ∈ fs.list lu false, ∃ u, keptKey noFilters true obj = some (k, u)) ↔
        Collects id fs [] lu { followSymlinks := false, forceGlacierTransfer := true } k ∧
          noFilters.shouldSkip k = false :=
      @mem_source_local fs lu hloc { followSymlinks := false, forceGlacierTransfer := true } noFilters
        id [] (.inl hwild) hall k
    rw [Collects, if_neg (by simp [hloc])] at hmem
    constructor
    · rintro ⟨obj, hobj, hkey⟩
      obtain ⟨hdir, u, hu, hrel, hskip⟩ := destKey_eq_some.mp hkey
      exact (hmem.mp ⟨obj, hobj, u, keptKey_eq_some.mpr ⟨hdir, rfl, hu, hrel, hskip⟩⟩).1
    · intro hfile
      obtain ⟨obj, hobj, u, hkey⟩ := hmem.mpr ⟨hfile, rfl⟩
      obtain ⟨hdir, -, hu, hrel, hskip⟩ := keptKey_eq_some.mp hkey
      exact ⟨obj, hobj, destKey_eq_some.mpr ⟨hdir, u, hu, hrel, hskip⟩⟩
  constructor
  · intro h base u hfile
    obtain ⟨obj, hobj, hkey⟩ := (hkept _).mpr ⟨base, u, hfile, rfl⟩
    rw [(h obj hobj).2 (hall obj hobj)] at hkey
    cases hkey
  · intro h obj hobj
    refine ⟨?_, fun _ => ?_⟩
    · intro e he
      rw [hall obj hobj] at he
      cases he
    · cases hkey : destKey noFilters obj with
      | none => rfl
      | some k =>
        obtain ⟨base, u, hfile, -⟩ := (hkept k).mp ⟨obj, hobj, hkey⟩
        exact absurd hfile (h base u)

theorem SourceFile.found {fs : LocalFs} {src : Url} {follow : Bool} {base : Str} {u : Url}
    (h : SourceFile fs src follow base u) : ∃ origin, fs.Found src follow origin u := by
  cases h with
  | walked hw _ hmem _ _ hu => exact ⟨_, .walked hw hmem hu⟩
  | matched hw hglob he hu => exact ⟨_, .matched hw hglob he hu⟩
  | below hw hglob he heu _ _ hmem _ _ hu => exact ⟨_, .below hw hglob he heu hmem hu⟩

section Listing

variable {g : GlobCrate} {objs : List StoredObject} {bd : Backend} {raw : Str} {dst lu : Url}

theorem quiet_iff_remote (h : Url.parse raw = .ok dst) (hrem : dst.isRemote = true)
    (hlu : Url.parse (listingPath dst) = .ok lu) (hempty : EmptyDest g objs bd dst lu) :
    ∃ client, bd.newClient lu = .ok client ∧
      (QuietListing (client.list lu false) ↔ Recognised g objs bd dst lu) := by
  rw [EmptyDest, if_pos hrem] at hempty
  obtain ⟨⟨s3, hs3, hserve⟩, hnone⟩ := hempty
  have hlisting := parse_listing_remote h hrem
  obtain rfl : lu = Url.parsed .remote "s3".toList dst.bucket (listingKey dst ++ ['*']) {} :=
    Except.ok.inj (hlu.symm.trans hlisting)
  have hw : IsPattern (Url.parsed .remote "s3".toList dst.bucket (listingKey dst ++ ['*']) {}) :=
    isPattern_of_parse hlu rfl (by simp [Url.isWildcard, Url.parsed, Url.blank, hasGlobCharacter, isGlobChar])
  refine ⟨_, newClient_pattern hw hs3, ?_⟩
  -- the objects of the listing are the keys that match
  have hquiet :
      QuietListing (s3.list (Url.parsed .remote "s3".toList dst.bucket (listingKey dst ++ ['*']) {})) ↔
      ∀ o ∈ objs, Url.literalPart (listingKey dst ++ ['*']) <+: o.key →
        (Url.parsed .remote "s3".toList dst.bucket (listingKey dst ++ ['*']) {}).isMatch
          (shownKey o.key) = false := by
    constructor
    · intro hq o ho hpre
      by_contra hmatch
      have hmem : o.listed _ ∈ s3.list _ := (mem_list_iff hw hserve rfl rfl).mpr
        ⟨o, ho, hpre, by simpa using hmatch, rfl⟩
      have hkey : destKey noFilters (o.listed _) = none := (hq _ hmem).2 rfl
      rw [destKey_eq_some.mpr ⟨rfl, _, rfl, rfl, rfl⟩] at hkey
      cases hkey
    · intro hno obj hobj
      rcases err_of_mem_list hserve hw.isVersioned hobj with herr | ⟨rfl, -⟩
      · refine ⟨?_, fun _ => ?_⟩
        · intro e he
          rw [herr] at he
          cases he
        · cases hkey : destKey noFilters obj with
          | none => rfl
          | some k =>
            obtain ⟨o, ho, hpre, hmatch, -⟩ :=
              (mem_list_iff hw hserve herr (destKey_eq_some.mp hkey).1).mp hobj
            rw [hno o ho hpre] at hmatch
            cases hmatch
      · refine ⟨?_, fun herr => by cases herr⟩
        intro e he
        rw [← Option.some.inj he]
        decide
  rw [Client.list, hquiet, Recognised, if_pos hrem]
  constructor
  · intro hno _
    exact hno
  · intro hno o ho hpre
    cases hglob : hasGlobCharacter dst.path with
    | true => exact hno hglob o ho hpre
    | false =>
      -- a literal destination is asked for by its whole key
      rw [← hasGlobCharacter_listingKey] at hglob
      rw [Url.literalPart_append hglob] at hpre
      exact absurd ((List.prefix_append _ _).trans hpre) (hnone o ho)

theorem quiet_iff_local (hg : g.Matching) (h : Url.parse raw = .ok dst) (hloc : dst.isRemote = false)
    (hlu : Url.parse (listingPath dst) = .ok lu) (hempty : EmptyDest g objs bd dst lu) :
    ∃ client, bd.newClient lu = .ok client ∧
      (QuietListing (client.list lu false) ↔ Recognised g objs bd dst lu) := by
  rw [EmptyDest, if_neg (by simp [hloc])] at hempty
  obtain ⟨⟨hconf, hlex, hread⟩, hnone⟩ := hempty
  obtain ⟨lu', hparse, hlocal, hpath⟩ := parse_listing_local h hloc
  obtain rfl := Except.ok.inj (hlu.symm.trans hparse)
  have hlrem : lu.isRemote = false := by simp [Url.isRemote, hlocal.kind]
  have hwild := listing_isWildcard hlu hlrem
  refine ⟨_, newClient_local hlrem, ?_⟩
  have hlist : bd.fs.list lu false = bd.fs.expandGlob lu false := by rw [LocalFs.list, if_pos hwild]
  rw [Client.list, Recognised, if_neg (by simp [hloc])]
  cases hglob : bd.fs.glob lu.absolute with
  | error e =>
    rw [hlist, LocalFs.expandGlob, hglob]
    exact quiet_singleton (.msg e)
  | ok found =>
    cases found with
    | nil =>
      rw [hlist, LocalFs.expandGlob, hglob]
      exact quiet_singleton (noMatch lu.absolute)
    | cons x rest =>
      have hentries : bd.fs.list lu false = bd.fs.globEntries lu false (x :: rest) := by
        rw [hlist, LocalFs.expandGlob, hglob]
        exact List.append_nil _
      have hall : ∀ obj ∈ bd.fs.list lu false, obj.err = none := by
        rw [hentries]
        exact hread _ hglob
      rw [quiet_local_iff hlrem hwild hall]
      constructor
      · intro hno
        exact .inr hno
      · rintro (hin | hno)
        · -- what is found lies inside, where there is nothing
          have hyields := (listsInside_local_iff hg hloc).mp hin
          intro base u hfile
          obtain ⟨origin, hfound⟩ := hfile.found
          exact hnone base u hfile
            (inside_of_found hloc hyields hconf hlex hlocal hpath hwild hfound)
        · exact hno

end Listing

/-- **Syncing to an empty destination, exactly.** Every source whose names are apart is
planned in full iff the destination's answer is recognised; and then a source is
planned in full iff its names are apart. -/
theorem sync_to_empty_iff (g : GlobCrate) (hg : g.Matching) (objs : List StoredObject)
    (bd : Backend) (raw : Str) (dst lu : Url) (h : Url.parse raw = .ok dst)
    (hlu : Url.parse (listingPath dst) = .ok lu) (hempty : EmptyDest g objs bd dst lu) :
    (TakesAll bd dst ↔ Recognised g objs bd dst lu) ∧
    (Recognised g objs bd dst lu → ∀ (bs : Backend) (src : Url) (args : SyncArgs) (filters : Filters)
      (isBatch : Bool) (source : ObjectMap), isSourceBatch bs src = .ok isBatch →
      collectSourceObjects bs src args isBatch filters = .ok source →
      (CopiesAll bs bd src dst args filters isBatch ↔ NamesApart bs src args filters isBatch)) := by
  obtain ⟨client, hclient, hquiet⟩ : ∃ client, bd.newClient lu = .ok client ∧
      (QuietListing (client.list lu false) ↔ Recognised g objs bd dst lu) := by
    cases hrem : dst.isRemote with
    | true => exact quiet_iff_remote h hrem hlu hempty
    | false => exact quiet_iff_local hg h hrem hlu hempty
  refine ⟨(takesAll_iff_quiet hlu hclient).trans hquiet, ?_⟩
  intro hrec bs src args filters isBatch source hb hs
  refine copiesAll_iff hb hs ?_
  rw [collectDestObjects_eq hlu hclient]
  exact collectDestListed_quiet (hquiet.mpr hrec) ∅

/-- Two objects, one below the other's level, have different names. -/
theorem namesApart_two :
    NamesApart (.ofKeys ["x", "d/y"]) (.ofString "s3://b/*") {} noFilters true := by
  obtain ⟨client, hclient, hkeys⟩ : ∃ client,
      (Backend.ofKeys ["x", "d/y"]).newClient (.ofString "s3://b/*") = .ok client ∧
        ∀ p ∈ (client.list (.ofString "s3://b/*") true).filterMap (keptKey noFilters false),
          ∀ q ∈ (client.list (.ofString "s3://b/*") true).filterMap (keptKey noFilters false),
            p.1 = q.1 → p = q :=
    ⟨_, rfl, by decide +kernel⟩
  have hkept : ∀ {k u}, SourceObject (.ofKeys ["x", "d/y"]) (.ofString "s3://b/*") {} noFilters true k u →
      (k, u) ∈ (client.list (.ofString "s3://b/*") true).filterMap (keptKey noFilters false) := by
    intro k u h
    cases h with
    | listed hc hmem hkept =>
      obtain rfl := Except.ok.inj (hc.symm.trans hclient)
      exact List.mem_filterMap.mpr ⟨_, hmem, hkept⟩
  intro k u v hu hv
  exact congrArg Prod.snd (hkeys _ (hkept hu) _ (hkept hv) rfl)

/-- Into an empty bucket everything is copied, the two objects of another bucket among it. -/
theorem sync_to_empty_bucket :
    EmptyDest .levels [] (.ofPages [.ok {}]) (.ofString "s3://c/out/") (.ofString "s3://c/out/*") ∧
      TakesAll (.ofPages [.ok {}]) (.ofString "s3://c/out/") ∧
      CopiesAll (.ofKeys ["x", "d/y"]) (.ofPages [.ok {}]) (.ofString "s3://b/*")
        (.ofString "s3://c/out/") {} noFilters true ∧
      (okD (collectSourceObjects (.ofKeys ["x", "d/y"]) (.ofString "s3://b/*") {} true noFilters)
        ∅).keys = ["d/y".toList, "x".toList] := by
  have hrem : (Url.ofString "s3://c/out/").isRemote = true := by decide +kernel
  have hserve : Serves urlEncode [] (.ofPages [.ok {}]) (.ofString "s3://c/out/*") := by
    refine ⟨[{}], ?_, rfl⟩
    intro c
    simp
  have hempty : EmptyDest .levels [] (.ofPages [.ok {}]) (.ofString "s3://c/out/")
      (.ofString "s3://c/out/*") := by
    rw [EmptyDest, if_pos hrem]
    exact ⟨⟨_, rfl, hserve⟩, by simp⟩
  have hrecognised : Recognised .levels [] (.ofPages [.ok {}]) (.ofString "s3://c/out/")
      (.ofString "s3://c/out/*") := by
    rw [Recognised, if_pos hrem]
    intro _ o ho
    cases ho
  obtain ⟨htakes, hcopies⟩ := sync_to_empty_iff .levels GlobCrate.matching_levels []
    (.ofPages [.ok {}]) "s3://c/out/".toList _ _ (by decide +kernel) (by decide +kernel) hempty
  refine ⟨hempty, htakes.mpr hrecognised, ?_, by decide +kernel⟩
  obtain ⟨source, hsource⟩ : ∃ source, collectSourceObjects (.ofKeys ["x", "d/y"])
      (.ofString "s3://b/*") {} true noFilters = .ok source := ⟨_, rfl⟩
  exact (hcopies hrecognised _ _ {} noFilters true source rfl hsource).mpr namesApart_two

/-- Syncing a bucket with the object `x` into the missing directory `out` is not
planned: the glob of the destination has no match. -/
theorem sync_to_missing_directory :
    EmptyDest .levels [] ⟨fun _ => .error .noObjectFound, .empty⟩ (.ofString "out")
        (.ofString "out/*") ∧
      (okD (collectSourceObjects (.ofKeys ["x"]) (.ofString "s3://b/*") {} true noFilters) ∅).keys =
        ["x".toList] ∧
      ¬ CopiesAll (.ofKeys ["x"]) ⟨fun _ => .error .noObjectFound, .empty⟩ (.ofString "s3://b/*")
        (.ofString "out") {} noFilters true := by
  refine ⟨?_, by decide +kernel, ?_⟩
  · rw [EmptyDest, if_neg (by decide +kernel)]
    refine ⟨⟨LocalFs.empty_conforms _, LocalFs.lexical_empty, ?_⟩, ?_⟩
    · intro found hfound obj hobj
      obtain rfl := Except.ok.inj hfound
      cases hobj
    · intro base u hfile
      exfalso
      cases hfile with
      | walked _ hroot hmem => cases hmem
      | matched _ hglob he =>
        obtain rfl := Except.ok.inj hglob
        cases he
      | below _ hglob he =>
        obtain rfl := Except.ok.inj hglob
        cases he
  · rintro ⟨plan, hplan, -⟩
    have hnone : (syncPlan (.ofKeys ["x"]) ⟨fun _ => .error .noObjectFound, .empty⟩
        (.ofString "s3://b/*") (.ofString "out") {} noFilters).toOption.isSome = false := by
      decide +kernel
    rw [hplan] at hnone
    cases hnone

end Rs5cmd
