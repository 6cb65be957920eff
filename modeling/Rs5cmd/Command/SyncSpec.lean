import Rs5cmd.Command.Sync
import Rs5cmd.Lib.Maps

/-!
# What a sync plan contains

One spec lemma for each half of the planning code: which keys the two
collection loops put into their maps, and which copies and deletions the
partition makes of two maps.
-/

namespace Rs5cmd

/-! ## The partition -/

/-- Whether the partition copies a source object, given what the destination
holds under the same key. -/
def Copies (strategy : SyncStrategy) (obj : Object) : Option Object → Bool
  | some dstObj => strategy.shouldSync obj dstObj
  | none => true

/-- One iteration, in terms of the entry's counterpart. -/
theorem partitionStep_eq {strategy : SyncStrategy} {dst : Url} {isBatch : Bool}
    {acc : List (Url × Url) × ObjectMap} {k : Str} {obj : Object} {u : Url}
    (hu : obj.url = some u) :
    partitionStep strategy dst isBatch acc (k, obj) =
      (acc.1 ++ (if Copies strategy obj acc.2[k]? then
          [(u, generateDestinationUrl u dst isBatch)] else []), acc.2.erase k) := by
  simp only [partitionStep, hu]
  cases hd : acc.2[k]? with
  | none => simp [Copies]
  | some d =>
    cases hs : strategy.shouldSync obj d <;> simp [Copies, hs]

/-- Every entry of the map has a URL. -/
def HasUrls (m : ObjectMap) : Prop := ∀ (k : Str) (obj : Object), m[k]? = some obj → obj.url.isSome = true

/-- The loop over a list of entries with distinct keys, all of which have
URLs: what is copied, and what is left of the destination. -/
theorem foldl_partitionStep (strategy : SyncStrategy) (dst : Url) (isBatch : Bool)
    (es : List (Str × Object)) (hnd : (es.map Prod.fst).Nodup)
    (hurl : ∀ e ∈ es, e.2.url.isSome = true) (acc : List (Url × Url)) (m : ObjectMap) :
    (∀ p, p ∈ (es.foldl (partitionStep strategy dst isBatch) (acc, m)).1 ↔
      p ∈ acc ∨ ∃ e ∈ es, e.2.url = some p.1 ∧ p.2 = generateDestinationUrl p.1 dst isBatch ∧
        Copies strategy e.2 m[e.1]? = true) ∧
    (∀ k, (es.foldl (partitionStep strategy dst isBatch) (acc, m)).2[k]? =
      if k ∈ es.map Prod.fst then none else m[k]?) := by
  induction es generalizing acc m with
  | nil => simp
  | cons e es ih =>
    obtain ⟨k, obj⟩ := e
    obtain ⟨hk, hnd'⟩ := List.nodup_cons.mp hnd
    obtain ⟨u, hu⟩ := Option.isSome_iff_exists.mp (hurl (k, obj) (List.mem_cons_self))
    have hstep : partitionStep strategy dst isBatch (acc, m) (k, obj) = _ := partitionStep_eq hu
    obtain ⟨ih1, ih2⟩ := ih hnd' (fun e he => hurl e (List.mem_cons_of_mem _ he))
      (acc ++ (if Copies strategy obj m[k]? then
          [(u, generateDestinationUrl u dst isBatch)] else [])) (m.erase k)
    rw [List.foldl_cons, hstep]
    constructor
    · -- the entries still to come have other keys, so their counterparts are unchanged
      intro p
      rw [ih1]
      have hother : ∀ e ∈ es, (m.erase k)[e.1]? = m[e.1]? := by
        intro e he
        refine Maps.getElem?_erase_of_ne ?_
        intro heq
        exact hk (List.mem_map.mpr ⟨e, he, heq.symm⟩)
      constructor
      · rintro (hp | ⟨e, he, hurl', hgen, hcop⟩)
        · rcases List.mem_append.mp hp with hp | hp
          · exact Or.inl hp
          · right
            cases hcop : Copies strategy obj m[k]? with
            | false => simp [hcop] at hp
            | true =>
              rw [hcop, if_pos rfl, List.mem_singleton] at hp
              subst hp
              exact ⟨(k, obj), List.mem_cons_self, hu, rfl, hcop⟩
        · rw [hother e he] at hcop
          exact Or.inr ⟨e, List.mem_cons_of_mem _ he, hurl', hgen, hcop⟩
      · rintro (hp | ⟨e, he, hurl', hgen, hcop⟩)
        · exact Or.inl (List.mem_append_left _ hp)
        · rcases List.mem_cons.mp he with rfl | he
          · left
            rw [hu] at hurl'
            obtain rfl := Option.some.inj hurl'
            refine List.mem_append_right _ ?_
            rw [if_pos hcop, List.mem_singleton, ← hgen]
          · right
            rw [← hother e he] at hcop
            exact ⟨e, he, hurl', hgen, hcop⟩
    · intro k'
      rw [ih2]
      by_cases hkk : k = k'
      · subst hkk
        simp
      · simp only [Maps.getElem?_erase_of_ne hkk, List.map_cons, List.mem_cons, Ne.symm hkk, false_or]

theorem nodup_keys_toList (m : ObjectMap) : (m.toList.map Prod.fst).Nodup := by
  have h := Std.ExtTreeMap.distinct_keys_toList (t := m)
  rw [List.Nodup, List.pairwise_map]
  refine h.imp ?_
  intro a b hab heq
  exact hab (by rw [heq]; exact Std.ReflCmp.compare_self)

/-- **The copies of a plan**: every source object the strategy selects, at its
generated destination. -/
theorem mem_toCopy {strategy : SyncStrategy} {dst : Url} {isBatch delete : Bool}
    {source dest : ObjectMap} (hs : HasUrls source) {p : Url × Url} :
    p ∈ (partition strategy dst isBatch delete source dest).toCopy ↔
      ∃ (k : Str) (obj : Object), source[k]? = some obj ∧ obj.url = some p.1 ∧
        p.2 = generateDestinationUrl p.1 dst isBatch ∧ Copies strategy obj dest[k]? = true := by
  have hurl : ∀ e ∈ source.toList, e.2.url.isSome = true := fun e he =>
    hs e.1 e.2 (Std.ExtTreeMap.mem_toList_iff_getElem?_eq_some.mp he)
  have h := (foldl_partitionStep strategy dst isBatch source.toList (nodup_keys_toList source) hurl
    [] dest).1 p
  rw [partition, h]
  constructor
  · rintro (hp | ⟨e, he, h1, h2, h3⟩)
    · simp at hp
    · exact ⟨e.1, e.2, Std.ExtTreeMap.mem_toList_iff_getElem?_eq_some.mp he, h1, h2, h3⟩
  · rintro ⟨k, obj, he, h1, h2, h3⟩
    exact Or.inr ⟨(k, obj), Std.ExtTreeMap.mem_toList_iff_getElem?_eq_some.mpr he, h1, h2, h3⟩

/-- **The deletions of a plan**: every destination object whose key is no source
key. -/
theorem mem_toDelete {strategy : SyncStrategy} {dst : Url} {isBatch : Bool}
    {source dest : ObjectMap} (hs : HasUrls source) {u : Url} :
    u ∈ (partition strategy dst isBatch true source dest).toDelete ↔
      ∃ (k : Str) (obj : Object), dest[k]? = some obj ∧ obj.url = some u ∧ source[k]? = none := by
  have hurl : ∀ e ∈ source.toList, e.2.url.isSome = true := fun e he =>
    hs e.1 e.2 (Std.ExtTreeMap.mem_toList_iff_getElem?_eq_some.mp he)
  have h := (foldl_partitionStep strategy dst isBatch source.toList (nodup_keys_toList source) hurl
    [] dest).2
  have hkey : ∀ k, k ∈ source.toList.map Prod.fst ↔ source[k]? ≠ none := by
    intro k
    constructor
    · intro hk
      obtain ⟨e, he, rfl⟩ := List.mem_map.mp hk
      rw [Std.ExtTreeMap.mem_toList_iff_getElem?_eq_some.mp he]
      simp
    · intro hk
      obtain ⟨obj, hobj⟩ := Option.ne_none_iff_exists'.mp hk
      exact List.mem_map.mpr ⟨(k, obj), Std.ExtTreeMap.mem_toList_iff_getElem?_eq_some.mpr hobj, rfl⟩
  simp only [partition, if_true, List.mem_filterMap]
  constructor
  · rintro ⟨⟨k, obj⟩, he, hu⟩
    have hk := Std.ExtTreeMap.mem_toList_iff_getElem?_eq_some.mp he
    rw [h k] at hk
    split at hk
    · simp at hk
    · rename_i hnk
      exact ⟨k, obj, hk, hu, by_contra fun hne => hnk ((hkey k).mpr hne)⟩
  · rintro ⟨k, obj, hd, hu, hnone⟩
    refine ⟨(k, obj), ?_, hu⟩
    rw [Std.ExtTreeMap.mem_toList_iff_getElem?_eq_some, h k, if_neg]
    · exact hd
    · intro hk
      exact (hkey k).mp hk hnone

/-! ## Collecting the source -/

/-- Every object of the map is filed under the name it has at the destination. -/
def Keyed (isBatch : Bool) (m : ObjectMap) : Prop :=
  ∀ (k : Str) (obj : Object), m[k]? = some obj → ∃ u, obj.url = some u ∧ objname u isBatch = k

theorem Keyed.hasUrls {isBatch : Bool} {m : ObjectMap} (h : Keyed isBatch m) : HasUrls m := by
  intro k obj hobj
  obtain ⟨u, hu, -⟩ := h k obj hobj
  simp [hu]

theorem keyed_empty (isBatch : Bool) : Keyed isBatch ∅ := by
  intro k obj h
  simp at h

theorem Keyed.insert {isBatch : Bool} {m : ObjectMap} (h : Keyed isBatch m) {k : Str} {obj : Object}
    {u : Url} (hu : obj.url = some u) (hk : objname u isBatch = k) : Keyed isBatch (m.insert k obj) := by
  intro k' obj' h'
  by_cases heq : k = k'
  · subst heq
    rw [Std.ExtTreeMap.getElem?_insert_self] at h'
    obtain rfl := Option.some.inj h'
    exact ⟨u, hu, hk⟩
  · rw [Maps.getElem?_insert_of_ne heq] at h'
    exact h k' obj' h'

theorem fillChecksum_url (fs : LocalFs) (checksum : Bool) (u : Url) (obj : Object) :
    (fillChecksum fs checksum u obj).url = obj.url := by
  unfold fillChecksum
  split
  · split <;> rfl
  · rfl

/-- What is kept of a listed source object. -/
theorem keptKey_eq_some {filters : Filters} {force : Bool} {obj : Object} {k : Str} {u : Url} :
    keptKey filters force obj = some (k, u) ↔
      obj.typ.isDir = false ∧ skipGlacier obj.storageClass force = false ∧ obj.url = some u ∧
        u.relative = k ∧ filters.shouldSkip k = false := by
  constructor
  · intro h
    unfold keptKey at h
    split at h
    · cases h
    · rename_i hd
      split at h
      · cases h
      · rename_i hg
        split at h
        · cases h
        · rename_i v hv
          split at h
          · cases h
          · rename_i hf
            obtain ⟨rfl, rfl⟩ := Prod.mk.inj (Option.some.inj h)
            exact ⟨by simpa using hd, by simpa using hg, hv, rfl, by simpa using hf⟩
  · rintro ⟨hd, hg, hu, rfl, hf⟩
    simp [keptKey, hd, hg, hu, hf]

/-- **The source loop.** It returns a map iff no listed object is an error; the
keys are those of the objects kept, and every object is filed under its name. -/
theorem collectListed_ok {fs : LocalFs} {src : Url} {filters : Filters} {checksum force : Bool}
    {objs : List Object} {map m : ObjectMap}
    (h : collectListed fs src filters checksum force objs map = .ok m) :
    (∀ obj ∈ objs, obj.err = none) ∧ (Keyed true map → Keyed true m) ∧
      ∀ k, k ∈ m ↔ k ∈ map ∨ ∃ obj ∈ objs, ∃ u, keptKey filters force obj = some (k, u) := by
  induction objs generalizing map with
  | nil =>
    obtain rfl := Except.ok.inj h
    simp
  | cons obj rest ih =>
    unfold collectListed at h
    cases he : obj.err with
    | some err =>
      rw [he] at h
      dsimp only at h
      split at h <;> cases h
    | none =>
      rw [he] at h
      cases hk : keptKey filters force obj with
      | none =>
        rw [hk] at h
        obtain ⟨h1, h2, h3⟩ := ih h
        refine ⟨?_, h2, fun k => ?_⟩
        · simpa [he] using h1
        · simp [h3 k, hk]
      | some ku =>
        obtain ⟨key, u⟩ := ku
        rw [hk] at h
        obtain ⟨h1, h2, h3⟩ := ih h
        obtain ⟨-, -, hu, hrel, -⟩ := keptKey_eq_some.mp hk
        refine ⟨?_, fun hmap => h2 (hmap.insert ?_ hrel), fun k => ?_⟩
        · simpa [he] using h1
        · rw [fillChecksum_url, hu]
        · rw [h3 k, Std.ExtTreeMap.mem_insert, Std.LawfulEqCmp.compare_eq_iff_eq]
          constructor
          · rintro ((rfl | hm) | ⟨o, ho, v, hv⟩)
            · exact Or.inr ⟨obj, List.mem_cons_self, u, hk⟩
            · exact Or.inl hm
            · exact Or.inr ⟨o, List.mem_cons_of_mem _ ho, v, hv⟩
          · rintro (hm | ⟨o, ho, v, hv⟩)
            · exact Or.inl (Or.inr hm)
            · rcases List.mem_cons.mp ho with rfl | ho
              · rw [hk] at hv
                exact Or.inl (Or.inl (Prod.mk.inj (Option.some.inj hv)).1)
              · exact Or.inr ⟨o, ho, v, hv⟩

/-- Without errors in the listing the source loop returns a map. -/
theorem exists_collectListed (fs : LocalFs) (src : Url) (filters : Filters) (checksum force : Bool)
    {objs : List Object} (h : ∀ obj ∈ objs, obj.err = none) (map : ObjectMap) :
    ∃ m, collectListed fs src filters checksum force objs map = .ok m := by
  induction objs generalizing map with
  | nil => exact ⟨map, rfl⟩
  | cons obj rest ih =>
    have hrest := ih fun o ho => h o (List.mem_cons_of_mem obj ho)
    rw [collectListed, h obj List.mem_cons_self]
    dsimp only
    split
    · exact hrest map
    · exact hrest _

/-- The objects of the source map are those listed. -/
theorem collectListed_value {fs : LocalFs} {src : Url} {filters : Filters} {checksum force : Bool}
    {objs : List Object} {map m : ObjectMap}
    (h : collectListed fs src filters checksum force objs map = .ok m) {k : Str} {obj : Object}
    (hm : m[k]? = some obj) :
    map[k]? = some obj ∨ ∃ o ∈ objs, ∃ u, keptKey filters force o = some (k, u) ∧
      obj = fillChecksum fs checksum u o := by
  induction objs generalizing map with
  | nil =>
    obtain rfl := Except.ok.inj h
    exact .inl hm
  | cons o rest ih =>
    have hlift : (∃ o' ∈ rest, ∃ u, keptKey filters force o' = some (k, u) ∧
          obj = fillChecksum fs checksum u o') →
        ∃ o' ∈ o :: rest, ∃ u, keptKey filters force o' = some (k, u) ∧
          obj = fillChecksum fs checksum u o' := by
      rintro ⟨o', ho', hrest⟩
      exact ⟨o', List.mem_cons_of_mem o ho', hrest⟩
    unfold collectListed at h
    cases he : o.err with
    | some err =>
      rw [he] at h
      dsimp only at h
      split at h <;> cases h
    | none =>
      rw [he] at h
      cases hk : keptKey filters force o with
      | none =>
        rw [hk] at h
        exact (ih h).imp_right hlift
      | some ku =>
        obtain ⟨key, u⟩ := ku
        rw [hk] at h
        rcases ih h with hmap | hrest
        · by_cases heq : key = k
          · subst heq
            rw [Std.ExtTreeMap.getElem?_insert_self] at hmap
            exact .inr ⟨o, List.mem_cons_self, u, hk, (Option.some.inj hmap).symm⟩
          · rw [Maps.getElem?_insert_of_ne heq] at hmap
            exact .inl hmap
        · exact .inr (hlift hrest)

/-- The last object listed under a name is the one that is kept. -/
theorem collectListed_last {fs : LocalFs} {src : Url} {filters : Filters} {checksum force : Bool}
    {objs : List Object} {last : Object} {map m : ObjectMap}
    (h : collectListed fs src filters checksum force (objs ++ [last]) map = .ok m) {k : Str}
    {u : Url} (hk : keptKey filters force last = some (k, u)) :
    m[k]? = some (fillChecksum fs checksum u last) := by
  induction objs generalizing map with
  | nil =>
    have herr : last.err = none := (collectListed_ok h).1 last (by simp)
    simp only [List.nil_append, collectListed, herr, hk, Except.ok.injEq] at h
    rw [← h, Std.ExtTreeMap.getElem?_insert_self]
  | cons o rest ih =>
    have herr : o.err = none := (collectListed_ok h).1 o (by simp)
    rw [List.cons_append, collectListed, herr] at h
    dsimp only at h
    split at h
    · exact ih h
    · exact ih h

/-- A stat that succeeds returns the URL it was asked for. -/
theorem Client.stat_url {c : Client} {u : Url} {obj : Object} (h : c.stat u = .ok obj) :
    obj.url = some u := by
  cases c with
  | remote s3 =>
    simp only [Client.stat, S3.stat] at h
    split at h
    · rw [← Except.ok.inj h]
    · cases h
    · cases h
  | loc fs =>
    simp only [Client.stat, LocalFs.statSync] at h
    split at h
    · cases h
    · cases h
    · rw [← Except.ok.inj h]

/-- The objects of the source map are filed under their destination names. -/
theorem collectSourceObjects_keyed {b : Backend} {src : Url} {args : SyncArgs} {isBatch : Bool}
    {filters : Filters} {m : ObjectMap}
    (h : collectSourceObjects b src args isBatch filters = .ok m) : Keyed isBatch m := by
  unfold collectSourceObjects at h
  cases hc : b.newClient src with
  | error e =>
    rw [hc] at h
    cases h
  | ok client =>
    rw [hc] at h
    cases isBatch with
    | true =>
      have h' : collectListed b.fs src filters args.checksum args.forceGlacierTransfer
          (client.list src args.followSymlinks) ∅ = .ok m := h
      exact (collectListed_ok h').2.1 (keyed_empty true)
    | false =>
      cases hs : client.stat src with
      | error e =>
        simp [bind, Except.bind, hs] at h
      | ok obj =>
        have h' : collectSingle b.fs src filters args.checksum obj = m := by
          simpa [bind, Except.bind, pure, Except.pure, hs] using h
        rw [← h', collectSingle]
        split
        · exact keyed_empty false
        · split
          · exact keyed_empty false
          · refine (keyed_empty false).insert (u := src) ?_ rfl
            rw [fillChecksum_url, Client.stat_url hs]
            rfl

/-! ## Collecting the destination -/

/-- What is kept of a listed destination object. -/
theorem destKey_eq_some {filters : Filters} {obj : Object} {k : Str} :
    destKey filters obj = some k ↔
      obj.typ.isDir = false ∧ ∃ u, obj.url = some u ∧ u.relative = k ∧
        filters.shouldSkip k = false := by
  constructor
  · intro h
    unfold destKey at h
    split at h
    · cases h
    · rename_i hd
      split at h
      · cases h
      · rename_i v hv
        split at h
        · cases h
        · rename_i hf
          obtain rfl := Option.some.inj h
          exact ⟨by simpa using hd, v, hv, rfl, by simpa using hf⟩
  · rintro ⟨hd, u, hu, rfl, hf⟩
    simp [destKey, hd, hu, hf]

/-- **The destination loop**: every object of the map was listed and is filed
under its relative path. -/
theorem collectDestListed_ok {dst : Url} {filters : Filters} {objs : List Object}
    {map m : ObjectMap} (h : collectDestListed dst filters objs map = .ok m) {k : Str} {obj : Object}
    (hm : m[k]? = some obj) :
    map[k]? = some obj ∨ (obj ∈ objs ∧ obj.err = none ∧ destKey filters obj = some k) := by
  induction objs generalizing map with
  | nil =>
    obtain rfl := Except.ok.inj h
    exact Or.inl hm
  | cons o rest ih =>
    unfold collectDestListed at h
    cases he : o.err with
    | some err =>
      rw [he] at h
      dsimp only at h
      split at h
      · rcases ih h with hmap | ⟨ho, hrest⟩
        · exact Or.inl hmap
        · exact Or.inr ⟨List.mem_cons_of_mem _ ho, hrest⟩
      · split at h <;> cases h
    | none =>
      rw [he] at h
      cases hk : destKey filters o with
      | none =>
        rw [hk] at h
        rcases ih h with hmap | ⟨ho, hrest⟩
        · exact Or.inl hmap
        · exact Or.inr ⟨List.mem_cons_of_mem _ ho, hrest⟩
      | some key =>
        rw [hk] at h
        rcases ih h with hmap | ⟨ho, hrest⟩
        · by_cases heq : key = k
          · subst heq
            rw [Std.ExtTreeMap.getElem?_insert_self] at hmap
            obtain rfl := Option.some.inj hmap
            exact Or.inr ⟨List.mem_cons_self, he, hk⟩
          · rw [Maps.getElem?_insert_of_ne heq] at hmap
            exact Or.inl hmap
        · exact Or.inr ⟨List.mem_cons_of_mem _ ho, hrest⟩

/-- The destination loop returns a map unless an error other than a missing
destination is listed. -/
theorem exists_collectDestListed (dst : Url) (filters : Filters) {objs : List Object}
    (h : ∀ obj ∈ objs, ∀ e, obj.err = some e → isMissing e = true) (map : ObjectMap) :
    ∃ m, collectDestListed dst filters objs map = .ok m := by
  induction objs generalizing map with
  | nil => exact ⟨map, rfl⟩
  | cons obj rest ih =>
    have hrest := ih fun o ho => h o (List.mem_cons_of_mem obj ho)
    unfold collectDestListed
    cases he : obj.err with
    | some e =>
      dsimp only
      rw [if_pos (h obj List.mem_cons_self e he)]
      exact hrest map
    | none =>
      dsimp only
      split
      · exact hrest map
      · exact hrest _

/-- The destination map has every name that is kept. -/
theorem mem_of_destKey {dst : Url} {filters : Filters} {objs : List Object} {map m : ObjectMap}
    (h : collectDestListed dst filters objs map = .ok m) :
    (∀ k ∈ map, k ∈ m) ∧ ∀ obj ∈ objs, obj.err = none → ∀ k, destKey filters obj = some k → k ∈ m := by
  induction objs generalizing map with
  | nil =>
    obtain rfl := Except.ok.inj h
    exact ⟨fun _ hk => hk, by simp⟩
  | cons o rest ih =>
    unfold collectDestListed at h
    cases he : o.err with
    | some err =>
      rw [he] at h
      dsimp only at h
      split at h
      · obtain ⟨hmap, hrest⟩ := ih h
        refine ⟨hmap, fun obj hobj herr => ?_⟩
        rcases List.mem_cons.mp hobj with rfl | hobj
        · rw [he] at herr
          cases herr
        · exact hrest obj hobj herr
      · split at h <;> cases h
    | none =>
      rw [he] at h
      cases hk : destKey filters o with
      | none =>
        rw [hk] at h
        obtain ⟨hmap, hrest⟩ := ih h
        refine ⟨hmap, fun obj hobj herr k hkey => ?_⟩
        rcases List.mem_cons.mp hobj with rfl | hobj
        · rw [hk] at hkey
          cases hkey
        · exact hrest obj hobj herr k hkey
      | some key =>
        rw [hk] at h
        obtain ⟨hmap, hrest⟩ := ih h
        refine ⟨fun k hkm => hmap k (Std.ExtTreeMap.mem_insert.mpr (.inr hkm)), ?_⟩
        intro obj hobj herr k hkey
        rcases List.mem_cons.mp hobj with rfl | hobj
        · obtain rfl := Option.some.inj (hk.symm.trans hkey)
          exact hmap key Std.ExtTreeMap.mem_insert_self
        · exact hrest obj hobj herr k hkey

/-! ## The whole plan -/

/-- What the groups that come out were made of. -/
theorem syncGroups_ok {bs bd : Backend} {src dst : Url} {args : SyncArgs} {filters : Filters}
    {plan : SyncPlan} (h : syncGroups bs bd src dst args filters = .ok plan) :
    ∃ isBatch source dest, isSourceBatch bs src = .ok isBatch ∧
      collectSourceObjects bs src args isBatch filters = .ok source ∧
      collectDestObjects bd dst filters = .ok dest ∧
      plan = partition (.new args.sizeOnly args.checksum) dst isBatch args.delete source dest := by
  unfold syncGroups at h
  cases hb : isSourceBatch bs src with
  | error e => simp [hb, bind, Except.bind] at h
  | ok isBatch =>
    cases hs : collectSourceObjects bs src args isBatch filters with
    | error e => simp [hb, hs, bind, Except.bind] at h
    | ok source =>
      cases hd : collectDestObjects bd dst filters with
      | error e => simp [hb, hs, hd, bind, Except.bind] at h
      | ok dest =>
        simp only [hb, hs, hd, bind, Except.bind, pure, Except.pure] at h
        exact ⟨isBatch, source, dest, rfl, hs, rfl, (Except.ok.inj h).symm⟩

/-- The groups come out whenever both collections do. -/
theorem syncGroups_of_collect {bs bd : Backend} {src dst : Url} {args : SyncArgs}
    {filters : Filters} {isBatch : Bool} {source dest : ObjectMap}
    (hb : isSourceBatch bs src = .ok isBatch)
    (hs : collectSourceObjects bs src args isBatch filters = .ok source)
    (hd : collectDestObjects bd dst filters = .ok dest) :
    syncGroups bs bd src dst args filters =
      .ok (partition (.new args.sizeOnly args.checksum) dst isBatch args.delete source dest) := by
  simp [syncGroups, hb, hs, hd, bind, Except.bind, pure, Except.pure]

/-- A plan under the cap is the uncapped one. -/
theorem syncPlan_ok {bs bd : Backend} {src dst : Url} {args : SyncArgs} {filters : Filters}
    {plan : SyncPlan} (h : syncPlan bs bd src dst args filters = .ok plan) :
    syncGroups bs bd src dst args filters = .ok plan := by
  unfold syncPlan at h
  cases hg : syncGroups bs bd src dst args filters with
  | error e => simp [hg, bind, Except.bind] at h
  | ok groups =>
    simp only [hg, bind, Except.bind, pure, Except.pure] at h
    split at h
    · split at h
      · cases h
      · exact h
    · exact h

/-! ## Results that came out -/

/-- The value of a result, or a default. -/
def okD {α : Type} (r : Except StorageError α) (d : α) : α := r.toOption.getD d

theorem eq_ok_okD {α : Type} {r : Except StorageError α} (d : α) (h : r.toOption.isSome = true) :
    r = .ok (okD r d) := by
  cases r with
  | ok a => rfl
  | error e => cases h

end Rs5cmd
