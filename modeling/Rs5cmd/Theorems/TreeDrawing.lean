import Rs5cmd.Lib.Outline
import Rs5cmd.Theorems.InKeyOrder
import Rs5cmd.Theorems.SyncListing
import Rs5cmd.Theorems.TreeDepth

/-!
# What `tree` draws of a bucket

A line that `tree` prints is read back as how deep it is and what it names. Read so, the
drawing of a bucket is the outline of the keys below the target.
-/

namespace Rs5cmd

open TreeNode

/-! ## Reading a drawing -/

/-- How many levels a line is indented by, and what stands after its connector. -/
def TreeNode.readLine : Str → Nat × Str
  | '│' :: ' ' :: ' ' :: ' ' :: line => ((readLine line).1 + 1, (readLine line).2)
  | ' ' :: ' ' :: ' ' :: ' ' :: line => ((readLine line).1 + 1, (readLine line).2)
  | line => (0, line.drop 4)

/-- The paths that the lines of a drawing stand for. -/
def readDrawing (lines : List Str) : List (List Str) := Forest.readOutline [] (lines.map readLine)

/-- An indentation by `d` levels. -/
def Indents (indent : Str) (d : Nat) : Prop :=
  ∀ line, readLine (indent ++ line) = ((readLine line).1 + d, (readLine line).2)

theorem indents_nil : Indents [] 0 := fun _ => rfl

theorem Indents.block {indent : Str} {d : Nat} (h : Indents indent d) (last : Bool) :
    Indents (indent ++ (if last then "    " else "│   ").toList) (d + 1) := by
  intro line
  rw [List.append_assoc, h]
  cases last with
  | true =>
    show ((readLine line).1 + 1 + d, _) = _
    rw [Nat.add_assoc, Nat.add_comm 1 d]
    rfl
  | false =>
    show ((readLine line).1 + 1 + d, _) = _
    rw [Nat.add_assoc, Nat.add_comm 1 d]
    rfl

/-- The connector of a line is no indentation. -/
theorem readLine_connector (last : Bool) (name : Str) :
    readLine ((if last then "└── " else "├── ").toList ++ name) = (0, name) := by
  cases last with
  | true => rfl
  | false => rfl

/-- **Without sizes, the lines are the outline of the tree.** -/
theorem readLine_printChildren (root : Children) {indent : Str} {d : Nat} (h : Indents indent d) :
    (printChildren false root indent).map readLine = root.outline d := by
  induction root generalizing indent d with
  | nil => rfl
  | cons name child children rest ihChildren ihRest =>
    have hname : format name child children false = name := by
      simp only [format, Bool.and_false, Bool.false_eq_true, if_false]
    have hhead : readLine (indent ++ (if rest.isEmpty then "└── " else "├── ").toList ++ name) =
        (d, name) := by
      rw [List.append_assoc, h, readLine_connector, Nat.zero_add]
    simp only [printChildren, hname, List.map_cons, List.map_append, Forest.outline]
    rw [hhead, ihChildren (h.block rest.isEmpty), ihRest h]

/-! ## The drawing of a listing -/

/-- The levels of a relative path that `--depth` leaves. -/
def TreeArgs.levels (args : TreeArgs) (r : Str) : List Str := TreeNode.filled (args.segments r)

/-- With nothing to show, nothing is collected. -/
theorem TreeArgs.collect_depth_zero {args : TreeArgs} (hdepth : args.depth = some 0)
    (objs : List Object) (hok : ∀ o ∈ objs, o.err = none) (root : Children) (collected : Nat) :
    args.collect objs root collected = .ok root := by
  induction objs with
  | nil => rfl
  | cons obj objs ih =>
    have hrest := ih fun o ho => hok o (List.mem_cons_of_mem obj ho)
    rw [collect, hok obj List.mem_cons_self]
    simp only [if_pos hdepth, hrest, ite_self]

/-- What is collected is the tree of the levels of the keys. -/
theorem TreeArgs.exists_collect {args : TreeArgs} (hlimit : args.limit = none) {objs : List Object}
    (hok : ∀ o ∈ objs, o.err = none) :
    ∃ root : Children, args.collect objs .nil 0 = .ok root ∧ root.Sorted ∧
      ∀ q, (root.value? q).isSome = true ↔ q ≠ [] ∧ ∃ o ∈ objs, q <+: args.levels o.treeKey := by
  by_cases hdepth : args.depth = some 0
  · refine ⟨.nil, collect_depth_zero hdepth objs hok .nil 0, .nil, fun q => ?_⟩
    have hlevels (r : Str) : args.levels r = [] := by
      rw [levels, segments, hdepth]
      rfl
    simp only [hlevels, List.prefix_nil]
    constructor
    · intro hsome
      cases hsome
    · rintro ⟨hne, o, -, hnil⟩
      exact absurd hnil hne
  · refine ⟨build (objs.map (Object.insertion fun o => args.levels o.treeKey)), ?_, sorted_build _,
      fun q => ?_⟩
    · rw [collect_eq hlimit hdepth objs hok, build, List.foldl_map]
      rfl
    · rw [value?_build, nodeAt, ← Object.reached_iff]
      split
      · rename_i h
        exact ⟨fun _ => h, fun _ => rfl⟩
      · rename_i h
        exact ⟨fun hsome => (by cases hsome), fun hq => absurd hq h⟩

/-- **A drawing is faithful**: its lines are read back as the levels of the keys listed, in
order. -/
theorem TreeArgs.run_read {args : TreeArgs} (hsize : args.size = false) (hlimit : args.limit = none)
    (display : Str) {objs : List Object} (hok : ∀ o ∈ objs, o.err = none) :
    ∃ lines, args.run display objs = .ok (display :: lines) ∧
      (readDrawing lines).Pairwise (· < ·) ∧
      ∀ q, q ∈ readDrawing lines ↔ q ≠ [] ∧ ∃ o ∈ objs, q <+: args.levels o.treeKey := by
  obtain ⟨root, hcollect, hsorted, hvalue⟩ := exists_collect hlimit hok
  refine ⟨printChildren false root [], ?_, ?_⟩
  · rw [run, hcollect, hsize]
    rfl
  · rw [readDrawing, readLine_printChildren root indents_nil, Forest.readOutline_outline]
    exact ⟨hsorted.pairwise_paths, fun q => hsorted.mem_paths.trans (hvalue q)⟩

/-! ## The listing of a target -/

/-- The pattern that a remote target is listed with. -/
def Url.treeListing (url : Url) : Url :=
  .parsed .remote "s3".toList url.bucket (listingKey url ++ ['*']) {}

section Target

variable {target : Str} {url : Url}

theorem treeTarget_eq (h : Url.parse target = .ok url) (hrem : url.isRemote = true) :
    treeTarget url = listingPath url := by
  unfold treeTarget listingPath
  rw [if_pos hrem]
  by_cases hbucket : url.isBucket = true
  · -- a bucket root: its last character is not a slash
    obtain ⟨hurl, hb⟩ := Url.remote_of_new rfl h hrem
    have hpath : url.path = [] := by simpa [Url.isBucket, hrem] using hbucket
    have hend : Str.endsWith '/' url.absolute = false := by
      rw [Url.absolute, if_pos hrem, Url.remoteUrl, hpath, if_pos rfl, List.append_nil,
        Str.endsWith_append _ _ hb.ne_nil]
      exact Str.endsWith_of_not_mem hb.slash
    simp only [hbucket, hend, if_true, Bool.false_eq_true, if_false]
    rfl
  · rw [if_neg hbucket]
    rfl

theorem parse_treeTarget (h : Url.parse target = .ok url) (hrem : url.isRemote = true) :
    Url.parse (treeTarget url) = .ok url.treeListing := by
  rw [treeTarget_eq h hrem]
  exact parse_listing_remote h hrem

theorem isPattern_treeListing (h : Url.parse target = .ok url) (hrem : url.isRemote = true) :
    IsPattern url.treeListing := by
  apply isPattern_of_parse (parse_treeTarget h hrem) rfl
  show (!(false : Bool) && hasGlobCharacter (listingKey url ++ ['*'])) = true
  simp [hasGlobCharacter, isGlobChar]

end Target

/-- An object as the listing of a pattern shows it, under its own key. -/
def StoredObject.listedAs (o : StoredObject) (w : Url) : Object :=
  { o.listed w with url := some { w with relativePath := w.relativeOf o.key, path := o.key } }

section Listed

variable {w : Url} {enc : Str → Str} {objs : List StoredObject} {es : List Object}

/-- A pattern lists what matches it. -/
theorem IsPattern.mem_listed (hw : IsPattern w)
    (hdec : ∀ it ∈ (listV2Request w).items objs, percentDecode (enc it.name) = it.name) {obj : Object} :
    obj ∈ ((listV2Request w).items objs).filterMap (ListItem.listed enc w) ↔
      ∃ o ∈ objs, w.isMatch o.key = true ∧
        obj = o.listedAs w := by
  have hdelim : (listV2Request w).delimiter = none := by
    show nonEmpty w.delimiter = none
    rw [hw.parsed]
    exact if_pos (if_neg hw.glob)
  have hitem (o : StoredObject) (hm : w.isMatch o.key = true) :
      (listV2Request w).itemOf o = some (.object o) := by
    obtain ⟨t, ht⟩ := hw.keyPrefix_of_isMatch hm
    have hstrip : Str.stripPrefix (listV2Request w).keyPrefix o.key = some t :=
      Str.stripPrefix_eq_some.mpr ht.symm
    rw [ListRequest.itemOf, hstrip, hdelim]
    rfl
  have hlisted (o : StoredObject) (hin : ListItem.object o ∈ (listV2Request w).items objs) :
      (ListItem.object o).listed enc w = some obj ↔ w.isMatch o.key = true ∧ obj = o.listedAs w := by
    rw [listed_object (hdec _ hin), Url.matches?]
    split
    · rename_i hm
      rw [Option.map_some, Option.some.injEq, eq_comm]
      exact ⟨fun h => ⟨hm, h⟩, fun h => h.2⟩
    · rename_i hm
      exact ⟨fun h => (by cases h), fun h => absurd h.1 hm⟩
  rw [List.mem_filterMap]
  constructor
  · rintro ⟨it, hit, hobj⟩
    obtain ⟨o, rfl⟩ := exists_object_of_mem_items hdelim hit
    obtain ⟨o', ho', hitem'⟩ := mem_items.mp hit
    obtain rfl : o = o' := by
      rcases itemOf_cases hitem' with ⟨heq, -⟩ | ⟨a, d, -, heq⟩
      · exact ListItem.object.inj heq
      · cases heq
    exact ⟨o, ho', (hlisted o hit).mp hobj⟩
  · rintro ⟨o, ho, hm, hobj⟩
    have hin : ListItem.object o ∈ (listV2Request w).items objs := mem_items.mpr ⟨o, ho, hitem o hm⟩
    exact ⟨.object o, hin, (hlisted o hin).mpr ⟨hm, hobj⟩⟩

/-- `tree` files an object under the relative path that the listing reports. -/
theorem treeKey_listedAs (o : StoredObject) (w : Url) :
    (o.listedAs w).treeKey = remoteKey w o.key := rfl

end Listed

/-- **`tree` draws the bucket.** Without sizes and a limit, for a remote target and through
either listing API, with pages of any size: if no key matches the target's pattern the command
fails, and else it prints the target and a drawing, whose lines are read back, in order and
none twice, as the levels, down to `--depth`, of the relative paths of the matching keys: what
follows the base of the pattern, if anything does. -/
theorem tree_draws_bucket (b : Backend) (args : TreeArgs) (hsize : args.size = false)
    (hlimit : args.limit = none) (target : Str) (url : Url) (hurl : Url.parse target = .ok url)
    (hremote : url.isRemote = true) (s3 : S3) (hs3 : b.newS3 url = .ok s3) (enc : Str → Str)
    (objs : List StoredObject) (hserved : ServedWhole enc objs s3 url.treeListing) :
    ((∀ o ∈ objs, url.treeListing.isMatch o.key = false) →
      args.runOn b target = .error .noObjectFound) ∧
    ((∃ o ∈ objs, url.treeListing.isMatch o.key = true) →
      ∃ lines, args.runOn b target = .ok (url.absolute :: lines) ∧
        (readDrawing lines).Pairwise (· < ·) ∧
        ∀ q, q ∈ readDrawing lines ↔ q ≠ [] ∧ ∃ o ∈ objs, url.treeListing.isMatch o.key = true ∧
          q <+: args.levels (remoteKey url.treeListing o.key)) ∧
    ∀ r, r ≠ [] → url.treeListing.isMatch (treeBase url.treeListing ++ r) = true →
      remoteKey url.treeListing (treeBase url.treeListing ++ r) = r := by
  have hw := isPattern_treeListing hurl hremote
  have hrun : args.runOn b target = args.run url.absolute (s3.list url.treeListing) := by
    have hclient : b.newClient url = .ok (.remote s3) := by
      rw [Backend.newClient, if_pos hremote, hs3]
      rfl
    unfold TreeArgs.runOn
    rw [show Url.new target {} = .ok url from hurl]
    simp only
    rw [show Url.new (treeTarget url) {} = .ok url.treeListing from parse_treeTarget hurl hremote]
    simp only [hclient, Client.list]
  obtain ⟨es, hperm, herr, hlist⟩ := hserved.list hw.isVersioned rfl
  have hmem (obj : Object) : obj ∈ es ↔
      ∃ o ∈ objs, url.treeListing.isMatch o.key = true ∧ obj = o.listedAs url.treeListing :=
    hperm.mem_iff.trans (hw.mem_listed hserved.decodes)
  have hbucket : url.treeListing.isBucket = false := by
    show (true && (listingKey url ++ ['*']).isEmpty) = false
    simp
  rw [hrun, hlist]
  refine ⟨?_, ?_, fun r hr hm => hw.remoteKey_append (hw.keyPrefix_of_isMatch hm) hr⟩
  · intro hnone
    have hes : es = [] := by
      rw [List.eq_nil_iff_forall_not_mem]
      intro obj hobj
      obtain ⟨o, ho, hm, -⟩ := (hmem obj).mp hobj
      rw [hnone o ho] at hm
      cases hm
    have hend : listEnd url.treeListing false = [Object.withError .noObjectFound] := by
      rw [listEnd, hbucket]
      rfl
    rw [hes]
    show args.run url.absolute (listEnd url.treeListing false) = _
    rw [hend]
    rfl
  · rintro ⟨o, ho, hm⟩
    have hne : es ≠ [] := List.ne_nil_of_mem ((hmem _).mpr ⟨o, ho, hm, rfl⟩)
    have hend : listEnd url.treeListing (!es.isEmpty) = [] := by
      rw [List.isEmpty_eq_false_iff.mpr hne]
      rfl
    rw [hend, List.append_nil]
    obtain ⟨lines, hlines, hsorted, hread⟩ := TreeArgs.run_read hsize hlimit url.absolute herr
    refine ⟨lines, hlines, hsorted, fun q => (hread q).trans (and_congr_right fun _ => ?_)⟩
    constructor
    · rintro ⟨obj, hobj, hq⟩
      obtain ⟨o, ho, hm, rfl⟩ := (hmem obj).mp hobj
      exact ⟨o, ho, hm, hq⟩
    · rintro ⟨o, ho, hm, hq⟩
      exact ⟨_, (hmem _).mpr ⟨o, ho, hm, rfl⟩, (treeKey_listedAs o _).symm ▸ hq⟩

/-- `tree s3://b` shows a directory and what is in it. -/
theorem tree_draws_bucket_sample :
    ∃ lines, TreeArgs.runOn InKeyOrderSample.backend {} "s3://b".toList =
        .ok ("s3://b".toList :: lines) ∧
      (readDrawing lines).Pairwise (· < ·) ∧ ["x".toList] ∈ readDrawing lines ∧
      ["x".toList, "a".toList] ∈ readDrawing lines ∧ ["a".toList] ∉ readDrawing lines := by
  obtain ⟨-, hdrawn, -⟩ := tree_draws_bucket InKeyOrderSample.backend {} rfl rfl "s3://b".toList
    (.ofString "s3://b") (by decide +kernel) (by decide +kernel) InKeyOrderSample.s3 rfl
    urlEncode InKeyOrderSample.objs (InKeyOrderSample.servedWhole _ (by decide +kernel))
  obtain ⟨lines, hrun, hsorted, hread⟩ := hdrawn (by decide +kernel)
  have habs : (Url.ofString "s3://b").absolute = "s3://b".toList := by decide +kernel
  rw [habs] at hrun
  refine ⟨lines, hrun, hsorted, (hread _).mpr ?_, (hread _).mpr ?_, fun hmem => ?_⟩
  · exact ⟨List.cons_ne_nil _ _, { key := "x/a".toList, size := 1 }, by decide, by decide +kernel,
      by decide +kernel⟩
  · exact ⟨List.cons_ne_nil _ _, { key := "x/a".toList, size := 1 }, by decide, by decide +kernel,
      by decide +kernel⟩
  · obtain ⟨-, o, ho, -, hq⟩ := (hread _).mp hmem
    have hno : ∀ o ∈ InKeyOrderSample.objs, ¬ ["a".toList] <+:
        TreeArgs.levels {} (remoteKey (Url.treeListing (.ofString "s3://b")) o.key) := by
      decide +kernel
    exact hno o ho hq

end Rs5cmd
