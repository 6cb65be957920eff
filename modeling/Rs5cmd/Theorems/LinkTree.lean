import Rs5cmd.Theorems.CleanPath
import Rs5cmd.Theorems.LocalGlob
import Rs5cmd.Command.TransferSpec

/-!
# Trees of files and links

A local directory tree of regular files and symbolic links: the texts its entries are
shown as, the paths that lead to them, and what a walk that follows links comes by.
-/

namespace Rs5cmd

open LexPath

/-! ## Trees -/

/-- The name of a directory entry: its bytes, and the text that a lossy conversion shows
for them, which is a name as well. -/
structure OsName where
  bytes : List UInt8
  text : Name
  lossy : Utf8.decodeLossy bytes = text.val
  deriving DecidableEq

namespace OsName

/-- The bytes are valid UTF-8. -/
def IsText (n : OsName) : Prop := n.bytes = Utf8.encode n.text.val

instance (n : OsName) : Decidable n.IsText := inferInstanceAs (Decidable (_ = _))

/-- The name that is spelled like this. -/
def ofText (t : Name) : OsName := ⟨Utf8.encode t.val, t, Utf8.decodeLossy_encode t.val⟩

theorem IsText.eq {n : OsName} (h : n.IsText) : ofText n.text = n := by
  obtain ⟨bytes, text, lossy⟩ := n
  simp only [IsText] at h
  simp [ofText, h]

theorem isText_ofText (t : Name) : (ofText t).IsText := rfl

end OsName

/-- The texts of the names on the way to an entry. -/
def texts (names : List OsName) : List Name := names.map OsName.text

def ofTexts (ns : List Name) : List OsName := ns.map OsName.ofText

@[simp] theorem texts_ofTexts (ns : List Name) : texts (ofTexts ns) = ns := by
  rw [texts, ofTexts, List.map_map]
  exact List.map_id' ns

theorem ofTexts_texts {names : List OsName} (h : ∀ n ∈ names, n.IsText) :
    ofTexts (texts names) = names := by
  rw [texts, ofTexts, List.map_map]
  calc names.map (OsName.ofText ∘ OsName.text) = names.map id :=
        List.map_congr_left fun n hn => (h n hn).eq
    _ = names := List.map_id names

/-- A regular file with its bytes, or a link with its target and the kind of what it
leads to, if it leads anywhere. -/
inductive LinkNode where
  | file (bytes : List UInt8)
  | link (target : Str) (leadsTo : Option FileKind)
  deriving DecidableEq

namespace LinkNode

def content : LinkNode → Content
  | .file b => .bytes b
  | .link t _ => .link t

/-- What a walk that follows links takes the entry for. -/
def kind : LinkNode → Option FileKind
  | .file _ => some .file
  | .link _ k => k

/-- What the entry is itself. -/
def ownKind : LinkNode → FileKind
  | .file _ => .file
  | .link _ _ => .symlink

end LinkNode

/-- The files and links below a directory; nothing lies below one of them. -/
structure LinkTree where
  node : List OsName → Option LinkNode
  top : node [] = none
  leaf : ∀ v w, node v ≠ none → node w ≠ none → v <+: w → v = w

namespace LinkTree

variable (tree : LinkTree)

/-- The entry whose names are these texts. -/
def entry (ns : List Name) : Option LinkNode := tree.node (ofTexts ns)

/-- The paths, as they are shown, at which a walk that follows links comes by a regular
file: those of the entries that are one or lead to one, and any below a link that leads
to a directory. -/
def Walked (ns : List Name) : Prop :=
  ∃ names node, tree.node names = some node ∧
    (node.kind = some .file ∧ ns = texts names ∨
      node.kind = some .dir ∧ ∃ below, below ≠ [] ∧ ns = texts names ++ below)

end LinkTree

/-! ## Paths -/

/-- A spelling of a directory: it ends in a slash, no wildcard and no scheme is in it, and
it is not that of the working directory, out of which relative paths climb. -/
structure DirSpelling (dir : Str) : Prop where
  slash : Str.endsWith '/' dir = true
  literal : hasGlobCharacter dir = false
  noScheme : Str.splitOnce "://".toList dir = none
  notDot : locOf dir ≠ Loc.start false

/-- The path of the directory in which an entry lies: all but its last name. -/
def dirIn (dir : Str) (ns : List Name) : Str := if ns = [] then dir else spellIn dir ns ++ ['/']

section Paths

variable {dir : Str} {l : Loc Name}

theorem spellIn_concat (dir : Str) (ns : List Name) (n : Name) :
    spellIn dir (ns ++ [n]) = dirIn dir ns ++ n.val := by
  unfold dirIn
  split
  · rename_i hns
    subst hns
    simp [spellIn, Str.join]
  · rename_i hns
    have hmap : ns.map Subtype.val ≠ [] := fun hnil => hns (List.map_eq_nil_iff.mp hnil)
    rw [spellIn, List.map_append, List.map_singleton, join_concat hmap, spellIn]
    simp

theorem dirIn_slash (h : dir = [] ∨ Str.endsWith '/' dir = true) (ns : List Name) :
    dirIn dir ns = [] ∨ Str.endsWith '/' (dirIn dir ns) = true := by
  unfold dirIn
  split
  · exact h
  · exact .inr (by simp [Str.endsWith])

theorem prefix_spellIn (dir : Str) (ns : List Name) : dir <+: spellIn dir ns := List.prefix_append dir _

theorem spellIn_inj {ns ms : List Name} (h : spellIn dir ns = spellIn dir ms) : ns = ms :=
  join_names_inj (List.append_cancel_left h)

theorem spellIn_ne {ns : List Name} (h : ns ≠ []) : spellIn dir ns ≠ dir := by
  intro heq
  have hnil : spellIn dir [] = dir := List.append_nil dir
  exact h (spellIn_inj (heq.trans hnil.symm))

theorem descend_inj {l : Loc Name} {v w : List Name} (h : l.descend v = l.descend w) : v = w := by
  have hnames := congrArg Loc.names h
  rw [Loc.descend_names, Loc.descend_names] at hnames
  exact List.append_cancel_left hnames

theorem exists_concat {α : Type*} {xs : List α} (h : xs ≠ []) : ∃ init last, xs = init ++ [last] :=
  ⟨_, _, (List.dropLast_append_getLast h).symm⟩

theorem locFrom_slash (l : Loc Name) (q b : Str) :
    locFrom l (q ++ '/' :: b) = (locFrom l (q ++ ['/'])).walk (segsOf b) := by
  have hroot : Str.startsWith ['/'] (q ++ '/' :: b) = Str.startsWith ['/'] (q ++ ['/']) := by
    cases q with
    | nil => simp [Str.startsWith]
    | cons c q => simp [Str.startsWith, List.cons_prefix_cons]
  have hsegs : segsOf (q ++ '/' :: b) = segsOf (q ++ ['/']) ++ segsOf b := by
    rw [segsOf_append_slash, segsOf_append_slash, segsOf_nil, List.append_nil]
  unfold locFrom
  rw [locOf, locOf, hroot, hsegs]
  split
  · rw [Loc.walk_append]
  · rw [Loc.walk_append]

theorem locFrom_name (l : Loc Name) (n : Name) : locFrom l n.val = l.descend [n] := by
  have hroot : Str.startsWith ['/'] n.val = false := by
    cases hs : Str.startsWith ['/'] n.val with
    | false => rfl
    | true =>
      obtain ⟨q, hq⟩ := (startsWith_slash_iff _).mp hs
      exact absurd (hq ▸ List.mem_cons_self) n.property.2.2.2
  have hsegs : segsOf n.val = [.name n] := by
    have := segsOf_join_names [n]
    simpa [Str.join, List.intercalate] using this
  rw [locFrom, hroot, if_neg (by simp), hsegs]
  rfl

/-- A name after a directory leads one level down. -/
theorem locFrom_append_name (h : dir = [] ∨ Str.endsWith '/' dir = true) (n : Name) :
    locFrom l (dir ++ n.val) = (locFrom l dir).descend [n] := by
  rcases h with rfl | h
  · exact locFrom_name l n
  · have hlast : dir.getLast? = some '/' := by simpa [Str.endsWith] using h
    obtain ⟨q, rfl⟩ := List.getLast?_eq_some_iff.mp hlast
    have hsegs : segsOf n.val = [.name n] := by
      have := segsOf_join_names [n]
      simpa [Str.join, List.intercalate] using this
    rw [List.append_assoc, List.singleton_append, locFrom_slash, hsegs]
    rfl

/-- The path of an entry leads to it. -/
theorem locFrom_spellIn (hdir : Str.endsWith '/' dir = true) (ns : List Name) :
    locFrom l (spellIn dir ns) = (locFrom l dir).descend ns := by
  have hlast : dir.getLast? = some '/' := by simpa [Str.endsWith] using hdir
  obtain ⟨q, rfl⟩ := List.getLast?_eq_some_iff.mp hlast
  rw [spellIn, List.append_assoc, List.singleton_append, locFrom_slash, segsOf_join_names,
    Loc.walk_names]

theorem locOf_eq_locFrom (p : Str) : locOf p = locFrom (Loc.start false) p := by
  unfold locFrom
  split
  · rfl
  · rename_i hroot
    rw [locOf, Bool.eq_false_iff.mpr hroot]

/-- Joining below a directory leads on from there. -/
theorem locFrom_pathJoin (l : Loc Name) (hdir : dir ≠ []) (b : Str) :
    locFrom l (pathJoin dir b) = (locFrom l dir).walk (segsOf b) := by
  have hloc : locOf (pathJoin dir b) = (locOf dir).walk (segsOf b) := by
    rw [locOf_pathJoin, if_neg hdir]
  have hroot : Str.startsWith ['/'] (pathJoin dir b) = Str.startsWith ['/'] dir := by
    rw [← locOf_rooted, ← locOf_rooted, hloc, walk_rooted]
  unfold locFrom
  rw [hroot, hloc]
  cases hs : Str.startsWith ['/'] dir with
  | true => simp
  | false =>
    rw [if_neg (by simp), if_neg (by simp)]
    exact walk_segsOf_pathJoin l hdir hs b

/-- Joining names below a directory leads down to the entry; the last name is the last
piece of the path. -/
theorem pathJoin_concat (hdir : dir ≠ []) (ns : List Name) (n : Name) :
    ∃ parent, pathJoin dir (spellIn [] (ns ++ [n])) = parent ++ n.val ∧
      (parent = [] ∨ Str.endsWith '/' parent = true) ∧
      ∀ l, locFrom l parent = (locFrom l dir).descend ns := by
  have hsegs : ∀ ms, segsOf (spellIn [] ms) = ms.map .name := segsOf_join_names
  have hloc : locOf (pathJoin dir (spellIn [] (ns ++ [n]))) = (locOf dir).descend (ns ++ [n]) := by
    rw [locOf_pathJoin, if_neg hdir, hsegs, Loc.walk_names]
  have hrender : pathJoin dir (spellIn [] (ns ++ [n])) = render ((locOf dir).descend (ns ++ [n])) := by
    rw [← hloc, ← cleanPath_eq_render, cleanPath_pathJoin]
  have hout : outOf ((locOf dir).descend (ns ++ [n])) = outOf ((locOf dir).descend ns) ++ [n.val] := by
    simp [outOf_descend]
  have hparent : ∃ parent, pathJoin dir (spellIn [] (ns ++ [n])) = parent ++ n.val ∧
      (parent = [] ∨ Str.endsWith '/' parent = true) := by
    have hne : outOf ((locOf dir).descend ns) ++ [n.val] ≠ [] := by simp
    rw [hrender, render, hout, if_neg hne]
    by_cases hnil : outOf ((locOf dir).descend ns) = []
    · rw [hnil]
      split
      · exact ⟨['/'], by simp [Str.join], .inr rfl⟩
      · exact ⟨[], by simp [Str.join], .inl rfl⟩
    · rw [join_concat hnil]
      split
      · exact ⟨'/' :: Str.join '/' (outOf ((locOf dir).descend ns)) ++ ['/'], by simp,
          .inr (Str.endsWith_append _ _ (by simp))⟩
      · exact ⟨Str.join '/' (outOf ((locOf dir).descend ns)) ++ ['/'], by simp,
          .inr (Str.endsWith_append _ _ (by simp))⟩
  obtain ⟨parent, hjoin, hend⟩ := hparent
  refine ⟨parent, hjoin, hend, fun l => ?_⟩
  -- both lead to the entry in one more step
  have hdown : (locFrom l parent).descend [n] = ((locFrom l dir).descend ns).descend [n] := by
    rw [← locFrom_append_name hend, ← hjoin, locFrom_pathJoin l hdir, hsegs, Loc.walk_names,
      Loc.descend_descend]
  have hrooted := congrArg Loc.rooted hdown
  have hups := congrArg Loc.ups hdown
  have hnames := congrArg Loc.names hdown
  rw [Loc.descend_rooted, Loc.descend_rooted] at hrooted
  rw [Loc.descend_ups, Loc.descend_ups] at hups
  rw [Loc.descend_names, Loc.descend_names] at hnames
  exact Loc.ext hrooted hups (List.append_cancel_right hnames)

/-! ## Paths as URLs -/

theorem split_names (ns : List Name) (h : ns ≠ []) :
    Str.split '/' (spellIn [] ns) = ns.map Subtype.val := by
  refine split_join ?_ (fun hnil => h (List.map_eq_nil_iff.mp hnil))
  intro s hs
  obtain ⟨n, -, rfl⟩ := List.mem_map.mp hs
  exact n.property.2.2.2

/-- There is no empty segment between names. -/
theorem nil_not_mem_split {ns : List Name} (h : ns ≠ []) : [] ∉ Str.split '/' (spellIn [] ns) := by
  rw [split_names ns h]
  intro hmem
  obtain ⟨n, -, hn⟩ := List.mem_map.mp hmem
  exact n.property.1 hn

theorem DirSpelling.noScheme_spellIn (h : DirSpelling dir) {ns : List Name} (hns : ns ≠ []) :
    Str.splitOnce "://".toList (spellIn dir ns) = none := by
  rw [Str.splitOnce_eq_none (by decide)]
  rintro ⟨a, b, hab⟩
  have hdir := (Str.splitOnce_eq_none (by decide)).mp h.noScheme
  have hnil := nil_not_mem_split hns
  have hsplit : spellIn dir ns = dir ++ spellIn [] ns := rfl
  rw [hsplit] at hab
  have hempty : ∀ c, spellIn [] ns = c ++ '/' :: ('/' :: b) → False := by
    intro c hc
    have hmid : Str.split '/' ('/' :: b) = [] :: Str.split '/' b := split_append_slash [] b
    rw [hc, split_append_slash, hmid] at hnil
    exact hnil (List.mem_append_right _ List.mem_cons_self)
  rcases List.append_eq_append_iff.mp hab with ⟨c, hc, hrest⟩ | ⟨c, hc, hrest⟩
  · exact hdir ⟨a, c, hc.symm⟩
  · -- the scheme ends among the names, which have no slash in front and no two in a row
    rcases List.eq_nil_or_concat' c with rfl | ⟨c', x, rfl⟩
    · exact hdir ⟨a, [], by simpa using hc⟩
    · have hx : dir ++ c' ++ [x] = (a ++ [':', '/']) ++ ['/'] := by simpa using hc.symm
      obtain ⟨hc', rfl⟩ := List.append_singleton_inj.mp hx
      rcases List.eq_nil_or_concat' c' with rfl | ⟨c'', y, rfl⟩
      · have hmid : Str.split '/' ('/' :: b) = [] :: Str.split '/' b := split_append_slash [] b
        rw [hrest] at hnil
        exact hnil (by simp [hmid])
      · have hy : dir ++ c'' ++ [y] = (a ++ [':']) ++ ['/'] := by simpa using hc'
        obtain ⟨-, rfl⟩ := List.append_singleton_inj.mp hy
        exact hempty c'' (by simpa using hrest)

/-- The URL that the path of an entry parses to. -/
def walkedUrl (dir : Str) (ns : List Name) : Url := Url.parsed .loc [] [] (spellIn dir ns) {}

theorem DirSpelling.new_spellIn (h : DirSpelling dir) {ns : List Name} (hns : ns ≠ []) :
    Url.new (spellIn dir ns) {} = .ok (walkedUrl dir ns) := by
  rw [Url.new, h.noScheme_spellIn hns]
  exact Url.setPrefixAndFilter_blank _ _ _ _ rfl

/-- The URL of the directory itself. -/
def dirUrl (dir : Str) : Url := Url.parsed .loc [] [] dir {}

theorem DirSpelling.new_dir (h : DirSpelling dir) : Url.new dir {} = .ok (dirUrl dir) := by
  rw [Url.new, h.noScheme]
  exact Url.setPrefixAndFilter_blank _ _ _ _ rfl

theorem DirSpelling.isWildcard (h : DirSpelling dir) : (dirUrl dir).isWildcard = false := by
  show (!false && hasGlobCharacter dir) = false
  rw [h.literal, Bool.and_false]

/-- The relative path of an entry is that of its names. -/
theorem DirSpelling.relative (h : DirSpelling dir) {ns : List Name} (hns : ns ≠ []) :
    ((walkedUrl dir ns).setRelative (dirUrl dir)).relative = spellIn [] ns := by
  have hbase : locOf (dirUrl dir).baseDir = locOf dir := by
    rw [Url.baseDir, h.isWildcard, if_neg Bool.false_ne_true]
    show locOf (goDir dir) = locOf dir
    have hgo : goDir (dir ++ []) = cleanPath dir := goDir_append (by simp) (.inr h.slash)
    rw [List.append_nil] at hgo
    rw [hgo, locOf_cleanPath]
  have hloc : locOf (walkedUrl dir ns).absolute = (locOf (dirUrl dir).baseDir).descend ns := by
    show locOf (spellIn dir ns) = _
    rw [hbase, locOf_eq_locFrom, locOf_eq_locFrom, locFrom_spellIn h.slash]
  rw [relative_setRelative, relPath_descend hns hloc, hbase, if_neg h.notDot]
  rfl

/-! ## Names with the suffix -/

theorem slash_not_mem_linkSuffix : '/' ∉ linkSuffix := by decide

/-- A suffix without slash is one of the last name. -/
theorem suffix_append_iff (h : dir = [] ∨ Str.endsWith '/' dir = true) (s : Str) :
    linkSuffix <:+ dir ++ s ↔ linkSuffix <:+ s := by
  constructor
  · rintro ⟨t, ht⟩
    rcases List.append_eq_append_iff.mp ht with ⟨c, hc, hs⟩ | ⟨c, hc, hs⟩
    · -- the suffix begins in the directory: then nothing of the directory is in it
      rcases List.eq_nil_or_concat' c with rfl | ⟨c', x, rfl⟩
      · exact ⟨[], by simpa using hs⟩
      · rcases h with rfl | h
        · simp at hc
        · have hx : dir = (t ++ c') ++ [x] := by simpa using hc
          rw [hx, Str.endsWith_append _ _ (by simp)] at h
          have hslash : x = '/' := by simpa [Str.endsWith] using h
          rw [hslash] at hs
          exact absurd (by rw [hs]; simp) slash_not_mem_linkSuffix
    · exact ⟨c, hs.symm⟩
  · rintro ⟨t, rfl⟩
    exact ⟨dir ++ t, by simp⟩

theorem stripSuffix_append (s : Str) : Str.stripSuffix linkSuffix (s ++ linkSuffix) = some s := by
  simp [Str.stripSuffix]

/-- The path ends in the name of an entry just when its last piece is a name. -/
theorem endsInName_append (h : dir = [] ∨ Str.endsWith '/' dir = true) {s : Str} (hs : '/' ∉ s) :
    Job.endsInName (dir ++ s) = decide (IsName s) := by
  have hone : Str.split '/' s = [s] := by
    have := @split_join [s] (by simpa using hs) (by simp)
    simpa [Str.join] using this
  have hlast : (Str.split '/' (dir ++ s)).getLast? = some s := by
    rcases h with rfl | h
    · rw [List.nil_append, hone]
      rfl
    · have hend : dir.getLast? = some '/' := by simpa [Str.endsWith] using h
      obtain ⟨q, rfl⟩ := List.getLast?_eq_some_iff.mp hend
      rw [List.append_assoc, List.singleton_append, split_append_slash, hone]
      simp
  rw [Job.endsInName, hlast]

theorem isName_append {s t : Str} (hs : '/' ∉ s) (ht : '/' ∉ t) (hlen : 2 < t.length) :
    IsName (s ++ t) := by
  have hlong : ∀ u : Str, u.length ≤ 2 → s ++ t ≠ u := by
    rintro u hu rfl
    rw [List.length_append] at hu
    omega
  refine ⟨hlong _ (by simp), hlong _ (by decide), hlong _ (by decide), ?_⟩
  intro h
  rcases List.mem_append.mp h with h | h
  · exact hs h
  · exact ht h

/-- The name with the suffix. -/
def Name.suffixed (n : Name) : Name :=
  ⟨n.val ++ linkSuffix, isName_append n.property.2.2.2 slash_not_mem_linkSuffix (by decide)⟩

/-- The key of a placeholder: that of the entry, with the suffix. -/
theorem spellIn_suffixed (dir : Str) (ns : List Name) (n : Name) :
    spellIn dir (ns ++ [n]) ++ linkSuffix = spellIn dir (ns ++ [n.suffixed]) := by
  rw [spellIn_concat, spellIn_concat, List.append_assoc]
  rfl

end Paths

end Rs5cmd
