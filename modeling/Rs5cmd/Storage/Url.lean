import Rs5cmd.Storage.Path
import Rs5cmd.Strutil

/-!
# URLs (`storage/url.rs`)

The canonical representation of an object on local or remote storage: parsing,
the prefix and filter of a listing, relative paths and destinations.
-/

namespace Rs5cmd

/-- `UrlType`. -/
inductive UrlType where
  | remote
  | loc
  deriving DecidableEq, Repr

/-- `Url`. The source's `prefix` is `keyPrefix` here. -/
structure Url where
  kind : UrlType
  scheme : Str
  bucket : Str
  path : Str
  delimiter : Str
  keyPrefix : Str
  versionId : Str
  allVersions : Bool
  startAfter : Str
  relativePath : Str
  filter : Str
  filterRegex : Option Regex
  raw : Bool
  deriving DecidableEq, Repr

/-- `UrlOptions`. -/
structure UrlOptions where
  raw : Bool := false
  versionId : Option Str := none
  allVersions : Bool := false
  startAfter : Option Str := none

/-- The wildcard characters, `GLOB_CHARACTERS`. -/
def isGlobChar (c : Char) : Bool := c == '?' || c == '*'

/-- `has_glob_character`. -/
def hasGlobCharacter (s : Str) : Bool := s.any isGlobChar

namespace Url

/-! ## Predicates and spellings -/

def isRemote (u : Url) : Bool := u.kind == .remote

/-- Whether the remote object is an S3 prefix (ends with `/`). -/
def isPrefix (u : Url) : Bool := u.isRemote && Str.endsWith '/' u.path

/-- Whether the URL contains only a bucket name. -/
def isBucket (u : Url) : Bool := u.isRemote && u.path.isEmpty

def isVersioned (u : Url) : Bool := u.allVersions || !u.versionId.isEmpty

/-- Whether the path contains any wildcard characters. -/
def isWildcard (u : Url) : Bool := !u.raw && hasGlobCharacter u.path

def remoteUrl (u : Url) : Str :=
  u.scheme ++ "://".toList ++ u.bucket ++ (if u.path = [] then [] else '/' :: u.path)

/-- The absolute URL representation of the object. -/
def absolute (u : Url) : Str := if u.isRemote then u.remoteUrl else u.path

/-- A URI reference based on the calculated prefix. -/
def relative (u : Url) : Str := if u.relativePath ≠ [] then u.relativePath else u.absolute

/-- `Path::file_name`: the last component, unless it is the root, `.` or `..`. -/
def fileName (p : Str) : Option Str :=
  match ((Str.split '/' p).filter fun s => s ≠ [] && s ≠ dot).getLast? with
  | some s => if s = dotdot then none else some s
  | none => none

def localBaseFallback (p : Str) : Str := if p = [] then dot else p

/-- The last element of the object path. -/
def base (u : Url) : Str :=
  if u.isRemote then remoteBase u.path
  else (fileName u.path).getD (localBaseFallback u.path)

/-- Joins a string and returns a new URL: a local path is cleaned, a remote one
keeps adjacent slashes. -/
def join (u : Url) (s : Str) : Url :=
  { u with path := if u.isRemote then u.path ++ s else pathJoin u.path s }

/-! ## Parsing -/

/-- Creates url metadata for both wildcard and non-wildcard operations,
compiling the filter regex. -/
def setPrefixAndFilter (u : Url) : Except Str Url :=
  if u.raw then .ok u
  else
    let u :=
      match Str.find isGlobChar u.path with
      | none => { u with delimiter := ['/'], keyPrefix := u.path }
      | some i => { u with keyPrefix := u.path.take i, filter := u.path.drop i }
    let filterRegex := if u.filter = [] then ".*".toList else wildcardToRegexp u.filter
    let filterRegex := addNewlineFlag (matchFromStartToEnd (regexEscape u.keyPrefix ++ filterRegex))
    match Regex.new filterRegex with
    | .ok r => .ok { u with filterRegex := some r }
    | .error e => .error e

/-- The URL record `new` fills in before `set_prefix_and_filter`. -/
def blank (kind : UrlType) (scheme bucket path : Str) (opts : UrlOptions) : Url where
  kind := kind
  scheme := scheme
  bucket := bucket
  path := path
  delimiter := []
  keyPrefix := []
  versionId := opts.versionId.getD []
  allVersions := opts.allVersions
  startAfter := opts.startAfter.getD []
  relativePath := []
  filter := []
  filterRegex := none
  raw := opts.raw

/-- Creates a new URL from the given path string. -/
def new (s : Str) (opts : UrlOptions) : Except Str Url :=
  match Str.splitOnce "://".toList s with
  | none => setPrefixAndFilter (blank .loc [] [] s opts)
  | some (scheme, rest) =>
    if scheme ≠ "s3".toList then .error "s3 url should start with \"s3://\"".toList
    else
      let (bucket, key) := (Str.splitOnce ['/'] rest).getD (rest, [])
      if bucket = [] then .error "s3 url should have a bucket".toList
      else if hasGlobCharacter bucket then .error "bucket name cannot contain wildcards".toList
      else setPrefixAndFilter (blank .remote "s3".toList bucket key opts)

/-- `Url::parse`: `new` with default options. -/
def parse (s : Str) : Except Str Url := new s {}

/-- The URL a literal parses to. -/
def ofString (s : String) : Url :=
  match parse s.toList with
  | .ok u => u
  | .error _ => blank .loc [] [] s.toList {}

/-! ## Relative paths -/

/-- The directory `set_relative` takes paths relative to: that of the base, or of
its part before the first wildcard. -/
def baseDir (base : Url) : Str :=
  let basePath := base.absolute
  goDir
    (if base.isWildcard then
      match Str.find isGlobChar basePath with
      | some i => basePath.take i
      | none => basePath
    else basePath)

/-- Explicitly sets the relative path of `u` against the given base. -/
def setRelative (u base : Url) : Url :=
  { u with relativePath := relPath base.baseDir u.absolute }

/-- Parses keys for wildcard operations, cutting from the first directory
before the wildcard part. -/
def parseBatch (keyPrefix key : Str) : Str :=
  match Str.rfind '/' keyPrefix with
  | none => key
  | some index =>
    if !Str.startsWith keyPrefix key then key
    else Str.trimPrefix ['/'] (key.drop index)

/-- Parses keys for non-wildcard operations. -/
def parseNonBatch (keyPrefix key : Str) : Str :=
  if !Str.startsWith keyPrefix key then key
  else
    let parsedKey := (Str.stripSuffix ['/'] key).getD key
    match Str.rfind '/' parsedKey with
    | none => key
    | some i =>
      if i < keyPrefix.length then Str.trimPrefix ['/'] (key.drop i)
      else
        let stripped := Str.trimPrefix ['/'] (Str.trimPrefix keyPrefix key)
        match Str.find (· == '/') stripped with
        | some j => if j + 1 ≥ stripped.length then stripped else stripped.take (j + 1)
        | none => stripped

/-- The relative path `matches` derives for a key it accepts. -/
def relativeOf (u : Url) (key : Str) : Str :=
  if u.filter ≠ [] then parseBatch u.keyPrefix key else parseNonBatch u.keyPrefix key

/-- Whether the given key matches the object's filter. -/
def isMatch (u : Url) (key : Str) : Bool :=
  match u.filterRegex with
  | some re => re.isMatch key
  | none => false

/-- `matches`: the URL with its relative path updated, when the key matches. -/
def matches? (u : Url) (key : Str) : Option Url :=
  if u.isMatch key then some { u with relativePath := u.relativeOf key } else none

/-! ## What parsing yields -/

/-- The part of a path before its first wildcard. -/
def literalPart (p : Str) : Str := p.takeWhile fun c => !isGlobChar c

/-- The part of a path from its first wildcard on. -/
def globPart (p : Str) : Str := p.dropWhile fun c => !isGlobChar c

theorem literalPart_append_globPart (p : Str) : literalPart p ++ globPart p = p :=
  List.takeWhile_append_dropWhile

theorem find_isGlobChar (p : Str) :
    Str.find isGlobChar p = if globPart p = [] then none else some (literalPart p).length := by
  induction p with
  | nil => rfl
  | cons c p ih =>
    by_cases hc : isGlobChar c = true
    · simp [Str.find, List.findIdx?_cons, hc, globPart, literalPart]
    · have hglob : globPart (c :: p) = globPart p := by simp [globPart, hc]
      have hlit : literalPart (c :: p) = c :: literalPart p := by simp [literalPart, hc]
      have hfind : Str.find isGlobChar (c :: p) = (Str.find isGlobChar p).map (· + 1) := by
        simp [Str.find, List.findIdx?_cons, hc]
      rw [hfind, ih, hglob, hlit]
      split
      · rfl
      · rfl

/-- The tokens of the filter regex of a path. -/
def filterToks (p : Str) : List Tok :=
  (literalPart p).map .lit ++ if globPart p = [] then [.many] else globToks (globPart p)

/-- The text that the filter regex is compiled from. -/
theorem parseToks_filter (p : Str) :
    parseToks (regexEscape (literalPart p) ++
      if globPart p = [] then ".*".toList else wildcardToRegexp (globPart p)) = some (filterToks p) := by
  rw [parseToks_regexEscape]
  unfold filterToks
  split
  · rfl
  · rw [wildcardToRegexp_eq, parseToks_globText]
    rfl

/-- The URL that parsing fills in. -/
def parsed (kind : UrlType) (scheme bucket path : Str) (opts : UrlOptions) : Url :=
  { blank kind scheme bucket path opts with
    delimiter := if globPart path = [] then ['/'] else []
    keyPrefix := literalPart path
    filter := globPart path
    filterRegex := some ⟨filterToks path⟩ }

/-- `set_prefix_and_filter` never fails: the regex it builds always compiles. -/
theorem setPrefixAndFilter_blank (kind : UrlType) (scheme bucket path : Str) {opts : UrlOptions}
    (hraw : opts.raw = false) :
    setPrefixAndFilter (blank kind scheme bucket path opts) =
      .ok (parsed kind scheme bucket path opts) := by
  have hsplit := literalPart_append_globPart path
  have hre := Regex.new_anchored _ (parseToks_filter path)
  unfold setPrefixAndFilter
  simp only [blank, hraw, Bool.false_eq_true, if_false, find_isGlobChar]
  by_cases hg : globPart path = []
  · have hlit : literalPart path = path := by rw [hg, List.append_nil] at hsplit; exact hsplit
    simp only [hg, if_true, hlit] at hre
    simp only [hg, if_true, hre, parsed, blank, hlit, hraw]
  · have htake : path.take (literalPart path).length = literalPart path :=
      List.prefix_iff_eq_take.mp ⟨globPart path, hsplit⟩ |>.symm
    have hdrop : path.drop (literalPart path).length = globPart path := by
      have := List.take_append_drop (literalPart path).length path
      rw [htake] at this
      exact List.append_cancel_left (this.trans hsplit.symm)
    simp only [hg, if_false] at hre
    simp only [hg, if_false, htake, hdrop, hre, parsed, blank, hraw]

/-- What a string with a scheme separator can parse to. -/
theorem new_eq_ok {s : Str} {opts : UrlOptions} (hraw : opts.raw = false) {u : Url}
    (h : Url.new s opts = .ok u) :
    (Str.splitOnce "://".toList s = none ∧ u = parsed .loc [] [] s opts) ∨
      ∃ rest bucket key, Str.splitOnce "://".toList s = some ("s3".toList, rest) ∧
        (bucket, key) = (Str.splitOnce ['/'] rest).getD (rest, []) ∧ bucket ≠ [] ∧
        hasGlobCharacter bucket = false ∧ u = parsed .remote "s3".toList bucket key opts := by
  unfold Url.new at h
  split at h
  · rename_i hnone
    rw [setPrefixAndFilter_blank _ _ _ _ hraw] at h
    exact Or.inl ⟨hnone, (Except.ok.inj h).symm⟩
  · rename_i scheme rest hsome
    split at h
    · cases h
    · rename_i hscheme
      have hs3 : scheme = "s3".toList := by simpa using hscheme
      subst hs3
      generalize hbk : (Str.splitOnce ['/'] rest).getD (rest, []) = bk at h
      obtain ⟨bucket, key⟩ := bk
      dsimp only at h
      split at h
      · cases h
      · rename_i hbucket
        split at h
        · cases h
        · rename_i hglob
          rw [setPrefixAndFilter_blank _ _ _ _ hraw] at h
          exact Or.inr ⟨rest, bucket, key, hsome, hbk.symm, hbucket, by simpa using hglob,
            (Except.ok.inj h).symm⟩

/-! ## Buckets -/

/-- What the name of a bucket is to a URL: some literal text without a slash. -/
structure BucketName (bucket : Str) : Prop where
  ne_nil : bucket ≠ []
  slash : '/' ∉ bucket
  literal : hasGlobCharacter bucket = false

theorem splitOnce_scheme (rest : Str) :
    Str.splitOnce "://".toList ("s3://".toList ++ rest) = some ("s3".toList, rest) := by
  simp [Str.splitOnce]

/-- The URL of a key parses. -/
theorem new_remote {bucket : Str} (hb : BucketName bucket) (key : Str) {opts : UrlOptions}
    (hraw : opts.raw = false) :
    Url.new ("s3://".toList ++ (bucket ++ '/' :: key)) opts =
      .ok (parsed .remote "s3".toList bucket key opts) := by
  rw [Url.new, splitOnce_scheme]
  simp only [Str.splitOnce_char_append hb.slash, Option.getD_some, ne_eq, not_true_eq_false,
    if_false, hb.ne_nil, hb.literal, Bool.false_eq_true]
  exact setPrefixAndFilter_blank _ _ _ _ hraw

theorem parse_remote {bucket : Str} (hb : BucketName bucket) (key : Str) :
    Url.parse ("s3://".toList ++ (bucket ++ '/' :: key)) =
      .ok (parsed .remote "s3".toList bucket key {}) :=
  new_remote hb key rfl

/-- A remote URL that parses names a bucket. -/
theorem remote_of_new {s : Str} {opts : UrlOptions} (hraw : opts.raw = false) {u : Url}
    (h : Url.new s opts = .ok u) (hrem : u.isRemote = true) :
    u = parsed .remote "s3".toList u.bucket u.path opts ∧ BucketName u.bucket := by
  rcases new_eq_ok hraw h with ⟨-, rfl⟩ | ⟨rest, bucket, key, -, hbk, hne, hglob, rfl⟩
  · exact absurd (show false = true from hrem) (by decide)
  · refine ⟨rfl, hne, ?_, hglob⟩
    rcases Str.splitOnce_char '/' rest with ⟨hnone, hmem⟩ | ⟨a, b, hsome, -, ha⟩
    · rw [hnone] at hbk
      obtain ⟨rfl, -⟩ := Prod.mk.inj hbk
      exact hmem
    · rw [hsome] at hbk
      obtain ⟨rfl, -⟩ := Prod.mk.inj hbk
      exact ha

/-! ## Literal paths -/

theorem globPart_of_literal {p : Str} (h : hasGlobCharacter p = false) : globPart p = [] := by
  rw [globPart, List.dropWhile_eq_nil_iff]
  intro c hc
  have := List.any_eq_false.mp h c hc
  simpa using this

theorem globPart_ne_nil {p : Str} (h : hasGlobCharacter p = true) : globPart p ≠ [] := by
  intro hnil
  rw [globPart, List.dropWhile_eq_nil_iff] at hnil
  obtain ⟨c, hc, hglob⟩ := List.any_eq_true.mp h
  have := hnil c hc
  rw [hglob] at this
  cases this

theorem hasGlobCharacter_of_globPart {p : Str} (h : globPart p = []) : hasGlobCharacter p = false := by
  rw [← Bool.not_eq_true]
  exact fun hglob => globPart_ne_nil hglob h

theorem literalPart_of_globPart {p : Str} (h : globPart p = []) : literalPart p = p := by
  have hsplit := literalPart_append_globPart p
  rwa [h, List.append_nil] at hsplit

theorem hasGlobCharacter_literalPart (p : Str) : hasGlobCharacter (literalPart p) = false := by
  rw [hasGlobCharacter, List.any_eq_false]
  intro c hc
  simpa using List.mem_takeWhile_imp hc

theorem globToks_literal {s : Str} (h : hasGlobCharacter s = false) : globToks s = s.map .lit := by
  rw [globToks]
  apply List.map_congr_left
  intro c hc
  have hno := List.any_eq_false.mp h c hc
  simp only [isGlobChar, Bool.or_eq_true, beq_iff_eq, not_or] at hno
  rw [globTok, if_neg hno.1, if_neg hno.2]

/-- The filter of a path with a wildcard is the path as a glob. -/
theorem filterToks_glob {p : Str} (h : hasGlobCharacter p = true) : filterToks p = globToks p := by
  rw [filterToks, if_neg (globPart_ne_nil h), ← globToks_literal (hasGlobCharacter_literalPart p)]
  conv_rhs => rw [← literalPart_append_globPart p]
  rw [globToks, globToks, globToks, List.map_append]

theorem literalPart_append {p : Str} (h : hasGlobCharacter p = false) (q : Str) :
    literalPart (p ++ q) = p ++ literalPart q := by
  rw [literalPart, literalPart, List.takeWhile_append_of_pos]
  intro c hc
  have := List.any_eq_false.mp h c hc
  simpa using this

theorem globPart_append {p : Str} (h : hasGlobCharacter p = false) (q : Str) :
    globPart (p ++ q) = globPart q := by
  rw [globPart, globPart, List.dropWhile_append_of_pos]
  intro c hc
  have := List.any_eq_false.mp h c hc
  simpa using this

/-- A literal path matches exactly the keys that start with it. -/
theorem isMatch_literal {u : Url} {p : Str} (hlit : hasGlobCharacter p = false)
    (hre : u.filterRegex = some ⟨filterToks p⟩) (key : Str) :
    u.isMatch key = true ↔ ∃ t, key = p ++ t := by
  have htoks : filterToks p = p.map .lit ++ [.many] := by
    have hpart := globPart_of_literal hlit
    rw [filterToks, if_pos hpart, literalPart_of_globPart hpart]
  rw [Url.isMatch, hre]
  simp only [Regex.isMatch, htoks]
  rw [matchToks_lits]
  constructor
  · rintro ⟨t, ht, -⟩
    exact ⟨t, ht⟩
  · rintro ⟨t, ht⟩
    exact ⟨t, ht, (matchToks_many [] t).mpr ⟨t, [], by simp, rfl⟩⟩

/-- The listing of everything below a literal prefix matches exactly the keys
that start with it. -/
theorem isMatch_listing {u : Url} {p : Str} (hlit : hasGlobCharacter p = false)
    (hre : u.filterRegex = some ⟨filterToks (p ++ ['*'])⟩) (key : Str) :
    u.isMatch key = true ↔ ∃ t, key = p ++ t := by
  have hstar : literalPart ['*'] = [] := by decide
  have hstar' : globPart ['*'] = ['*'] := by decide
  have hpart := globPart_of_literal hlit
  have hsame : filterToks (p ++ ['*']) = filterToks p := by
    rw [filterToks, filterToks, literalPart_append hlit, globPart_append hlit, hstar, hstar',
      List.append_nil, literalPart_of_globPart hpart, hpart]
    rfl
  rw [hsame] at hre
  exact isMatch_literal hlit hre key

/-- Cutting a key at a prefix that is empty or ends in a slash leaves what
follows it. -/
theorem parseBatch_append {p : Str} (hp : p = [] ∨ Str.endsWith '/' p = true) (t : Str) :
    parseBatch p (p ++ t) = t := by
  rcases hp with rfl | hp
  · simp [parseBatch, Str.rfind]
  · obtain ⟨q, rfl⟩ : ∃ q, p = q ++ ['/'] := by
      have hlast : p.getLast? = some '/' := by simpa [Str.endsWith] using hp
      obtain ⟨q, hq⟩ := List.getLast?_eq_some_iff.mp hlast
      exact ⟨q, hq⟩
    have hfind : Str.rfind '/' (q ++ ['/']) = some q.length :=
      Str.rfind_eq_some.mpr ⟨q, [], rfl, by simp, rfl⟩
    have hstart : Str.startsWith (q ++ ['/']) (q ++ ['/'] ++ t) = true := by
      simp [Str.startsWith]
    have hdrop : (q ++ ['/'] ++ t).drop q.length = ['/'] ++ t := by simp
    simp only [parseBatch, hfind, hstart, Bool.not_true, Bool.false_eq_true, if_false, hdrop,
      Str.trimPrefix_append]

end Url

end Rs5cmd
