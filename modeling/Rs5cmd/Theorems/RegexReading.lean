import Rs5cmd.Theorems.GlobSemantics

/-!
# What is asked of the `regex` crate

The crate is not part of the repository: `Regex.new` and `Regex.isMatch` stand for it on the
patterns that the program builds. Here the documented reading of these patterns is stated
for any crate, and every crate that reads them so accepts what the model accepts.
-/

namespace Rs5cmd

/-- How the documentation reads a text between anchors with the `s` flag: a character that
is not special stands for itself, as a special one does behind a backslash, `.` for any
character and `.*` for any text. -/
inductive RegexReading : Str → Language Char → Prop
  | done : RegexReading [] 1
  | lit {c s L} (hc : c ∉ regexMeta) (h : RegexReading s L) :
      RegexReading (c :: s) ((Glob.Sym.lit c).words * L)
  | escaped {c s L} (hc : c ∈ regexMeta) (h : RegexReading s L) :
      RegexReading ('\\' :: c :: s) ((Glob.Sym.lit c).words * L)
  | any {s L} (h : RegexReading s L) : RegexReading ('.' :: s) (Glob.Sym.any.words * L)
  | many {s L} (h : RegexReading s L) : RegexReading ('.' :: '*' :: s) (Glob.Sym.many.words * L)

/-- The functions of a regex crate that the program calls. -/
structure RegexCrate where
  Compiled : Type
  new : Str → Except Str Compiled
  isMatch : Compiled → Str → Bool

/-- The crate compiles the texts that have a reading, and matches what they stand for. A
text so long that the crate refuses it is left out. -/
def RegexCrate.Documented (R : RegexCrate) : Prop :=
  ∀ body L, RegexReading body L → ∃ re, R.new (addNewlineFlag (matchFromStartToEnd body)) = .ok re ∧
    ∀ s, R.isMatch re s = true ↔ s ∈ L

/-! ## The fragment has the reading -/

theorem RegexReading.of_parseToks {body : Str} {toks : List Tok} (h : parseToks body = some toks) :
    RegexReading body (Glob.words (toks.map Tok.sym)) := by
  fun_induction parseToks body generalizing toks with
  | case1 =>
    obtain rfl := Option.some.inj h
    exact .done
  | case2 c s hc ih =>
    obtain ⟨ts, hts, rfl⟩ := Option.map_eq_some_iff.mp h
    rw [List.map_cons, Glob.words_cons]
    exact .escaped hc (ih hts)
  | case3 => cases h
  | case4 s ih =>
    obtain ⟨ts, hts, rfl⟩ := Option.map_eq_some_iff.mp h
    rw [List.map_cons, Glob.words_cons]
    exact .many (ih hts)
  | case5 s _ ih =>
    obtain ⟨ts, hts, rfl⟩ := Option.map_eq_some_iff.mp h
    rw [List.map_cons, Glob.words_cons]
    exact .any (ih hts)
  | case6 => cases h
  | case7 c s _ _ _ hc ih =>
    obtain ⟨ts, hts, rfl⟩ := Option.map_eq_some_iff.mp h
    rw [List.map_cons, Glob.words_cons]
    exact .lit hc (ih hts)

/-- A text with a reading does not start with a repetition. -/
theorem RegexReading.ne_star {s s' : Str} {L : Language Char} (h : RegexReading s L) :
    s ≠ '*' :: s' := by
  rintro rfl
  cases h with
  | lit hc _ => exact hc (by decide)

theorem RegexReading.parseToks {body : Str} {L : Language Char} (h : RegexReading body L) :
    ∃ toks, parseToks body = some toks ∧ L = Glob.words (toks.map Tok.sym) := by
  induction h with
  | done => exact ⟨[], rfl, rfl⟩
  | lit hc _ ih =>
    obtain ⟨toks, htoks, rfl⟩ := ih
    exact ⟨.lit _ :: toks, by rw [parseToks_lit hc, htoks]; rfl, (Glob.words_cons _ _).symm⟩
  | escaped hc _ ih =>
    obtain ⟨toks, htoks, rfl⟩ := ih
    refine ⟨.lit _ :: toks, ?_, (Glob.words_cons _ _).symm⟩
    simp only [Rs5cmd.parseToks, if_pos hc, htoks, Option.map_some]
  | any h ih =>
    obtain ⟨toks, htoks, rfl⟩ := ih
    refine ⟨.any :: toks, ?_, (Glob.words_cons _ _).symm⟩
    rw [Rs5cmd.parseToks, htoks]
    · rfl
    · exact fun s' hs' => h.ne_star hs'
  | many _ ih =>
    obtain ⟨toks, htoks, rfl⟩ := ih
    exact ⟨.many :: toks, by simp only [Rs5cmd.parseToks, htoks, Option.map_some],
      (Glob.words_cons _ _).symm⟩

/-- The crate of the model. -/
def RegexCrate.fragment : RegexCrate := ⟨Regex, Regex.new, Regex.isMatch⟩

theorem RegexCrate.documented_fragment : fragment.Documented := by
  intro body L h
  obtain ⟨toks, htoks, rfl⟩ := h.parseToks
  exact ⟨⟨toks⟩, Regex.new_anchored body htoks, matchToks_iff toks⟩

/-! ## Crates that have the reading -/

/-- The text that the filter of a URL is compiled from. -/
def Url.filterText (u : Url) : Str :=
  addNewlineFlag (matchFromStartToEnd (regexEscape u.keyPrefix ++
    if u.filter = [] then ".*".toList else wildcardToRegexp u.filter))

theorem Url.new_filterText {s : Str} {opts : UrlOptions} (hraw : opts.raw = false) {u : Url}
    (h : Url.new s opts = .ok u) : Regex.new u.filterText = .ok ⟨Url.filterToks u.path⟩ := by
  rcases Url.new_eq_ok hraw h with ⟨-, rfl⟩ | ⟨rest, bucket, key, -, -, -, -, rfl⟩
  · exact Regex.new_anchored _ (Url.parseToks_filter s)
  · exact Regex.new_anchored _ (Url.parseToks_filter key)

/-- What the fragment compiles is an anchored text. -/
theorem Regex.new_eq_ok {text : Str} {re : Regex} (h : Regex.new text = .ok re) :
    ∃ body, text = addNewlineFlag (matchFromStartToEnd body) ∧ parseToks body = some re.toks := by
  unfold Regex.new at h
  split at h
  · cases h
  · rename_i rest hrest
    split at h
    · cases h
    · rename_i body hbody
      split at h
      · rename_i toks htoks
        obtain rfl := Except.ok.inj h
        refine ⟨body, ?_, htoks⟩
        rw [Str.stripPrefix_eq_some.mp hrest, Str.stripSuffix_eq_some.mp hbody]
        rfl
      · cases h

namespace RegexCrate.Documented

variable {R : RegexCrate}

/-- **Any crate with this reading** compiles what the model compiles, and matches the
same. -/
theorem agrees (hR : R.Documented) {text : Str} {re : Regex} (h : Regex.new text = .ok re) :
    ∃ re', R.new text = .ok re' ∧ ∀ s, R.isMatch re' s = re.isMatch s := by
  obtain ⟨body, rfl, htoks⟩ := Regex.new_eq_ok h
  obtain ⟨re', hnew, hmatch⟩ := hR body _ (.of_parseToks htoks)
  refine ⟨re', hnew, fun s => ?_⟩
  rw [Bool.eq_iff_iff, hmatch]
  exact (matchToks_iff re.toks s).symm

/-- The pattern of an include or exclude matches the texts of its glob. -/
theorem glob (hR : R.Documented) (pattern : Str) :
    ∃ re, R.new (addNewlineFlag (matchFromStartToEnd (wildcardToRegexp pattern))) = .ok re ∧
      ∀ s, R.isMatch re s = true ↔ s ∈ globTexts pattern := by
  obtain ⟨re, hnew, hmatch⟩ := hR.agrees (regexNew_glob pattern)
  refine ⟨re, hnew, fun s => ?_⟩
  rw [hmatch]
  exact matchToks_globToks pattern s

/-- The filter of a URL matches the keys that the URL accepts. -/
theorem url (hR : R.Documented) {s : Str} {opts : UrlOptions} (hraw : opts.raw = false) {u : Url}
    (h : Url.new s opts = .ok u) :
    ∃ re, R.new u.filterText = .ok re ∧ ∀ key, R.isMatch re key = u.isMatch key := by
  have hfilter := filterRegex_of_new hraw h
  obtain ⟨re, hnew, hmatch⟩ := hR.agrees (Url.new_filterText hraw h)
  refine ⟨re, hnew, fun key => ?_⟩
  rw [hmatch, Url.isMatch, hfilter]

end RegexCrate.Documented

end Rs5cmd
