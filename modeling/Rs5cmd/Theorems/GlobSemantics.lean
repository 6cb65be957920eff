import Rs5cmd.Command.Filters
import Rs5cmd.Lib.Glob

/-!
# A compiled glob is the glob

The URL filter and the include and exclude patterns go through a detour: the text is
escaped as a regular expression and the escapes of `?` and `*` are rewritten in
place. What comes out accepts the words of the glob, no others.
-/

namespace Rs5cmd

/-! ## The glob of a text -/

/-- What a character of a glob stands for. -/
def globSym (c : Char) : Glob.Sym Char :=
  if c = '*' then .many else if c = '?' then .any else .lit c

/-- The texts that a glob stands for: `*` for any text and `?` for one character,
newlines and slashes included, any other character for itself. -/
def globTexts (p : Str) : Language Char := Glob.words (p.map globSym)

/-- What a token of a compiled regex stands for. -/
def Tok.sym : Tok → Glob.Sym Char
  | .lit c => .lit c
  | .any => .any
  | .many => .many

theorem sym_globTok (c : Char) : (globTok c).sym = globSym c := by
  unfold globTok globSym
  by_cases hq : c = '?'
  · subst hq
    rfl
  · by_cases hs : c = '*'
    · subst hs
      rfl
    · rw [if_neg hq, if_neg hs, if_neg hs, if_neg hq]
      rfl

theorem map_sym_globToks (p : Str) : (globToks p).map Tok.sym = p.map globSym := by
  rw [globToks, List.map_map]
  exact List.map_congr_left fun c _ => sym_globTok c

/-! ## Matching -/

/-- **The matcher decides the language of its tokens.** -/
theorem matchToks_iff (ts : List Tok) (s : Str) :
    matchToks ts s = true ↔ s ∈ Glob.words (ts.map Tok.sym) := by
  induction ts generalizing s with
  | nil =>
    rw [List.map_nil, Glob.mem_words_nil]
    cases s <;> simp [matchToks]
  | cons t ts ih =>
    rw [List.map_cons]
    cases t with
    | lit c =>
      rw [Tok.sym, Glob.mem_words_lit]
      cases s with
      | nil => simp [matchToks]
      | cons x s =>
        simp only [matchToks, Bool.and_eq_true, beq_iff_eq, ih, List.cons.injEq]
        constructor
        · rintro ⟨rfl, hs⟩
          exact ⟨s, hs, rfl, rfl⟩
        · rintro ⟨v, hv, rfl, rfl⟩
          exact ⟨rfl, hv⟩
    | any =>
      rw [Tok.sym, Glob.mem_words_any]
      cases s with
      | nil => simp [matchToks]
      | cons x s =>
        simp only [matchToks, ih, List.cons.injEq]
        constructor
        · intro hs
          exact ⟨x, s, hs, rfl, rfl⟩
        · rintro ⟨y, v, hv, rfl, rfl⟩
          exact hv
    | many =>
      rw [Tok.sym, Glob.mem_words_many, matchToks_many]
      constructor
      · rintro ⟨a, b, rfl, hb⟩
        exact ⟨a, b, (ih b).mp hb, rfl⟩
      · rintro ⟨a, b, hb, rfl⟩
        exact ⟨a, b, rfl, (ih b).mpr hb⟩

theorem matchToks_globToks (p s : Str) : matchToks (globToks p) s = true ↔ s ∈ globTexts p := by
  rw [matchToks_iff, map_sym_globToks, globTexts]

/-- What a parsed URL accepts. -/
theorem isMatch_filterToks {u : Url} {p : Str} (hre : u.filterRegex = some ⟨Url.filterToks p⟩)
    (key : Str) :
    u.isMatch key = true ↔ if hasGlobCharacter p then key ∈ globTexts p else p <+: key := by
  cases hglob : hasGlobCharacter p with
  | true =>
    rw [Url.isMatch, hre, if_pos rfl, Url.filterToks_glob hglob]
    exact matchToks_globToks p key
  | false =>
    rw [Url.isMatch_literal hglob hre, if_neg Bool.false_ne_true]
    constructor
    · rintro ⟨t, rfl⟩
      exact List.prefix_append p t
    · rintro ⟨t, rfl⟩
      exact ⟨t, rfl⟩

theorem filterRegex_of_new {s : Str} {opts : UrlOptions} (hraw : opts.raw = false) {u : Url}
    (h : Url.new s opts = .ok u) : u.filterRegex = some ⟨Url.filterToks u.path⟩ := by
  rcases Url.new_eq_ok hraw h with ⟨-, rfl⟩ | ⟨rest, bucket, key, -, -, -, -, rfl⟩ <;> rfl

theorem isSome_matches? (u : Url) (key : Str) : (u.matches? key).isSome = u.isMatch key := by
  unfold Url.matches?
  cases u.isMatch key <;> rfl

/-! ## Filters -/

/-- The compiled patterns accept the texts of their globs. -/
def Compiles (patterns : List Str) (regexes : List Regex) : Prop :=
  List.Forall₂ (fun p re => ∀ key, re.isMatch key = true ↔ key ∈ globTexts p) patterns regexes

theorem compileGlobs_eq (patterns : List Str) :
    compileGlobs patterns = .ok (patterns.map fun p => ⟨globToks p⟩) := by
  induction patterns with
  | nil => rfl
  | cons p patterns ih =>
    rw [compileGlobs, regexNew_glob, ih]
    rfl

theorem compiles_globToks (patterns : List Str) :
    Compiles patterns (patterns.map fun p => ⟨globToks p⟩) := by
  rw [Compiles, List.forall₂_map_right_iff, List.forall₂_same]
  exact fun p _ => matchToks_globToks p

theorem Compiles.any_isMatch {patterns : List Str} {regexes : List Regex}
    (h : Compiles patterns regexes) (key : Str) :
    regexes.any (·.isMatch key) = true ↔ ∃ p ∈ patterns, key ∈ globTexts p := by
  induction h with
  | nil => simp
  | cons hre _ ih => simp [ih, hre]

/-- What filters skip, by the globs they were made from. -/
theorem shouldSkip_iff {includes excludes : List Str} {f : Filters}
    (hi : Compiles includes f.includes) (he : Compiles excludes f.excludes) (key : Str) :
    f.shouldSkip key = true ↔ (∃ p ∈ excludes, key ∈ globTexts p) ∨
      (includes ≠ [] ∧ ∀ p ∈ includes, key ∉ globTexts p) := by
  have hnil : f.includes = [] ↔ includes = [] := by
    rw [← List.length_eq_zero_iff, ← List.length_eq_zero_iff, hi.length_eq]
  have hnone : (f.includes.any (·.isMatch key)) = false ↔ ∀ p ∈ includes, key ∉ globTexts p := by
    rw [← Bool.not_eq_true, hi.any_isMatch]
    push Not
    rfl
  rw [Filters.shouldSkip, Bool.or_eq_true, he.any_isMatch, Bool.and_eq_true, Bool.not_eq_true',
    Bool.not_eq_true', hnone, ← Bool.not_eq_true, List.isEmpty_iff, hnil]

/-- **A compiled glob is the glob.** A URL that is not raw accepts exactly the keys
that its path stands for as a glob, or without a wildcard those that start with it.
Every list of patterns compiles, each to what accepts the texts of its glob, and the
filters skip by these. -/
theorem glob_semantics {s : Str} {opts : UrlOptions} (hraw : opts.raw = false) {u : Url}
    (hu : Url.new s opts = .ok u) :
    (∀ key, (u.matches? key).isSome = true ↔
      if hasGlobCharacter u.path then key ∈ globTexts u.path else u.path <+: key) ∧
    (∀ patterns, ∃ regexes, compileGlobs patterns = .ok regexes ∧ Compiles patterns regexes) ∧
    ∀ includes excludes, ∃ f, Filters.new includes excludes = .ok f ∧
      ∀ key, f.shouldSkip key = true ↔ (∃ p ∈ excludes, key ∈ globTexts p) ∨
        (includes ≠ [] ∧ ∀ p ∈ includes, key ∉ globTexts p) := by
  refine ⟨fun key => ?_, fun patterns => ?_, fun includes excludes => ?_⟩
  · rw [isSome_matches?]
    exact isMatch_filterToks (filterRegex_of_new hraw hu) key
  · exact ⟨_, compileGlobs_eq patterns, compiles_globToks patterns⟩
  · refine ⟨_, by rw [Filters.new, compileGlobs_eq, compileGlobs_eq], fun key => ?_⟩
    exact shouldSkip_iff (compiles_globToks includes) (compiles_globToks excludes) key

/-- Backslashes and metacharacters of regular expressions are literal. -/
theorem glob_semantics_literal :
    ∃ u, Url.new "s3://b/a\\*.t(?)".toList {} = .ok u ∧
      (u.matches? "a\\x/\ny.t(+)".toList).isSome = true ∧
      "a\\x/\ny.t(+)".toList ∈ globTexts u.path := by
  have hu : Url.new "s3://b/a\\*.t(?)".toList {} = .ok (.ofString "s3://b/a\\*.t(?)") := by
    decide +kernel
  have hmatch : ((Url.ofString "s3://b/a\\*.t(?)").matches? "a\\x/\ny.t(+)".toList).isSome = true := by
    decide +kernel
  have hglob : hasGlobCharacter (Url.ofString "s3://b/a\\*.t(?)").path = true := by decide +kernel
  have hiff := (glob_semantics (by rfl) hu).1 "a\\x/\ny.t(+)".toList
  rw [if_pos hglob] at hiff
  exact ⟨_, hu, hmatch, hiff.mp hmatch⟩

end Rs5cmd
