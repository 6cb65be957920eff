import Rs5cmd.Str

/-!
# Wildcards and the regular expressions built from them (`strutil.rs`)

The filter of a URL and the include and exclude patterns are compiled by
escaping the pattern text, rewriting the escaped `?` and `*`, anchoring the
result and setting the `s` flag. The `regex` crate is not part of the
repository; `Regex.new` and `Regex.isMatch` follow its documented semantics on
the fragment these builders emit: literal characters, escaped metacharacters,
`.`, `.*`, one pair of anchors and a leading `(?s)`. `RegexCrate.Documented.agrees`
says that any crate with these semantics does the same.

`regexNew_glob` evaluates the whole pipeline: what is compiled is the token
list of the glob itself.
-/

namespace Rs5cmd

/-- The characters `regex::escape` puts a backslash before. -/
def regexMeta : List Char :=
  ['\\', '.', '+', '*', '?', '(', ')', '|', '[', ']', '\x7b', '\x7d', '^', '$', '#', '&', '-', '~']

/-- `regex::escape` on one character. -/
def escapeChar (c : Char) : Str := if c ∈ regexMeta then ['\\', c] else [c]

/-- `regex::escape`. -/
def regexEscape (s : Str) : Str := s.flatMap escapeChar

/-- The loop of `str::replace`: `skip` characters of a match are still to be
passed over. -/
def replaceGo (pat sub : Str) : Nat → Str → Str
  | _, [] => []
  | skip + 1, _ :: s => replaceGo pat sub skip s
  | 0, x :: s =>
    if pat <+: x :: s then sub ++ replaceGo pat sub (pat.length - 1) s
    else x :: replaceGo pat sub 0 s

/-- `s.replace(pat, sub)` for a non-empty pattern. -/
def Str.replace (pat sub s : Str) : Str := replaceGo pat sub 0 s

/-- Converts a wildcarded expression to an equivalent regular expression. -/
def wildcardToRegexp (pattern : Str) : Str :=
  let quoted := regexEscape pattern
  Str.replace ['\\', '*'] ['.', '*'] (Str.replace ['\\', '?'] ['.'] quoted)

/-- Enforces that the regex matches the full string. -/
def matchFromStartToEnd (pattern : Str) : Str := '^' :: pattern ++ ['$']

/-- Adds the `s` flag so `.` matches newlines. -/
def addNewlineFlag (pattern : Str) : Str := "(?s)".toList ++ pattern

/-! ## The regex fragment -/

/-- One token of a pattern: a character, any character, any sequence. -/
inductive Tok where
  | lit (c : Char)
  | any
  | many
  deriving DecidableEq, Repr

/-- A compiled regex of the fragment: the tokens between the anchors. -/
structure Regex where
  toks : List Tok
  deriving DecidableEq, Repr

/-- Parses the text between the anchors. -/
def parseToks : Str → Option (List Tok)
  | [] => some []
  | '\\' :: c :: s => if c ∈ regexMeta then (parseToks s).map (.lit c :: ·) else none
  | '.' :: '*' :: s => (parseToks s).map (.many :: ·)
  | '.' :: s => (parseToks s).map (.any :: ·)
  | c :: s => if c ∈ regexMeta then none else (parseToks s).map (.lit c :: ·)

/-- `Regex::new` on the fragment. -/
def Regex.new (s : Str) : Except Str Regex :=
  match Str.stripPrefix "(?s)^".toList s with
  | none => .error "unsupported regex".toList
  | some rest =>
    match Str.stripSuffix ['$'] rest with
    | none => .error "unsupported regex".toList
    | some body =>
      match parseToks body with
      | some toks => .ok ⟨toks⟩
      | none => .error "unsupported regex".toList

/-- Whether a whole string is matched by a token list. -/
def matchToks : List Tok → Str → Bool
  | [], s => s.isEmpty
  | .lit c :: ts, s =>
    match s with
    | x :: s' => x == c && matchToks ts s'
    | [] => false
  | .any :: ts, s =>
    match s with
    | _ :: s' => matchToks ts s'
    | [] => false
  | .many :: ts, s => s.tails.any (matchToks ts)

/-- `re.is_match(s)`: the anchors make it a full match. -/
def Regex.isMatch (r : Regex) (s : Str) : Bool := matchToks r.toks s

/-! ## Globs -/

/-- The token a glob character stands for. -/
def globTok (c : Char) : Tok :=
  if c = '?' then .any else if c = '*' then .many else .lit c

/-- The tokens of a glob. -/
def globToks (s : Str) : List Tok := s.map globTok

/-- The escaped text of a glob character after the two replacements. -/
def globText (c : Char) : Str :=
  if c = '?' then ['.'] else if c = '*' then ['.', '*'] else escapeChar c

/-- Replacing an escaped metacharacter in a text made of single characters and
escape pairs replaces exactly the pairs that spell it. -/
theorem replace_escape {q : Char} (hq : q ≠ '\\') (sub : Str) (enc : Char → Str)
    (henc : ∀ c, (∃ x, enc c = [x] ∧ x ≠ '\\' ∧ x ≠ q) ∨ ∃ x, enc c = ['\\', x]) (s : Str) :
    Str.replace ['\\', q] sub (s.flatMap enc) =
      s.flatMap fun c => if enc c = ['\\', q] then sub else enc c := by
  have hhead : ∀ (s : Str) (y : Char) (ys : Str), s.flatMap enc = y :: ys → y ≠ q := by
    intro s y ys h
    cases s with
    | nil => simp at h
    | cons c s =>
      rw [List.flatMap_cons] at h
      rcases henc c with ⟨x, hx, _, hxq⟩ | ⟨x, hx⟩
      · rw [hx] at h
        simp only [List.singleton_append, List.cons.injEq] at h
        exact h.1 ▸ hxq
      · rw [hx] at h
        simp only [List.cons_append, List.cons.injEq] at h
        exact h.1 ▸ hq.symm
  simp only [Str.replace]
  induction s with
  | nil => rfl
  | cons c s ih =>
    rw [List.flatMap_cons, List.flatMap_cons, ← ih]
    rcases henc c with ⟨x, hx, hxb, hxq⟩ | ⟨x, hx⟩
    · have hno : ¬ ['\\', q] <+: x :: s.flatMap enc := by
        rw [List.cons_prefix_cons]
        exact fun h => hxb h.1.symm
      simp [hx, replaceGo, hno]
    · by_cases hxq : x = q
      · subst hxq
        simp [hx, replaceGo]
      · have hno : ¬ ['\\', q] <+: '\\' :: x :: s.flatMap enc := by
          simp only [List.cons_prefix_cons, true_and]
          exact fun h => hxq h.1.symm
        have hno' : ¬ ['\\', q] <+: x :: s.flatMap enc := by
          intro h
          rw [List.cons_prefix_cons] at h
          obtain ⟨y, ys⟩ := h.2
          exact hhead s q y (by simpa using ys.symm) rfl
        simp [hx, hxq, replaceGo, hno, hno']

theorem escapeChar_shape (q : Char) (hq : q ∈ regexMeta) (c : Char) :
    (∃ x, escapeChar c = [x] ∧ x ≠ '\\' ∧ x ≠ q) ∨ ∃ x, escapeChar c = ['\\', x] := by
  by_cases hc : c ∈ regexMeta
  · exact Or.inr ⟨c, by simp [escapeChar, hc]⟩
  · refine Or.inl ⟨c, by simp [escapeChar, hc], ?_, ?_⟩
    · rintro rfl
      exact hc (by decide)
    · rintro rfl
      exact hc hq

theorem escapeChar_eq_pair {c q : Char} (hq : q ∈ regexMeta) :
    escapeChar c = ['\\', q] ↔ c = q := by
  constructor
  · intro h
    by_cases hc : c ∈ regexMeta
    · simpa [escapeChar, hc] using h
    · simp [escapeChar, hc] at h
  · rintro rfl
    simp [escapeChar, hq]

/-- The text `wildcard_to_regexp` builds, character by character. -/
theorem wildcardToRegexp_eq (pattern : Str) :
    wildcardToRegexp pattern = pattern.flatMap globText := by
  have h1 := replace_escape (q := '?') (by decide) ['.'] escapeChar
    (escapeChar_shape '?' (by decide)) pattern
  have hfirst : (fun c => if escapeChar c = ['\\', '?'] then ['.'] else escapeChar c) =
      fun c => if c = '?' then ['.'] else escapeChar c := by
    funext c
    simp only [escapeChar_eq_pair (q := '?') (by decide)]
  rw [hfirst] at h1
  have h2 := replace_escape (q := '*') (by decide) ['.', '*']
    (fun c => if c = '?' then ['.'] else escapeChar c) (by
      intro c
      by_cases hc : c = '?'
      · exact Or.inl ⟨'.', by simp [hc], by decide, by decide⟩
      · simpa [hc] using escapeChar_shape '*' (by decide) c) pattern
  rw [wildcardToRegexp, regexEscape, h1, h2]
  congr 1
  funext c
  by_cases hc : c = '?'
  · simp [globText, hc]
  · simp only [globText, if_neg hc, escapeChar_eq_pair (q := '*') (by decide)]

/-! ## Compiling -/

/-- The text of a glob never starts with a bare `*`, so `.` before it is read
as "any character". -/
theorem flatMap_globText_ne_star (s : Str) (ys : Str) : s.flatMap globText ≠ '*' :: ys := by
  intro h
  cases s with
  | nil => simp at h
  | cons c s =>
    rw [List.flatMap_cons] at h
    simp only [globText] at h
    split at h
    · simp at h
    · split at h
      · simp at h
      · rename_i _ hstar
        simp only [escapeChar] at h
        split at h
        · simp at h
        · simp only [List.singleton_append, List.cons.injEq] at h
          exact hstar h.1

theorem parseToks_lit {c : Char} (hc : c ∉ regexMeta) (s : Str) :
    parseToks (c :: s) = (parseToks s).map (.lit c :: ·) := by
  have hb : c ≠ '\\' := by
    rintro rfl
    exact hc (by decide)
  have hd : c ≠ '.' := by
    rintro rfl
    exact hc (by decide)
  rw [parseToks]
  · simp [hc]
  · intro c' s' h
    simp_all
  · intro s' h
    simp_all
  · intro h
    simp_all

theorem parseToks_escapeChar (c : Char) (s : Str) :
    parseToks (escapeChar c ++ s) = (parseToks s).map (.lit c :: ·) := by
  by_cases hc : c ∈ regexMeta
  · simp [escapeChar, hc, parseToks]
  · simp only [escapeChar, if_neg hc, List.singleton_append]
    exact parseToks_lit hc s

theorem parseToks_regexEscape (p s : Str) :
    parseToks (regexEscape p ++ s) = (parseToks s).map (p.map .lit ++ ·) := by
  induction p with
  | nil => simp [regexEscape]
  | cons c p ih =>
    have : regexEscape (c :: p) ++ s = escapeChar c ++ (regexEscape p ++ s) := by
      simp [regexEscape]
    rw [this, parseToks_escapeChar, ih, Option.map_map]
    rfl

theorem parseToks_globText (s : Str) : parseToks (s.flatMap globText) = some (globToks s) := by
  induction s with
  | nil => rfl
  | cons c s ih =>
    rw [List.flatMap_cons]
    by_cases hq : c = '?'
    · subst hq
      have hrest : parseToks ('.' :: s.flatMap globText) =
          (parseToks (s.flatMap globText)).map (.any :: ·) := by
        rw [parseToks]
        intro s' h
        exact flatMap_globText_ne_star s s' h
      simpa [globText, ih, globToks, globTok] using hrest
    · by_cases hs : c = '*'
      · subst hs
        simp [globText, parseToks, ih, globToks, globTok]
      · simp only [globText, if_neg hq, if_neg hs]
        rw [parseToks_escapeChar, ih]
        simp [globToks, globTok, hq, hs]

/-- Compiling an anchored text with the `s` flag parses what is between the
anchors. -/
theorem Regex.new_anchored (body : Str) {toks : List Tok} (h : parseToks body = some toks) :
    Regex.new (addNewlineFlag (matchFromStartToEnd body)) = .ok ⟨toks⟩ := by
  have htext : addNewlineFlag (matchFromStartToEnd body) = "(?s)^".toList ++ (body ++ ['$']) := by
    rfl
  have hsuf : Str.stripSuffix ['$'] (body ++ ['$']) = some body := by
    simp [Str.stripSuffix]
  rw [Regex.new, htext, Str.stripPrefix_append]
  simp only [hsuf, h]

/-- **The compiled filter of a glob is the glob.** -/
theorem regexNew_glob (pattern : Str) :
    Regex.new (addNewlineFlag (matchFromStartToEnd (wildcardToRegexp pattern))) =
      .ok ⟨globToks pattern⟩ :=
  Regex.new_anchored _ (by rw [wildcardToRegexp_eq, parseToks_globText])

/-! ## Matching -/

theorem matchToks_many (ts : List Tok) (s : Str) :
    matchToks (.many :: ts) s = true ↔ ∃ a b, s = a ++ b ∧ matchToks ts b = true := by
  simp only [matchToks, List.any_eq_true, List.mem_tails]
  constructor
  · rintro ⟨b, ⟨a, rfl⟩, hb⟩
    exact ⟨a, b, rfl, hb⟩
  · rintro ⟨a, b, rfl, hb⟩
    exact ⟨b, ⟨a, rfl⟩, hb⟩

/-- A literal token list in front must be read first. -/
theorem matchToks_lits (p : Str) (ts : List Tok) (s : Str) :
    matchToks (p.map .lit ++ ts) s = true ↔ ∃ t, s = p ++ t ∧ matchToks ts t = true := by
  induction p generalizing s with
  | nil => simp
  | cons c p ih =>
    cases s with
    | nil => simp [matchToks]
    | cons x s =>
      simp only [List.map_cons, List.cons_append, matchToks, Bool.and_eq_true, beq_iff_eq, ih,
        List.cons.injEq]
      constructor
      · rintro ⟨rfl, t, rfl, ht⟩
        exact ⟨t, ⟨rfl, rfl⟩, ht⟩
      · rintro ⟨t, ⟨rfl, rfl⟩, ht⟩
        exact ⟨rfl, t, rfl, ht⟩

/-- What is matched by tokens with a literal at the end ends with that. -/
theorem endsWith_of_matchToks {c : Char} (ts : List Tok) {s : Str}
    (h : matchToks (ts ++ [.lit c]) s = true) : Str.endsWith c s = true := by
  -- the last character of the rest is the last one of the text
  have hrest : ∀ {a b : Str}, Str.endsWith c b = true → Str.endsWith c (a ++ b) = true := by
    intro a b hb
    rw [Str.endsWith_append]
    · exact hb
    · rintro rfl
      cases hb
  induction ts generalizing s with
  | nil =>
    obtain ⟨t, rfl, ht⟩ := (matchToks_lits [c] [] s).mp h
    obtain rfl : t = [] := by simpa [matchToks] using ht
    simp [Str.endsWith]
  | cons tok ts ih =>
    cases tok with
    | lit x =>
      obtain ⟨t, rfl, ht⟩ := (matchToks_lits [x] _ s).mp h
      exact hrest (ih ht)
    | any =>
      cases s with
      | nil => cases h
      | cons x s => exact hrest (a := [x]) (ih h)
    | many =>
      obtain ⟨a, b, rfl, hb⟩ := (matchToks_many _ s).mp h
      exact hrest (ih hb)

end Rs5cmd
