import Mathlib.Algebra.Group.Nat.Defs
import Mathlib.Data.List.Basic
import Mathlib.Data.List.Infix
import Mathlib.Data.List.DropRight

/-!
# Strings

A Rust `str` is a sequence of Unicode scalar values; `Str` is that sequence.
Byte offsets never matter to the modelled code except as positions of ASCII
separators, where a character offset marks the same place.

The functions below are the `str` methods the modelled code calls, under the
standard library's names.
-/

namespace Rs5cmd

/-- A string, as its sequence of scalar values. -/
abbrev Str := List Char

instance : LawfulBEq Str := inferInstanceAs (LawfulBEq (List Char))

namespace Str

/-- `s.starts_with(p)`. -/
def startsWith (p s : Str) : Bool := decide (p <+: s)

/-- `s.ends_with(c)`. -/
def endsWith (c : Char) (s : Str) : Bool := s.getLast? == some c

/-- `s.ends_with(p)` for a string pattern. -/
def endsWithStr (p s : Str) : Bool := decide (p <:+ s)

/-- `s.strip_prefix(p)`. -/
def stripPrefix (p s : Str) : Option Str :=
  if p <+: s then some (s.drop p.length) else none

/-- `s.strip_suffix(p)`. -/
def stripSuffix (p s : Str) : Option Str :=
  if p <:+ s then some (s.take (s.length - p.length)) else none

/-- `s.strip_prefix(p).unwrap_or(s)`. -/
def trimPrefix (p s : Str) : Str := (stripPrefix p s).getD s

/-- `s.find(c)` for a character predicate. -/
def find (p : Char → Bool) (s : Str) : Option Nat := s.findIdx? p

/-- `s.rfind(c)`: the position of the last `c`. -/
def rfind (c : Char) : Str → Option Nat
  | [] => none
  | x :: s =>
    match rfind c s with
    | some i => some (i + 1)
    | none => if x = c then some 0 else none

/-- `s.trim_end_matches(c)`. -/
def trimEndMatches (c : Char) (s : Str) : Str := s.rdropWhile (· == c)

/-- `s.split_once(pat)`: the text before and after the first `pat`. -/
def splitOnce (pat : Str) : Str → Option (Str × Str)
  | [] => if pat = [] then some ([], []) else none
  | x :: s =>
    if pat <+: x :: s then some ([], (x :: s).drop pat.length)
    else (splitOnce pat s).map fun ab => (x :: ab.1, ab.2)

/-- `s.contains(pat)`. -/
def contains (pat s : Str) : Bool := decide (pat <:+: s)

/-- `s.split(c)`. -/
def split (c : Char) (s : Str) : List Str := s.splitOn c

/-- `parts.join(sep)`. -/
def join (sep : Char) (parts : List Str) : Str := [sep].intercalate parts

/-- `s.to_ascii_lowercase()`. -/
def toAsciiLowercase (s : Str) : Str := s.map Char.toLower

/-! ## The last separator -/

/-- `rfind` finds nothing exactly when the character does not occur. -/
theorem rfind_eq_none {c : Char} {s : Str} : rfind c s = none ↔ c ∉ s := by
  induction s with
  | nil => simp [rfind]
  | cons x s ih =>
    cases h : rfind c s with
    | some i =>
      have hmem : c ∈ s := by
        by_contra hc
        rw [ih.mpr hc] at h
        exact absurd h (by simp)
      simp [rfind, h, hmem]
    | none =>
      have hc := ih.mp h
      simp only [rfind, h, List.mem_cons, not_or]
      by_cases hx : x = c
      · simp [hx]
      · simp [hx, hc, Ne.symm hx]

/-- Where `rfind` finds the last `c`: the text around it. -/
theorem rfind_eq_some {c : Char} {s : Str} {i : Nat} :
    rfind c s = some i ↔ ∃ a b, s = a ++ c :: b ∧ c ∉ b ∧ a.length = i := by
  induction s generalizing i with
  | nil => simp [rfind]
  | cons x s ih =>
    constructor
    · intro h
      simp only [rfind] at h
      cases hr : rfind c s with
      | some j =>
        rw [hr] at h
        obtain ⟨a, b, rfl, hb, rfl⟩ := ih.mp hr
        refine ⟨x :: a, b, rfl, hb, ?_⟩
        simpa using h
      | none =>
        rw [hr] at h
        by_cases hx : x = c
        · subst hx
          simp only [if_true, Option.some.injEq] at h
          exact ⟨[], s, rfl, rfind_eq_none.mp hr, h⟩
        · simp [hx] at h
    · rintro ⟨a, b, hs, hb, rfl⟩
      cases a with
      | nil =>
        simp only [List.nil_append, List.cons.injEq] at hs
        obtain ⟨rfl, rfl⟩ := hs
        simp [rfind, rfind_eq_none.mpr hb]
      | cons y a =>
        simp only [List.cons_append, List.cons.injEq] at hs
        obtain ⟨rfl, rfl⟩ := hs
        have hr : rfind c (a ++ c :: b) = some a.length := ih.mpr ⟨a, b, rfl, hb, rfl⟩
        simp [rfind, hr]

/-! ## Stripping -/

@[simp] theorem stripPrefix_append (p s : Str) : stripPrefix p (p ++ s) = some s := by
  simp [stripPrefix]

theorem stripSuffix_eq_some {p s t : Str} : stripSuffix p s = some t ↔ s = t ++ p := by
  unfold stripSuffix
  constructor
  · intro h
    split at h
    · rename_i hp
      obtain ⟨u, rfl⟩ := hp
      simpa using h
    · cases h
  · rintro rfl
    simp

theorem stripPrefix_eq_some {p s t : Str} : stripPrefix p s = some t ↔ s = p ++ t := by
  constructor
  · intro h
    simp only [stripPrefix] at h
    split at h
    · rename_i hp
      obtain ⟨u, rfl⟩ := hp
      simp only [List.drop_left', Option.some.injEq] at h
      rw [h]
    · simp at h
  · rintro rfl
    simp

@[simp] theorem trimPrefix_append (p s : Str) : trimPrefix p (p ++ s) = s := by
  simp [trimPrefix]

/-- Trailing separators and the text before them. -/
theorem exists_trimEndMatches (c : Char) (s : Str) :
    ∃ n, s = trimEndMatches c s ++ List.replicate n c := by
  refine ⟨(s.rtakeWhile (· == c)).length, ?_⟩
  have hrep : s.rtakeWhile (· == c) = List.replicate (s.rtakeWhile (· == c)).length c := by
    rw [List.eq_replicate_iff]
    refine ⟨rfl, fun b hb => ?_⟩
    simpa using List.mem_rtakeWhile_imp hb
  rw [← hrep]
  exact List.rdropWhile_append_rtakeWhile.symm

theorem trimEndMatches_concat {c : Char} {s : Str} (h : c ∉ s) :
    trimEndMatches c (s ++ [c]) = s := by
  unfold trimEndMatches
  rw [List.rdropWhile_concat_pos _ _ _ (by simp), List.rdropWhile_eq_self_iff]
  intro hne
  have hlast : s.getLast hne ∈ s := List.getLast_mem hne
  simp only [beq_iff_eq]
  intro heq
  exact h (heq ▸ hlast)

/-- The last character of an appended text. -/
theorem endsWith_append (c : Char) (a : Str) {b : Str} (hb : b ≠ []) :
    endsWith c (a ++ b) = endsWith c b := by
  rw [endsWith, endsWith, List.getLast?_append_of_ne_nil _ hb]

theorem endsWith_of_not_mem {c : Char} {s : Str} (h : c ∉ s) : endsWith c s = false := by
  rw [endsWith, beq_eq_false_iff_ne]
  intro hlast
  exact h (List.mem_of_getLast? hlast)

/-! ## Splitting once -/

/-- `split_once` at a character: the text around its first occurrence. -/
theorem splitOnce_char (c : Char) (s : Str) :
    (splitOnce [c] s = none ∧ c ∉ s) ∨
      ∃ a b, splitOnce [c] s = some (a, b) ∧ s = a ++ c :: b ∧ c ∉ a := by
  induction s with
  | nil => exact Or.inl ⟨by simp [splitOnce], by simp⟩
  | cons x s ih =>
    by_cases hx : x = c
    · subst hx
      exact Or.inr ⟨[], s, by simp [splitOnce], rfl, by simp⟩
    · have hno : ¬ [c] <+: x :: s := by
        rw [List.cons_prefix_cons]
        exact fun h => hx h.1.symm
      rcases ih with ⟨hnone, hmem⟩ | ⟨a, b, hsome, rfl, ha⟩
      · exact Or.inl ⟨by rw [splitOnce, if_neg hno, hnone]; rfl, by simp [hmem, Ne.symm hx]⟩
      · exact Or.inr ⟨x :: a, b, by rw [splitOnce, if_neg hno, hsome]; rfl, rfl,
          by simp [ha, Ne.symm hx]⟩

theorem splitOnce_char_append {c : Char} {a : Str} (ha : c ∉ a) (b : Str) :
    splitOnce [c] (a ++ c :: b) = some (a, b) := by
  induction a with
  | nil => simp [splitOnce]
  | cons x a ih =>
    have hx : x ≠ c := fun h => ha (by simp [h])
    have hno : ¬ [c] <+: x :: (a ++ c :: b) := by
      rw [List.cons_prefix_cons]
      exact fun h => hx h.1.symm
    rw [List.cons_append, splitOnce, if_neg hno, ih fun h => ha (List.mem_cons_of_mem x h)]
    rfl

theorem splitOnce_eq_some {pat s a b : Str} (h : splitOnce pat s = some (a, b)) :
    s = a ++ pat ++ b := by
  induction s generalizing a with
  | nil =>
    simp only [splitOnce] at h
    split at h
    · rename_i hpat
      obtain ⟨rfl, rfl⟩ := Prod.mk.inj (Option.some.inj h)
      simp [hpat]
    · cases h
  | cons x s ih =>
    rw [splitOnce] at h
    split at h
    · rename_i hpre
      obtain ⟨t, ht⟩ := hpre
      obtain ⟨rfl, rfl⟩ := Prod.mk.inj (Option.some.inj h)
      rw [← ht]
      simp
    · obtain ⟨⟨a', b'⟩, hab, heq⟩ := Option.map_eq_some_iff.mp h
      obtain ⟨rfl, rfl⟩ := Prod.mk.inj heq
      rw [List.cons_append, List.cons_append, ← ih hab]

/-- Nothing is split exactly when the separator does not occur. -/
theorem splitOnce_eq_none {pat s : Str} (hpat : pat ≠ []) :
    splitOnce pat s = none ↔ ¬ pat <:+: s := by
  induction s with
  | nil => simp [splitOnce, hpat]
  | cons x s ih =>
    rw [splitOnce, List.infix_cons_iff]
    split
    · rename_i hpre
      simp [hpre]
    · rename_i hpre
      simp [hpre, ih]

/-! ## Numbers in text -/

/-- `char::is_whitespace`: the characters with the `White_Space` property. -/
def isWhitespace (c : Char) : Bool :=
  let n := c.toNat
  (9 ≤ n && n ≤ 13) || n == 0x20 || n == 0x85 || n == 0xa0 || n == 0x1680 ||
    (0x2000 ≤ n && n ≤ 0x200a) || n == 0x2028 || n == 0x2029 || n == 0x202f || n == 0x205f ||
    n == 0x3000

/-- `s.trim()`. -/
def trim (s : Str) : Str := (s.dropWhile isWhitespace).rdropWhile isWhitespace

/-- `s.rsplit(c).next()`: the text after the last `c`. -/
def afterLast (c : Char) (s : Str) : Str := s.rtakeWhile (· != c)

/-- The value of a non-empty run of decimal digits below `bound`. -/
def parseDigits (bound : Nat) (s : Str) : Option Nat :=
  if s.isEmpty || !s.all Char.isDigit then none
  else
    let n := Nat.ofDigitChars 10 s 0
    if n < bound then some n else none

/-- `s.parse::<u32>()`, `s.parse::<u64>()`: an optional `+` and digits that fit. -/
def parseUnsigned (bits : Nat) : Str → Option Nat
  | '+' :: s => parseDigits (2 ^ bits) s
  | s => parseDigits (2 ^ bits) s

/-- `s.parse::<i64>()`. -/
def parseI64 : Str → Option Int
  | '+' :: s => (parseDigits (2 ^ 63) s).map Int.ofNat
  | '-' :: s => (parseDigits (2 ^ 63 + 1) s).map fun n => -Int.ofNat n
  | s => (parseDigits (2 ^ 63) s).map Int.ofNat

/-- `n.to_string()`. -/
def decimal (n : Nat) : Str := Nat.toDigits 10 n

theorem isDigit_of_mem_decimal {n : Nat} {c : Char} (hc : c ∈ decimal n) : c.isDigit = true :=
  Nat.isDigit_of_mem_toDigits (by omega) (by omega) hc

theorem parseDigits_decimal {bound n : Nat} (h : n < bound) :
    parseDigits bound (decimal n) = some n := by
  have hall : (decimal n).all Char.isDigit = true :=
    List.all_eq_true.mpr fun c hc => isDigit_of_mem_decimal hc
  have hne : (decimal n).isEmpty = false := List.isEmpty_eq_false_iff.mpr Nat.toDigits_ne_nil
  have hval : Nat.ofDigitChars 10 (decimal n) 0 = n := Nat.ofDigitChars_ten_toDigits
  simp [parseDigits, hall, hne, hval, h]

/-- A number's decimal text reads back as the number. -/
theorem parseUnsigned_decimal {bits n : Nat} (h : n < 2 ^ bits) :
    parseUnsigned bits (decimal n) = some n := by
  -- a digit is not the sign
  have hsign : ∀ t, decimal n ≠ '+' :: t := by
    intro t ht
    have hd : Char.isDigit '+' = true := isDigit_of_mem_decimal (ht ▸ List.mem_cons_self)
    exact absurd hd (by decide)
  unfold parseUnsigned
  split
  · rename_i t ht
    exact absurd ht (hsign t)
  · exact parseDigits_decimal h

theorem not_isWhitespace_of_isDigit {c : Char} (h : c.isDigit = true) : isWhitespace c = false := by
  simp only [Char.isDigit, Bool.and_eq_true, decide_eq_true_eq, ge_iff_le, UInt32.le_iff_toNat_le] at h
  have h1 : 48 ≤ c.toNat := h.1
  have h2 : c.toNat ≤ 57 := h.2
  simp only [isWhitespace, Bool.or_eq_false_iff, Bool.and_eq_false_iff, decide_eq_false_iff_not,
    beq_eq_false_iff_ne, not_le]
  omega

theorem trim_decimal (n : Nat) : trim (decimal n) = decimal n := by
  have hno : ∀ c ∈ decimal n, ¬ isWhitespace c = true := by
    intro c hc
    rw [not_isWhitespace_of_isDigit (isDigit_of_mem_decimal hc)]
    exact Bool.false_ne_true
  have hdrop : (decimal n).dropWhile isWhitespace = decimal n := by
    apply List.dropWhile_eq_self_iff.mpr
    intro hl
    exact hno _ (List.getElem_mem hl)
  rw [trim, hdrop]
  apply List.rdropWhile_eq_self_iff.mpr
  intro hne
  exact hno _ (List.getLast_mem hne)

theorem afterLast_append {c : Char} (a : Str) {b : Str} (hb : c ∉ b) :
    afterLast c (a ++ c :: b) = b := by
  have hall : ∀ x ∈ b.reverse, (x != c) = true := by
    intro x hx
    have hx' := List.mem_reverse.mp hx
    simp only [bne_iff_ne, ne_eq]
    intro heq
    exact hb (heq ▸ hx')
  rw [afterLast, List.rtakeWhile, List.reverse_append, List.reverse_cons, List.append_assoc,
    List.takeWhile_append_of_pos hall]
  simp

end Str

end Rs5cmd
