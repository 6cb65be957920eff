import Mathlib.Data.List.Basic

/-!
# UTF-8 as byte lists

`encode` is the byte sequence of a scalar-value sequence. `decodeLossy` is the
decoder that never fails: it reads one character where the bytes spell one and
otherwise emits U+FFFD for the longest prefix of an ill-formed sequence that
could still have been continued. On encoded text nothing is lost
(`decodeLossy_encode`).
-/

namespace Utf8

/-- The bytes of a text. -/
def encode (s : List Char) : List UInt8 := s.flatMap String.utf8EncodeChar

@[simp] theorem encode_nil : encode [] = [] := rfl

@[simp] theorem encode_cons (c : Char) (s : List Char) :
    encode (c :: s) = String.utf8EncodeChar c ++ encode s := rfl

theorem encode_append (s t : List Char) : encode (s ++ t) = encode s ++ encode t := by
  simp [encode]

/-- The character the bytes start with, if they start with one. -/
def decodeChar? (bs : List UInt8) : Option Char := bs.toByteArray.utf8DecodeChar? 0

/-- A continuation byte. -/
def isCont (b : UInt8) : Bool := 0x80 ≤ b && b ≤ 0xBF

/-- Whether `b1` can follow the lead byte `b0` of a sequence of three or four
bytes. -/
def isSecond (b0 b1 : UInt8) : Bool :=
  if b0 = 0xE0 then 0xA0 ≤ b1 && b1 ≤ 0xBF
  else if b0 = 0xED then 0x80 ≤ b1 && b1 ≤ 0x9F
  else if 0xE1 ≤ b0 && b0 ≤ 0xEF then isCont b1
  else if b0 = 0xF0 then 0x90 ≤ b1 && b1 ≤ 0xBF
  else if b0 = 0xF4 then 0x80 ≤ b1 && b1 ≤ 0x8F
  else if 0xF1 ≤ b0 && b0 ≤ 0xF3 then isCont b1
  else false

/-- How many bytes one replacement character stands for. -/
def badLen : List UInt8 → Nat
  | b0 :: b1 :: b2 :: _ =>
    if isSecond b0 b1 then if 0xF0 ≤ b0 && isCont b2 then 3 else 2 else 1
  | b0 :: b1 :: _ => if isSecond b0 b1 then 2 else 1
  | _ => 1

/-- Lossy decoding of at most `n` characters. -/
def decodeGo : Nat → List UInt8 → List Char
  | 0, _ => []
  | _ + 1, [] => []
  | n + 1, b :: bs =>
    match decodeChar? (b :: bs) with
    | some c => c :: decodeGo n ((b :: bs).drop c.utf8Size)
    | none => '\uFFFD' :: decodeGo n ((b :: bs).drop (badLen (b :: bs)))

/-- Lossy decoding. Every character takes at least one byte. -/
def decodeLossy (bs : List UInt8) : List Char := decodeGo bs.length bs

theorem decodeChar?_encode_cons (c : Char) (s : List Char) :
    decodeChar? (encode (c :: s)) = some c := by
  rw [decodeChar?, encode_cons, List.toByteArray_append]
  exact ByteArray.utf8DecodeChar?_utf8EncodeChar_append

theorem length_encode_cons (c : Char) (s : List Char) :
    (encode (c :: s)).length = c.utf8Size + (encode s).length := by
  simp

theorem decodeGo_encode (s : List Char) (n : Nat) (hn : (encode s).length ≤ n) :
    decodeGo n (encode s) = s := by
  induction s generalizing n with
  | nil => cases n <;> rfl
  | cons c s ih =>
    have hpos := c.utf8Size_pos
    rw [length_encode_cons] at hn
    obtain ⟨m, rfl⟩ : ∃ m, n = m + 1 := ⟨n - 1, by omega⟩
    have hne : encode (c :: s) ≠ [] := by
      intro h
      have := congrArg List.length h
      rw [length_encode_cons, List.length_nil] at this
      omega
    obtain ⟨b, bs, hbs⟩ := List.exists_cons_of_ne_nil hne
    have hdrop : (encode (c :: s)).drop c.utf8Size = encode s := by
      rw [encode_cons, ← String.length_utf8EncodeChar, List.drop_left]
    have hdec := decodeChar?_encode_cons c s
    rw [hbs] at hdec hdrop ⊢
    simp only [decodeGo, hdec, hdrop]
    rw [ih m (by omega)]

/-- **Encoded text decodes to itself.** -/
theorem decodeLossy_encode (s : List Char) : decodeLossy (encode s) = s :=
  decodeGo_encode s _ (Nat.le_refl _)

/-! ## ASCII bytes -/

/-- A byte below `0x80` in an encoding is an ASCII character on its own. -/
theorem eq_of_mem_utf8EncodeChar {c : Char} {b : UInt8} (hb : b ∈ String.utf8EncodeChar c)
    (hlt : b.toNat < 0x80) : String.utf8EncodeChar c = [b] ∧ c.toNat = b.toNat := by
  unfold String.utf8EncodeChar at hb ⊢
  simp only at hb ⊢
  have hv : c.val.toNat < 0x110000 := by
    have := c.valid
    rcases this with h | ⟨_, h⟩
    · have : c.val.toNat < 0xd800 := h
      omega
    · exact h
  split at hb
  · rename_i h1
    simp only [List.mem_singleton] at hb
    subst hb
    rw [if_pos h1]
    refine ⟨rfl, ?_⟩
    simp only [Char.toNat, UInt8.toNat_ofNat']
    omega
  · exfalso
    split at hb
    · simp only [List.mem_cons, List.not_mem_nil, or_false] at hb
      rcases hb with rfl | rfl <;> simp [UInt8.toNat_ofNat'] at hlt <;> omega
    · split at hb
      · simp only [List.mem_cons, List.not_mem_nil, or_false] at hb
        rcases hb with rfl | rfl | rfl <;> simp [UInt8.toNat_ofNat'] at hlt <;> omega
      · simp only [List.mem_cons, List.not_mem_nil, or_false] at hb
        rcases hb with rfl | rfl | rfl | rfl <;> simp [UInt8.toNat_ofNat'] at hlt <;> omega

end Utf8
