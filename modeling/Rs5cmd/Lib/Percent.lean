import Rs5cmd.Lib.Utf8

/-!
# Percent encoding

The text that spells a byte string with every byte outside a set of kept ASCII
bytes written `%XX`.
-/

namespace Percent

/-- The ASCII character of a byte. -/
def ascii (b : UInt8) : Char := Char.ofNat b.toNat

/-- The upper-case hexadecimal digit of a nibble, as a byte. -/
def hexDigit (n : UInt8) : UInt8 := if n < 10 then 48 + n else 55 + n

/-- The ASCII bytes one byte is written as. -/
def encodeByte (keep : UInt8 → Bool) (b : UInt8) : List UInt8 :=
  if keep b then [b] else [37, hexDigit (b >>> 4), hexDigit (b &&& 15)]

/-- The encoded text of a text. -/
def encode (keep : UInt8 → Bool) (s : List Char) : List Char :=
  ((Utf8.encode s).flatMap (encodeByte keep)).map ascii

theorem utf8EncodeChar_ascii (b : UInt8) (h : b < 128) :
    String.utf8EncodeChar (ascii b) = [b] := by
  have hall : ∀ n : Fin 128, String.utf8EncodeChar (Char.ofNat n) = [UInt8.ofNat n] := by
    decide
  have hb : b.toNat < 128 := by simpa using UInt8.lt_iff_toNat_lt.mp h
  have := hall ⟨b.toNat, hb⟩
  simpa [ascii] using this

/-- ASCII text is its own byte string. -/
theorem utf8_encode_map_ascii (bs : List UInt8) (h : ∀ b ∈ bs, b < 128) :
    Utf8.encode (bs.map ascii) = bs := by
  induction bs with
  | nil => rfl
  | cons b bs ih =>
    have hb := h b (List.mem_cons_self)
    have hbs := ih fun x hx => h x (List.mem_cons_of_mem b hx)
    rw [List.map_cons, Utf8.encode_cons, utf8EncodeChar_ascii b hb, hbs]
    rfl

theorem hexDigit_lt (n : UInt8) (h : n < 16) : hexDigit n < 128 := by
  have hall : ∀ n : Fin 16, hexDigit (UInt8.ofNat n) < 128 := by decide
  have hn : n.toNat < 16 := by simpa using UInt8.lt_iff_toNat_lt.mp h
  simpa using hall ⟨n.toNat, hn⟩

theorem nibbles_lt (b : UInt8) : b >>> 4 < 16 ∧ b &&& 15 < 16 := by
  constructor
  · rw [UInt8.lt_iff_toNat_lt]
    have := b.toNat_lt
    simp [Nat.shiftRight_eq_div_pow]
    omega
  · rw [UInt8.lt_iff_toNat_lt]
    have : b.toNat &&& 15 ≤ 15 := Nat.and_le_right
    simp
    omega

theorem encodeByte_lt {keep : UInt8 → Bool} (hkeep : ∀ b, keep b = true → b < 128) (b x : UInt8)
    (hx : x ∈ encodeByte keep b) : x < 128 := by
  unfold encodeByte at hx
  split at hx
  · rename_i hk
    rw [List.mem_singleton.mp hx]
    exact hkeep b hk
  · simp only [List.mem_cons, List.not_mem_nil, or_false] at hx
    obtain rfl | rfl | rfl := hx
    · decide
    · exact hexDigit_lt _ (nibbles_lt b).1
    · exact hexDigit_lt _ (nibbles_lt b).2

/-- The byte string of an encoded text. -/
theorem utf8_encode_encode {keep : UInt8 → Bool} (hkeep : ∀ b, keep b = true → b < 128)
    (s : List Char) :
    Utf8.encode (encode keep s) = (Utf8.encode s).flatMap (encodeByte keep) := by
  refine utf8_encode_map_ascii _ fun x hx => ?_
  obtain ⟨b, _, hx⟩ := List.mem_flatMap.mp hx
  exact encodeByte_lt hkeep b x hx

end Percent
