import Rs5cmd.Fastpath.Client
import Rs5cmd.Storage.S3.CopySource

/-!
# Encoded keys

The two paths of a copy spell its source differently: the default one writes a space
as `+`, the fast one as `%20`. Apart from that they agree. What the fast path writes
is read back by the decoder of listings as the key it came from.
-/

namespace Rs5cmd

/-! ## The two copy sources -/

/-- The text with `%20` for each `+`. -/
def percentForPlus (s : Str) : Str := s.flatMap fun c => if c = '+' then "%20".toList else [c]

theorem percentForPlus_append (s t : Str) :
    percentForPlus (s ++ t) = percentForPlus s ++ percentForPlus t :=
  List.flatMap_append

theorem percentForPlus_eq_self {s : Str} (h : '+' ∉ s) : percentForPlus s = s := by
  induction s with
  | nil => rfl
  | cons c s ih =>
    rw [List.mem_cons, not_or] at h
    obtain ⟨hc, hs⟩ := h
    have hrest : percentForPlus s = s := ih hs
    rw [percentForPlus, List.flatMap_cons, if_neg (Ne.symm hc)]
    exact congrArg (c :: ·) hrest

/-- The characters of an escaped byte. -/
theorem ascii_encodeByte_ne_plus (b : UInt8) :
    '+' ∉ (Percent.encodeByte isKeySafe b).map Percent.ascii := by
  have hall : ∀ n : Fin 256, '+' ∉ (Percent.encodeByte isKeySafe (UInt8.ofNat n)).map Percent.ascii := by
    decide +kernel
  have hb := hall ⟨b.toNat, b.toNat_lt⟩
  simpa using hb

theorem percentForPlus_urlEncodeByte (b : UInt8) :
    percentForPlus ((urlEncodeByte b).map Percent.ascii) =
      (Percent.encodeByte isKeySafe b).map Percent.ascii := by
  unfold urlEncodeByte
  split
  · rename_i hb
    subst hb
    decide
  · exact percentForPlus_eq_self (ascii_encodeByte_ne_plus b)

theorem percentForPlus_urlEncode (s : Str) : percentForPlus (urlEncode s) = encodeKeyPath s := by
  rw [urlEncode, encodeKeyPath, Percent.encode]
  induction Utf8.encode s with
  | nil => rfl
  | cons b bs ih =>
    rw [List.flatMap_cons, List.map_append, percentForPlus_append, ih, percentForPlus_urlEncodeByte,
      List.flatMap_cons, List.map_append]

theorem plus_not_mem_encodeKeyPath (s : Str) : '+' ∉ encodeKeyPath s := by
  rw [encodeKeyPath, Percent.encode]
  induction Utf8.encode s with
  | nil => exact List.not_mem_nil
  | cons b bs ih =>
    rw [List.flatMap_cons, List.map_append, List.mem_append, not_or]
    exact ⟨ascii_encodeByte_ne_plus b, ih⟩

theorem urlEncode_eq_encodeKeyPath {s : Str} (hs : ' ' ∉ s) : urlEncode s = encodeKeyPath s := by
  have hbyte : ∀ b ∈ Utf8.encode s, urlEncodeByte b = Percent.encodeByte isKeySafe b := by
    intro b hb
    have hne : b ≠ 32 := by
      rintro rfl
      obtain ⟨c, hc, hmem⟩ := List.mem_flatMap.mp hb
      have hnat := (Utf8.eq_of_mem_utf8EncodeChar hmem (by decide)).2
      have hspace : c = ' ' := by
        rw [← Char.ofNat_toNat c, hnat]
        rfl
      exact hs (hspace ▸ hc)
    exact if_neg hne
  rw [urlEncode, encodeKeyPath, Percent.encode, List.flatMap_congr hbyte]

/-- A space is sent as a `+` by the one and not by the other. -/
theorem urlEncode_eq_encodeKeyPath_iff {s : Str} : urlEncode s = encodeKeyPath s ↔ ' ' ∉ s := by
  refine ⟨fun heq hmem => ?_, urlEncode_eq_encodeKeyPath⟩
  obtain ⟨a, b, rfl⟩ := List.append_of_mem hmem
  refine plus_not_mem_encodeKeyPath (a ++ ' ' :: b) ?_
  rw [← heq, urlEncode_append, ← List.singleton_append, urlEncode_append]
  exact List.mem_append_right _ (List.mem_append_left _ (by decide))

/-- A text of unreserved characters is its own encoding. -/
theorem encodeKeyPath_eq_self {s : Str} (hs : ∀ b ∈ Utf8.encode s, isUnreserved b = true) :
    encodeKeyPath s = s := by
  have hkeep : ∀ b ∈ Utf8.encode s, isKeySafe b = true := by
    intro b hb
    have hun := hs b hb
    simp only [isUnreserved, isKeySafe, Bool.or_eq_true] at hun ⊢
    exact .inl hun
  have hbytes : (Utf8.encode s).flatMap (Percent.encodeByte isKeySafe) = Utf8.encode s := by
    have hone : ∀ b ∈ Utf8.encode s, Percent.encodeByte isKeySafe b = [b] :=
      fun b hb => if_pos (hkeep b hb)
    rw [List.flatMap_congr hone]
    exact List.flatMap_singleton' _
  have hback := congrArg Utf8.decodeLossy (Percent.utf8_encode_map_ascii (Utf8.encode s)
    fun b hb => isKeySafe_lt b (hkeep b hb))
  rw [Utf8.decodeLossy_encode, Utf8.decodeLossy_encode] at hback
  rw [encodeKeyPath, Percent.encode, hbytes]
  exact hback

theorem space_not_mem_of_unreserved {s : Str} (hs : ∀ b ∈ Utf8.encode s, isUnreserved b = true) :
    ' ' ∉ s := by
  intro hmem
  have hbyte : (32 : UInt8) ∈ Utf8.encode s := List.mem_flatMap.mpr ⟨' ', hmem, by decide⟩
  exact absurd (hs 32 hbyte) (by decide)

/-- **The two copy sources.** For every key, and every bucket of unreserved
characters, the fast path's is the default path's after a `/` and with `%20` for `+`.
They are the same just when there is a key and no space in it. -/
theorem copy_sources_agree (u : Url) (hremote : u.isRemote = true) (hscheme : u.scheme = "s3".toList)
    (hbucket : ∀ b ∈ Utf8.encode u.bucket, isUnreserved b = true) :
    (u.path ≠ [] → FastClient.copySource u.bucket u.path = '/' :: percentForPlus u.escapedPath) ∧
    (FastClient.copySource u.bucket u.path = '/' :: u.escapedPath ↔ u.path ≠ [] ∧ ' ' ∉ u.path) := by
  have hself : urlEncode u.bucket = u.bucket := by
    rw [urlEncode_eq_encodeKeyPath (space_not_mem_of_unreserved hbucket),
      encodeKeyPath_eq_self hbucket]
  have hplus : percentForPlus u.bucket = u.bucket := by
    have hdecoded := percentForPlus_urlEncode u.bucket
    rwa [hself, encodeKeyPath_eq_self hbucket] at hdecoded
  have hdefault := Url.escapedPath_eq hremote hscheme
  rw [urlEncode_append, hself] at hdefault
  by_cases hpath : u.path = []
  · refine ⟨fun hne => absurd hpath hne, ?_⟩
    rw [hdefault, hpath, if_pos rfl, FastClient.copySource]
    constructor
    · intro heq
      have hlen := congrArg List.length heq
      simp [urlEncode, encodeKeyPath, Percent.encode] at hlen
    · rintro ⟨hne, -⟩
      exact absurd rfl hne
  · rw [if_neg hpath, urlEncode_cons_slash] at hdefault
    rw [hdefault]
    constructor
    · intro _
      have hslash : percentForPlus ('/' :: urlEncode u.path) = '/' :: percentForPlus (urlEncode u.path) :=
        percentForPlus_append ['/'] _
      rw [percentForPlus_append, hplus, hslash, percentForPlus_urlEncode]
      rfl
    · rw [FastClient.copySource, List.cons.injEq, List.append_right_inj, List.cons.injEq, eq_comm,
        ← urlEncode_eq_encodeKeyPath_iff]
      simp [hpath, eq_comm]

namespace CopySourceSample

/-- A key with a space. -/
def spaced : Url := Url.parsed .remote "s3".toList "b".toList "a b".toList {}

theorem copy_sources_differ :
    spaced.escapedPath = "b/a+b".toList ∧
      FastClient.copySource spaced.bucket spaced.path = "/b/a%20b".toList ∧
      FastClient.copySource spaced.bucket spaced.path ≠ '/' :: spaced.escapedPath := by
  decide +kernel

/-- A key of two elements. -/
def plain : Url := Url.parsed .remote "s3".toList "my-bucket".toList "dir/a+b.txt".toList {}

theorem copy_sources_agree_plain :
    FastClient.copySource plain.bucket plain.path = '/' :: plain.escapedPath :=
  (copy_sources_agree plain rfl rfl (by decide +kernel)).2.mpr ⟨by decide, by decide⟩

end CopySourceSample

/-! ## Reading an encoded key -/

/-- The unreserved characters and `/`. -/
def isKeyChar (c : Char) : Bool := c.isAlphanum || "-_.~/".toList.contains c

def isUpperHex (c : Char) : Bool := c.isDigit || ('A' ≤ c && c ≤ 'F')

/-- A text of characters that are sent as they are and of `%XX` triples. -/
inductive KeyText : Str → Prop where
  | nil : KeyText []
  | char {c : Char} {s : Str} (hc : isKeyChar c = true) (h : KeyText s) : KeyText (c :: s)
  | triple {hi lo : Char} {s : Str} (hhi : isUpperHex hi = true) (hlo : isUpperHex lo = true)
      (h : KeyText s) : KeyText ('%' :: hi :: lo :: s)

theorem KeyText.encodeByte (b : UInt8) {s : Str} (h : KeyText s) :
    KeyText ((Percent.encodeByte isKeySafe b).map Percent.ascii ++ s) := by
  have hall : ∀ n : Fin 256,
      (isKeySafe (UInt8.ofNat n) = true → isKeyChar (Percent.ascii (UInt8.ofNat n)) = true) ∧
      isUpperHex (Percent.ascii (Percent.hexDigit (UInt8.ofNat n >>> 4))) = true ∧
      isUpperHex (Percent.ascii (Percent.hexDigit (UInt8.ofNat n &&& 15))) = true := by
    decide +kernel
  have hb := hall ⟨b.toNat, b.toNat_lt⟩
  simp only [UInt8.ofNat_toNat] at hb
  unfold Percent.encodeByte
  split
  · rename_i hkeep
    exact .char (hb.1 hkeep) h
  · exact .triple hb.2.1 hb.2.2 h

theorem keyText_encodeKeyPath (k : Str) : KeyText (encodeKeyPath k) := by
  rw [encodeKeyPath, Percent.encode]
  induction Utf8.encode k with
  | nil => exact .nil
  | cons b bs ih =>
    rw [List.flatMap_cons, List.map_append]
    exact ih.encodeByte b

theorem percentDecode_encodeKeyPath (k : Str) : percentDecode (encodeKeyPath k) = k :=
  percentDecode_encode isKeySafe_lt rfl k

/-- **Percent coding.** Every key is read back from what the fast path writes, two
keys are never written alike, and what is written is made of unreserved characters,
`/` and triples. -/
theorem key_percent_round_trip :
    (∀ k, percentDecode (encodeKeyPath k) = k) ∧ Function.Injective encodeKeyPath ∧
      ∀ k, KeyText (encodeKeyPath k) := by
  refine ⟨percentDecode_encodeKeyPath, ?_, keyText_encodeKeyPath⟩
  intro k l hkl
  rw [← percentDecode_encodeKeyPath k, hkl, percentDecode_encodeKeyPath]

end Rs5cmd
