import Rs5cmd.Storage.S3.Server
import Rs5cmd.Storage.Url

/-!
# The copy source of the default path (`storage/url.rs`)

The `x-amz-copy-source` header names the source as a bucket and a key, each element
of which is escaped as Go's `url.QueryEscape` does: a space is written `+`. That is
also how S3 sends keys, so the whole comes out as `urlEncode` spells it.
-/

namespace Rs5cmd

/-- The bytes that are never escaped. -/
def isUnreserved (b : UInt8) : Bool :=
  (65 ≤ b && b ≤ 90) || (97 ≤ b && b ≤ 122) || (48 ≤ b && b ≤ 57) ||
    b == 45 || b == 95 || b == 46 || b == 126

/-- What `query_escape` writes for a byte. -/
def queryEscapeByte (b : UInt8) : List UInt8 :=
  if b = 32 then [43] else Percent.encodeByte isUnreserved b

/-- `query_escape`. -/
def queryEscape (s : Str) : Str := ((Utf8.encode s).flatMap queryEscapeByte).map Percent.ascii

/-- `escaped_path`. -/
def Url.escapedPath (u : Url) : Str :=
  let sourceKey := (Str.stripPrefix "s3://".toList u.absolute).getD u.absolute
  Str.join '/' ((Str.split '/' sourceKey).map queryEscape)

/-! ## Escaping and listing -/

theorem urlEncode_append (s t : Str) : urlEncode (s ++ t) = urlEncode s ++ urlEncode t := by
  rw [urlEncode, Utf8.encode_append, List.flatMap_append, List.map_append]
  rfl

theorem urlEncode_cons_slash (s : Str) : urlEncode ('/' :: s) = '/' :: urlEncode s :=
  urlEncode_append ['/'] s

/-- A byte of a text without `/` is not that of `/`. -/
theorem ne_slash_of_mem_encode {s : Str} (hs : '/' ∉ s) {b : UInt8} (hb : b ∈ Utf8.encode s) : b ≠ 47 := by
  rintro rfl
  obtain ⟨c, hc, hmem⟩ := List.mem_flatMap.mp hb
  have hnat := (Utf8.eq_of_mem_utf8EncodeChar hmem (by decide)).2
  have hslash : c = '/' := by
    rw [← Char.ofNat_toNat c, hnat]
    rfl
  exact hs (hslash ▸ hc)

theorem queryEscape_eq_urlEncode {s : Str} (hs : '/' ∉ s) : queryEscape s = urlEncode s := by
  have hbyte : ∀ b ∈ Utf8.encode s, queryEscapeByte b = urlEncodeByte b := by
    intro b hb
    have hne := ne_slash_of_mem_encode hs hb
    have hkeep : isKeySafe b = isUnreserved b := by
      simp [isKeySafe, isUnreserved, hne]
    simp only [queryEscapeByte, urlEncodeByte, Percent.encodeByte, hkeep]
  rw [queryEscape, urlEncode, List.flatMap_congr hbyte]

theorem join_queryEscape {parts : List Str} (hparts : ∀ s ∈ parts, '/' ∉ s) :
    Str.join '/' (parts.map queryEscape) = urlEncode (Str.join '/' parts) := by
  induction parts with
  | nil => rfl
  | cons s parts ih =>
    have hs := queryEscape_eq_urlEncode (hparts s List.mem_cons_self)
    have hrest := ih fun t ht => hparts t (List.mem_cons_of_mem s ht)
    cases parts with
    | nil => simpa [Str.join] using hs
    | cons t parts =>
      simp only [Str.join, List.map_cons, List.intercalate_cons_cons, List.append_assoc,
        List.singleton_append] at hrest ⊢
      rw [hs, hrest, urlEncode_append, urlEncode_cons_slash]

/-- **The default path's copy source** spells bucket and key as a listing does. -/
theorem Url.escapedPath_eq {u : Url} (hremote : u.isRemote = true) (hscheme : u.scheme = "s3".toList) :
    u.escapedPath = urlEncode (u.bucket ++ if u.path = [] then [] else '/' :: u.path) := by
  have hkey : (Str.stripPrefix "s3://".toList u.absolute).getD u.absolute =
      u.bucket ++ if u.path = [] then [] else '/' :: u.path := by
    have habs : u.absolute = "s3://".toList ++ (u.bucket ++ if u.path = [] then [] else '/' :: u.path) := by
      rw [Url.absolute, hremote, if_pos rfl, Url.remoteUrl, hscheme]
      simp
    rw [habs, Str.stripPrefix_append, Option.getD_some]
  rw [Url.escapedPath]
  simp only [hkey]
  rw [join_queryEscape fun t ht => (of_mem_split ht).1]
  exact congrArg urlEncode (List.intercalate_splitOn '/')

end Rs5cmd
