import Rs5cmd.S3cfg

/-!
# The dotfile is read back as it was written

`to_rs5cmd_ini` writes one line for each setting that is there, and `parse_ini` reads
each of these lines as the key and the value it was made of: the first `=` of the line is
the one behind the key, whatever the value holds.
-/

namespace Rs5cmd

/-! ## Trimmed texts -/

namespace Str

variable {s k v : Str}

/-- A text is trimmed if neither end is white space. -/
theorem trim_of_ends (hhead : ∀ c, s.head? = some c → isWhitespace c = false)
    (hlast : ∀ c, s.getLast? = some c → isWhitespace c = false) : trim s = s := by
  have hdrop : s.dropWhile isWhitespace = s := by
    cases s with
    | nil => rfl
    | cons c s => exact List.dropWhile_cons_of_neg (by simp [hhead c rfl])
  rw [trim, hdrop]
  refine List.rdropWhile_eq_self_iff.mpr fun hne => ?_
  rw [hlast _ (List.getLast?_eq_some_getLast hne)]
  exact Bool.false_ne_true

/-- The last character of a trimmed text is no white space. -/
theorem isWhitespace_getLast (h : trim s = s) {c : Char} (hc : s.getLast? = some c) :
    isWhitespace c = false := by
  have hlen := congrArg List.length h
  have hle₁ := (List.rdropWhile_prefix isWhitespace (s.dropWhile isWhitespace)).length_le
  have hsuffix := List.dropWhile_suffix (l := s) isWhitespace
  have hdrop : s.dropWhile isWhitespace = s :=
    hsuffix.eq_of_length_le (hlen.symm.le.trans hle₁)
  rw [trim, hdrop] at h
  have hne : s ≠ [] := by
    rintro rfl
    cases hc
  have hlast := List.rdropWhile_eq_self_iff.mp h hne
  rw [List.getLast?_eq_some_getLast hne] at hc
  rw [← Option.some.inj hc]
  simpa using hlast

/-- What a value must be to come back from a line: not empty, trimmed and on one line. -/
structure Tidy (v : Str) : Prop where
  ne_nil : v ≠ []
  trimmed : trim v = v
  oneLine : '\n' ∉ v

theorem tidy_decimal (n : Nat) : Tidy (decimal n) where
  ne_nil := Nat.toDigits_ne_nil
  trimmed := trim_decimal n
  oneLine h := absurd (isDigit_of_mem_decimal h) (by decide)

end Str

/-! ## One line -/

/-- The keys of the dotfile. -/
structure IsIniKey (k : Str) : Prop where
  ne_nil : k ≠ []
  chars : ∀ c ∈ k, Str.isWhitespace c = false ∧ c ≠ '='
  first : ∀ c ∈ k.head?, c ∉ ['#', ';', '[']
  lower : Str.toAsciiLowercase k = k

instance (k : Str) : Decidable (IsIniKey k) :=
  haveI : Decidable (∀ c ∈ k, Str.isWhitespace c = false ∧ c ≠ '=') := List.decidableBAll _ k
  haveI : Decidable (∀ c ∈ k.head?, c ∉ ['#', ';', '[']) := Option.decidableForallMem k.head?
  decidable_of_iff (k ≠ [] ∧ (∀ c ∈ k, Str.isWhitespace c = false ∧ c ≠ '=') ∧
      (∀ c ∈ k.head?, c ∉ ['#', ';', '[']) ∧ Str.toAsciiLowercase k = k)
    ⟨fun h => ⟨h.1, h.2.1, h.2.2.1, h.2.2.2⟩, fun h => ⟨h.ne_nil, h.chars, h.first, h.lower⟩⟩

variable {k v : Str}

theorem IsIniKey.head (h : IsIniKey k) (rest : Str) :
    ∃ c, (k ++ rest).head? = some c ∧ Str.isWhitespace c = false ∧ c ∉ ['#', ';', '['] := by
  obtain ⟨c, cs, rfl⟩ := List.exists_cons_of_ne_nil h.ne_nil
  exact ⟨c, rfl, (h.chars c List.mem_cons_self).1, h.first c rfl⟩

theorem getLast?_iniPair (k : Str) (hv : v ≠ []) : (iniPair k v).getLast? = v.getLast? := by
  obtain ⟨c, cs, rfl⟩ := List.exists_cons_of_ne_nil hv
  rw [iniPair, List.getLast?_append, List.getLast?_cons, Option.some_or]

theorem not_startsWith {c d : Char} {s : Str} (hs : s.head? = some c) (hne : c ≠ d) :
    Str.startsWith [d] s = false := by
  refine decide_eq_false fun h => ?_
  obtain ⟨t, rfl⟩ := h
  exact hne (Option.some.inj hs).symm

/-- **A line is read as the key and the value it was made of.** -/
theorem parseIniLine_iniPair (hk : IsIniKey k) (hv : v.Tidy) :
    parseIniLine (iniPair k v) = some (k, v) := by
  have hpair : iniPair k v = (k ++ [' ']) ++ '=' :: ' ' :: v := by simp [iniPair]
  obtain ⟨c, hc, hspace, hfirst⟩ := hk.head ([' '] ++ '=' :: ' ' :: v)
  rw [← List.append_assoc, ← hpair] at hc
  have htrim : Str.trim (iniPair k v) = iniPair k v := by
    refine Str.trim_of_ends (fun d hd => ?_) fun d hd => ?_
    · rw [← Option.some.inj (hc.symm.trans hd)]
      exact hspace
    · rw [getLast?_iniPair k hv.ne_nil] at hd
      exact Str.isWhitespace_getLast hv.trimmed hd
  have hsplit : Str.splitOnce ['='] (iniPair k v) = some (k ++ [' '], ' ' :: v) := by
    have hnot : '=' ∉ k ++ [' '] := by
      intro hmem
      rcases List.mem_append.mp hmem with hmem | hmem
      · exact (hk.chars '=' hmem).2 rfl
      · exact absurd (List.mem_singleton.mp hmem) (by decide)
    rw [hpair]
    exact Str.splitOnce_char_append hnot (' ' :: v)
  have hkey : Str.trim (k ++ [' ']) = k := by
    rw [Str.trim_concat_of_isWhitespace (by decide)]
    exact Str.trim_of_ends (fun d hd => (hk.chars d (List.mem_of_mem_head? hd)).1)
      fun d hd => (hk.chars d (List.mem_of_mem_getLast? hd)).1
  have hvalue : Str.trim (' ' :: v) = v := by
    rw [Str.trim, List.dropWhile_cons_of_pos (by decide)]
    exact hv.trimmed
  simp only [List.mem_cons, List.not_mem_nil, or_false, not_or] at hfirst
  have hne : iniPair k v ≠ [] := by
    intro hnil
    rw [hnil] at hc
    cases hc
  simp only [parseIniLine, htrim]
  rw [if_neg (by simp [hne, not_startsWith hc hfirst.1, not_startsWith hc hfirst.2.1]),
    if_neg (by simp [not_startsWith hc hfirst.2.2]), hsplit, Option.map_some, hkey, hvalue,
    hk.lower]

/-! ## The map -/

/-- The fields that are there. -/
def present (fields : List (Str × Option Str)) : List (Str × Str) :=
  fields.filterMap fun field => field.2.map (field.1, ·)

/-- A field is looked up in the map of the fields. -/
theorem getElem?_foldl_insert (fields : List (Str × Option Str)) (map : IniMap)
    (hkeys : (fields.map Prod.fst).Nodup) (k : Str) :
    ((present fields).foldl (fun map kv => map.insert kv.1 kv.2) map)[k]? =
      ((fields.lookup k).join).or map[k]? := by
  induction fields generalizing map with
  | nil => rfl
  | cons field fields ih =>
    obtain ⟨hnot, hrest⟩ := List.nodup_cons.mp hkeys
    obtain ⟨key, value⟩ := field
    by_cases hk : k = key
    · subst hk
      have hnone : fields.lookup k = none := by
        rw [List.lookup_eq_none_iff]
        intro field hfield
        rw [bne_iff_ne]
        exact fun heq => hnot (List.mem_map.mpr ⟨field, hfield, heq.symm⟩)
      rw [List.lookup_cons_self]
      cases value with
      | none =>
        refine (ih map hrest).trans ?_
        rw [hnone]
        rfl
      | some v =>
        refine (ih (map.insert k v) hrest).trans ?_
        rw [hnone]
        exact Std.ExtTreeMap.getElem?_insert_self
    · have hlookup : ((key, value) :: fields).lookup k = fields.lookup k := by
        rw [List.lookup_cons, beq_eq_false_iff_ne.mpr hk]
      rw [hlookup]
      cases value with
      | none => exact ih map hrest
      | some v =>
        refine (ih (map.insert key v) hrest).trans ?_
        rw [Maps.getElem?_insert_of_ne (Ne.symm hk)]

/-! ## The file -/

theorem lines_iniPairs {pairs : List (Str × Str)} (h : ∀ kv ∈ pairs, IsIniKey kv.1 ∧ kv.2.Tidy) :
    Str.lines (pairs.flatMap fun kv => iniPair kv.1 kv.2 ++ ['\n']) =
      pairs.map fun kv => iniPair kv.1 kv.2 := by
  induction pairs with
  | nil => rfl
  | cons kv pairs ih =>
    obtain ⟨hkey, hvalue⟩ := h kv List.mem_cons_self
    have hline : '\n' ∉ iniPair kv.1 kv.2 := by
      intro hmem
      rcases List.mem_append.mp hmem with hmem | hmem
      · rcases List.mem_append.mp hmem with hmem | hmem
        · exact absurd (hkey.chars '\n' hmem).1 (by decide)
        · exact absurd hmem (by decide)
      · exact hvalue.oneLine hmem
    have hcr : Str.endsWith '\r' (iniPair kv.1 kv.2) = false := by
      -- the last character is the value's
      rw [Str.endsWith, getLast?_iniPair kv.1 hvalue.ne_nil]
      refine beq_eq_false_iff_ne.mpr fun hlast => ?_
      exact absurd (Str.isWhitespace_getLast hvalue.trimmed hlast) (by decide)
    rw [List.flatMap_cons, List.append_assoc, List.singleton_append, Str.lines_line hline,
      ih fun a ha => h a (List.mem_cons_of_mem kv ha), Str.chompCr_of_not_endsWith hcr,
      List.map_cons]

theorem filterMap_parseIniLine {pairs : List (Str × Str)}
    (h : ∀ kv ∈ pairs, IsIniKey kv.1 ∧ kv.2.Tidy) :
    (pairs.map fun kv => iniPair kv.1 kv.2).filterMap parseIniLine = pairs := by
  induction pairs with
  | nil => rfl
  | cons kv pairs ih =>
    obtain ⟨hkey, hvalue⟩ := h kv List.mem_cons_self
    rw [List.map_cons, List.filterMap_cons_some (parseIniLine_iniPair hkey hvalue),
      ih fun a ha => h a (List.mem_cons_of_mem kv ha)]

namespace Translated

/-- The texts among the settings of the dotfile. -/
def texts (t : Translated) : List (Option Str) :=
  [t.endpointUrl, t.region, t.addressingStyle, t.caCertsFile, t.proxy, t.requestPayer]

/-- Without the credentials and the notes. -/
def withoutSecrets (t : Translated) : Translated :=
  { t with accessKey := none, secretKey := none, sessionToken := none, warnings := [] }

variable {t : Translated}

/-- The keys of the dotfile. -/
def keys : List Str :=
  ["endpoint_url".toList, "region".toList, "addressing_style".toList, "no_verify_ssl".toList,
    "ca_certs_file".toList, "proxy".toList, "retry_count".toList, "limitrate".toList,
    "request_payer".toList]

theorem map_fst_fields (t : Translated) : t.fields.map Prod.fst = keys := rfl

theorem isIniKey_of_mem_fields {field : Str × Option Str} (h : field ∈ t.fields) :
    IsIniKey field.1 := by
  have hkeys : ∀ k ∈ keys, IsIniKey k := by decide +kernel
  refine hkeys field.1 ?_
  rw [← map_fst_fields t]
  exact List.mem_map_of_mem h

/-- Every value that is written is tidy. -/
theorem tidy_of_mem_fields (ht : ∀ v, some v ∈ t.texts → v.Tidy) {k v : Str}
    (h : (k, some v) ∈ t.fields) : v.Tidy := by
  have htext : ∀ text ∈ t.texts, text = some v → v.Tidy := by
    rintro _ hmem rfl
    exact ht v hmem
  simp only [fields, List.mem_cons, Prod.mk.injEq, List.not_mem_nil, or_false] at h
  rcases h with ⟨-, h⟩ | ⟨-, h⟩ | ⟨-, h⟩ | ⟨-, h⟩ | ⟨-, h⟩ | ⟨-, h⟩ | ⟨-, h⟩ | ⟨-, h⟩ | ⟨-, h⟩
  · exact htext _ (by simp [texts]) h.symm
  · exact htext _ (by simp [texts]) h.symm
  · exact htext _ (by simp [texts]) h.symm
  · split at h
    · rw [Option.some.inj h]
      exact ⟨by decide, by decide, by decide⟩
    · cases h
  · exact htext _ (by simp [texts]) h.symm
  · exact htext _ (by simp [texts]) h.symm
  · obtain ⟨n, -, rfl⟩ := Option.map_eq_some_iff.mp h.symm
    exact Str.tidy_decimal _
  · obtain ⟨n, -, rfl⟩ := Option.map_eq_some_iff.mp h.symm
    exact Str.tidy_decimal _
  · exact htext _ (by simp [texts]) h.symm

theorem flatMap_fields (fields : List (Str × Option Str)) :
    (fields.flatMap fun field => (field.2.map fun v => iniPair field.1 v ++ ['\n']).getD []) =
      (present fields).flatMap fun kv => iniPair kv.1 kv.2 ++ ['\n'] := by
  induction fields with
  | nil => rfl
  | cons field fields ih =>
    obtain ⟨k, value⟩ := field
    rw [List.flatMap_cons, ih]
    cases value with
    | none => rfl
    | some v => rfl

/-- What the file says about a key. -/
theorem getElem?_parseIni (ht : ∀ v, some v ∈ t.texts → v.Tidy) (k : Str) :
    (parseIni t.toRs5cmdIni)[k]? = (t.fields.lookup k).join := by
  have hpresent : ∀ kv ∈ present t.fields, IsIniKey kv.1 ∧ kv.2.Tidy := by
    intro kv hkv
    obtain ⟨field, hfield, heq⟩ := List.mem_filterMap.mp hkv
    obtain ⟨v, hv, rfl⟩ := Option.map_eq_some_iff.mp heq
    have hwritten : (field.1, some v) ∈ t.fields := by
      rw [← hv]
      exact hfield
    exact ⟨isIniKey_of_mem_fields hfield, tidy_of_mem_fields ht hwritten⟩
  have hkeys : (t.fields.map Prod.fst).Nodup := by
    rw [map_fst_fields]
    decide +kernel
  have hended : Str.endsWith '\n' rs5cmdHead = true := by decide +kernel
  have hhead : (Str.lines rs5cmdHead).filterMap parseIniLine = [] := by decide +kernel
  have hlines : Str.lines t.toRs5cmdIni =
      Str.lines rs5cmdHead ++ (present t.fields).map fun kv => iniPair kv.1 kv.2 := by
    rw [toRs5cmdIni, Str.lines_append (Or.inr hended), flatMap_fields, lines_iniPairs hpresent]
  rw [parseIni, hlines, List.filterMap_append, hhead, List.nil_append,
    filterMap_parseIniLine hpresent, getElem?_foldl_insert _ _ hkeys, Std.ExtTreeMap.getElem?_empty,
    Option.or_none]

theorem lookup_of_mem {fields : List (Str × Option Str)} (hkeys : (fields.map Prod.fst).Nodup)
    {k : Str} {value : Option Str} (h : (k, value) ∈ fields) : fields.lookup k = some value := by
  induction fields with
  | nil => cases h
  | cons field fields ih =>
    obtain ⟨hnot, hrest⟩ := List.nodup_cons.mp hkeys
    rcases List.mem_cons.mp h with rfl | h
    · exact List.lookup_cons_self
    · have hne : k ≠ field.1 := fun heq => hnot (List.mem_map.mpr ⟨(k, value), h, heq⟩)
      rw [List.lookup_cons, beq_eq_false_iff_ne.mpr hne]
      exact ih hrest h

/-- A field of the settings, as the file has it. -/
theorem getElem?_of_mem_fields (ht : ∀ v, some v ∈ t.texts → v.Tidy) {k : Str}
    {value : Option Str} (h : (k, value) ∈ t.fields) : (parseIni t.toRs5cmdIni)[k]? = value := by
  have hkeys : (t.fields.map Prod.fst).Nodup := by
    rw [map_fst_fields]
    decide +kernel
  rw [getElem?_parseIni ht, lookup_of_mem hkeys h]
  rfl

/-- A key of another kind is not in the file. -/
theorem getElem?_of_not_mem_keys (ht : ∀ v, some v ∈ t.texts → v.Tidy) {k : Str} (h : k ∉ keys) :
    (parseIni t.toRs5cmdIni)[k]? = none := by
  have hnone : t.fields.lookup k = none := by
    rw [List.lookup_eq_none_iff]
    intro field hfield
    rw [bne_iff_ne]
    rintro rfl
    rw [← map_fst_fields t] at h
    exact h (List.mem_map_of_mem hfield)
  rw [getElem?_parseIni ht, hnone]
  rfl

/-- A text that was written is read. -/
theorem nonempty_of_mem_fields (ht : ∀ v, some v ∈ t.texts → v.Tidy) {k : Str}
    {value : Option Str} (h : (k, value) ∈ t.fields) :
    nonempty (parseIni t.toRs5cmdIni) k = value := by
  rw [nonempty, getElem?_of_mem_fields ht h]
  cases value with
  | none => rfl
  | some v =>
    have htidy := tidy_of_mem_fields ht h
    rw [Option.map_some, htidy.trimmed, Option.filter_some]
    exact if_pos (decide_eq_true htidy.ne_nil)

theorem nonempty_of_not_mem_keys (ht : ∀ v, some v ∈ t.texts → v.Tidy) {k : Str} (h : k ∉ keys) :
    nonempty (parseIni t.toRs5cmdIni) k = none := by
  rw [nonempty, getElem?_of_not_mem_keys ht h]
  rfl

/-- The numbers and the switch. -/
theorem retryCount_fromRs5cmd (ht : ∀ v, some v ∈ t.texts → v.Tidy)
    (bytesize : Str → Option UInt64) :
    (fromRs5cmd bytesize (parseIni t.toRs5cmdIni)).retryCount = t.retryCount := by
  have hget : (parseIni t.toRs5cmdIni)["retry_count".toList]? =
      t.retryCount.map fun n => Str.decimal n.toNat :=
    getElem?_of_mem_fields ht (by simp [fields])
  show ((parseIni t.toRs5cmdIni)["retry_count".toList]?.bind _) = _
  rw [hget]
  cases t.retryCount with
  | none => rfl
  | some n =>
    have hlt : n.toNat < 2 ^ 32 := n.toNat_lt
    rw [Option.map_some, Option.bind_some, Str.trim_decimal, Str.parseUnsigned_decimal hlt,
      Option.map_some, UInt32.ofNat_toNat]

theorem limitrate_fromRs5cmd (ht : ∀ v, some v ∈ t.texts → v.Tidy)
    (bytesize : Str → Option UInt64) :
    (fromRs5cmd bytesize (parseIni t.toRs5cmdIni)).limitrate = t.limitrate := by
  have hget : nonempty (parseIni t.toRs5cmdIni) "limitrate".toList =
      t.limitrate.map fun n => Str.decimal n.toNat :=
    nonempty_of_mem_fields ht (by simp [fields])
  show (nonempty (parseIni t.toRs5cmdIni) "limitrate".toList).bind _ = _
  rw [hget]
  cases t.limitrate with
  | none => rfl
  | some n =>
    have hlt : n.toNat < 2 ^ 64 := n.toNat_lt
    rw [Option.map_some, Option.bind_some, parseByteRate, Str.trim_decimal,
      Str.parseUnsigned_decimal hlt]
    exact congrArg some UInt64.ofNat_toNat

theorem noVerifySsl_fromRs5cmd (ht : ∀ v, some v ∈ t.texts → v.Tidy)
    (bytesize : Str → Option UInt64) :
    (fromRs5cmd bytesize (parseIni t.toRs5cmdIni)).noVerifySsl = t.noVerifySsl := by
  have hget : (parseIni t.toRs5cmdIni)["no_verify_ssl".toList]? =
      if t.noVerifySsl then some "true".toList else none :=
    getElem?_of_mem_fields ht (by simp [fields])
  show ((parseIni t.toRs5cmdIni)["no_verify_ssl".toList]?.bind parseBool).getD false = _
  rw [hget]
  cases t.noVerifySsl with
  | true => decide +kernel
  | false => rfl

/-- **The dotfile is read back as it was written**, for settings whose texts are trimmed,
not empty and on one line; and its text does not depend on the credentials. -/
theorem dotfile_round_trip (bytesize : Str → Option UInt64) (t : Translated) :
    ((∀ v, some v ∈ t.texts → v.Tidy) →
        fromRs5cmd bytesize (parseIni t.toRs5cmdIni) = t.withoutSecrets) ∧
      ∀ t' : Translated, t'.withoutSecrets = t.withoutSecrets → t'.toRs5cmdIni = t.toRs5cmdIni := by
  constructor
  · intro ht
    have haccess : nonempty (parseIni t.toRs5cmdIni) "access_key".toList = none :=
      nonempty_of_not_mem_keys ht (by decide +kernel)
    have hsecret : nonempty (parseIni t.toRs5cmdIni) "secret_key".toList = none :=
      nonempty_of_not_mem_keys ht (by decide +kernel)
    have htoken : nonempty (parseIni t.toRs5cmdIni) "session_token".toList = none :=
      nonempty_of_not_mem_keys ht (by decide +kernel)
    have hretry := retryCount_fromRs5cmd ht bytesize
    have hrate := limitrate_fromRs5cmd ht bytesize
    have hssl := noVerifySsl_fromRs5cmd ht bytesize
    have hendpoint : nonempty (parseIni t.toRs5cmdIni) "endpoint_url".toList = t.endpointUrl :=
      nonempty_of_mem_fields ht (by simp [fields])
    have hstyle : nonempty (parseIni t.toRs5cmdIni) "addressing_style".toList = t.addressingStyle :=
      nonempty_of_mem_fields ht (by simp [fields])
    have hregion : nonempty (parseIni t.toRs5cmdIni) "region".toList = t.region :=
      nonempty_of_mem_fields ht (by simp [fields])
    have hca : nonempty (parseIni t.toRs5cmdIni) "ca_certs_file".toList = t.caCertsFile :=
      nonempty_of_mem_fields ht (by simp [fields])
    have hproxy : nonempty (parseIni t.toRs5cmdIni) "proxy".toList = t.proxy :=
      nonempty_of_mem_fields ht (by simp [fields])
    have hpayer : nonempty (parseIni t.toRs5cmdIni) "request_payer".toList = t.requestPayer :=
      nonempty_of_mem_fields ht (by simp [fields])
    simp only [fromRs5cmd] at hretry hrate hssl
    rw [fromRs5cmd, haccess, hsecret, htoken, hendpoint, hstyle, hregion, hca, hproxy, hpayer, hretry,
      hrate, hssl]
    rfl
  · intro t' h
    have hfields : t'.fields = t.withoutSecrets.fields := by
      rw [← h]
      rfl
    rw [toRs5cmdIni, hfields]
    rfl

/-- Settings with characters in them that mean something to the reader. -/
def sample : Translated where
  accessKey := some "AK".toList
  endpointUrl := some "https://h/?a=b # c;".toList
  region := some "[eu]".toList
  noVerifySsl := true
  limitrate := some 2000000

theorem dotfile_round_trip_sample :
    fromRs5cmd (fun _ => none) (parseIni sample.toRs5cmdIni) = sample.withoutSecrets := by
  refine (dotfile_round_trip (fun _ => none) sample).1 ?_
  intro v hv
  simp only [texts, sample, List.mem_cons, Option.some.injEq, List.not_mem_nil, or_false,
    reduceCtorEq] at hv
  rcases hv with rfl | rfl
  · exact ⟨by decide, by decide +kernel, by decide +kernel⟩
  · exact ⟨by decide, by decide +kernel, by decide +kernel⟩

end Translated

end Rs5cmd
