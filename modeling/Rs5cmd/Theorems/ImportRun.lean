import Rs5cmd.Theorems.ConfigLayers
import Rs5cmd.Theorems.Dotfile

/-!
# After an import, `--s3cfg` is not needed

`import-s3cfg` writes what it translated into the dotfile, and the next run reads it back:
the texts that `translate_s3cfg` makes are trimmed, not empty and on one line, as the
values of an INI file are, but for the endpoint. That one is cut at its slashes after it was
trimmed, so white space before them comes to its end, and is lost in the dotfile.
-/

namespace Rs5cmd

/-! ## Texts that are trimmed -/

namespace Str

variable {s t : Str}

theorem isWhitespace_head_of_trim (h : trim s = s) {c : Char} (hc : s.head? = some c) :
    isWhitespace c = false := by
  obtain ⟨rest, rfl⟩ := List.head?_eq_some_iff.mp hc
  cases hspace : isWhitespace c with
  | false => rfl
  | true =>
    -- a leading blank is dropped, so that the trimmed text is shorter
    have hlen := congrArg List.length h
    rw [trim, List.dropWhile_cons_of_pos hspace] at hlen
    have hle₁ := (List.rdropWhile_prefix isWhitespace (rest.dropWhile isWhitespace)).length_le
    have hle₂ := (List.dropWhile_suffix (l := rest) isWhitespace).length_le
    rw [List.length_cons] at hlen
    omega

theorem trim_trim (s : Str) : trim (trim s) = trim s := by
  refine trim_of_ends (fun c hc => ?_) fun c hc => ?_
  · have hpre := List.rdropWhile_prefix isWhitespace (s.dropWhile isWhitespace)
    have hhead : (s.dropWhile isWhitespace).head? = some c := by
      obtain ⟨rest, hrest⟩ := List.head?_eq_some_iff.mp hc
      obtain ⟨tail, htail⟩ := hpre
      rw [← htail]
      show (trim s ++ tail).head? = some c
      rw [hrest]
      rfl
    have hnot := List.head?_dropWhile_not isWhitespace s
    rw [hhead] at hnot
    simpa using hnot
  · have hne : (s.dropWhile isWhitespace).rdropWhile isWhitespace ≠ [] := by
      intro hnil
      rw [trim, hnil] at hc
      cases hc
    have hlast := List.rdropWhile_last_not isWhitespace (s.dropWhile isWhitespace) hne
    rw [trim, List.getLast?_eq_some_getLast hne] at hc
    rw [← Option.some.inj hc]
    simpa using hlast

theorem not_mem_trim {c : Char} (h : c ∉ s) : c ∉ trim s := fun hc =>
  h ((List.dropWhile_suffix isWhitespace).subset ((List.rdropWhile_prefix isWhitespace _).subset hc))

/-- A trimmed text behind one that starts with a letter. -/
theorem trim_append_iff {c : Char} (hs : s.head? = some c) (hc : isWhitespace c = false)
    (hlast : ∀ d, s.getLast? = some d → isWhitespace d = false)
    (hhead : ∀ d, t.head? = some d → isWhitespace d = false) :
    trim (s ++ t) = s ++ t ↔ trim t = t := by
  have hend : t ≠ [] → (s ++ t).getLast? = t.getLast? := by
    intro hne
    obtain ⟨d, ds, rfl⟩ := List.exists_cons_of_ne_nil hne
    rw [List.getLast?_append, List.getLast?_cons, Option.some_or]
  constructor
  · intro h
    refine trim_of_ends hhead fun d hd => ?_
    have hne : t ≠ [] := by
      rintro rfl
      cases hd
    exact isWhitespace_getLast h ((hend hne).trans hd)
  · intro h
    refine trim_of_ends (fun d hd => ?_) fun d hd => ?_
    · rw [List.head?_append, hs, Option.some_or] at hd
      rw [← Option.some.inj hd]
      exact hc
    · by_cases hne : t = []
      · rw [hne, List.append_nil] at hd
        exact hlast d hd
      · rw [hend hne] at hd
        exact isWhitespace_getLast h hd

end Str

/-! ## What a file says -/

variable {text : Str} {map : IniMap} {k v : Str}

theorem oneLine_of_parseIniLine {line : Str} {kv : Str × Str} (h : parseIniLine line = some kv)
    (hline : '\n' ∉ line) : '\n' ∉ kv.2 := by
  simp only [parseIniLine] at h
  split at h
  · cases h
  · split at h
    · cases h
    · obtain ⟨⟨a, b⟩, hsplit, rfl⟩ := Option.map_eq_some_iff.mp h
      have hwhole := Str.splitOnce_eq_some hsplit
      refine Str.not_mem_trim fun hmem => Str.not_mem_trim hline ?_
      rw [hwhole]
      exact List.mem_append_right _ hmem

/-- A value that was read stands on one line. -/
theorem oneLine_of_parseIni (h : (parseIni text)[k]? = some v) : '\n' ∉ v := by
  have hpairs : ∀ kv ∈ (Str.lines text).filterMap parseIniLine, '\n' ∉ kv.2 := by
    intro kv hkv
    obtain ⟨line, hline, hparse⟩ := List.mem_filterMap.mp hkv
    exact oneLine_of_parseIniLine hparse (Str.not_mem_of_mem_lines hline)
  have hfold : ∀ (pairs : List (Str × Str)) (map : IniMap), (∀ kv ∈ pairs, '\n' ∉ kv.2) →
      (∀ v, map[k]? = some v → '\n' ∉ v) →
      ∀ v, (pairs.foldl (fun map kv => map.insert kv.1 kv.2) map)[k]? = some v → '\n' ∉ v := by
    intro pairs
    induction pairs with
    | nil => exact fun map _ hmap => hmap
    | cons kv pairs ih =>
      intro map hpairs hmap
      refine ih (map.insert kv.1 kv.2) (fun a ha => hpairs a (List.mem_cons_of_mem kv ha)) ?_
      intro v hv
      by_cases hk : kv.1 = k
      · subst hk
        rw [Std.ExtTreeMap.getElem?_insert_self] at hv
        rw [← Option.some.inj hv]
        exact hpairs kv List.mem_cons_self
      · rw [Maps.getElem?_insert_of_ne hk] at hv
        exact hmap v hv
  refine hfold _ ∅ hpairs (fun v hv => ?_) v h
  rw [Std.ExtTreeMap.getElem?_empty] at hv
  cases hv

theorem trimmed_of_nonempty (h : nonempty map k = some v) : v ≠ [] ∧ Str.trim v = v := by
  obtain ⟨hmap, hne⟩ := Option.filter_eq_some_iff.mp h
  obtain ⟨w, -, rfl⟩ := Option.map_eq_some_iff.mp hmap
  exact ⟨of_decide_eq_true hne, Str.trim_trim w⟩

theorem tidy_of_nonempty (h : nonempty (parseIni text) k = some v) : v.Tidy := by
  obtain ⟨hne, htrim⟩ := trimmed_of_nonempty h
  obtain ⟨w, hw, rfl⟩ := Option.map_eq_some_iff.mp (Option.filter_eq_some_iff.mp h).1
  exact ⟨hne, htrim, Str.not_mem_trim (oneLine_of_parseIni hw)⟩

/-! ## What the translation makes of it -/

/-- The host's slashes do not stand behind white space. -/
def TidyHost (map : IniMap) : Prop :=
  ∀ host ∈ nonempty map "host_base".toList,
    Str.trim (Str.trimEndMatches '/' host) = Str.trimEndMatches '/' host

instance (map : IniMap) : Decidable (TidyHost map) :=
  inferInstanceAs (Decidable (∀ host ∈ nonempty map "host_base".toList,
    Str.trim (Str.trimEndMatches '/' host) = Str.trimEndMatches '/' host))

theorem trimEndMatches_prefix (c : Char) (s : Str) : Str.trimEndMatches c s <+: s :=
  List.rdropWhile_prefix _ s

theorem startsWith_ne_nil {p s : Str} (hp : p ≠ []) (h : Str.startsWith p (Str.toAsciiLowercase s) = true) :
    s ≠ [] := by
  rintro rfl
  exact hp (List.prefix_nil.mp (of_decide_eq_true h))

/-- The endpoint is trimmed just when the host is. -/
theorem trim_endpointOf_iff (https : Bool) {host : Str} (htrimmed : Str.trim host = host) :
    Str.trim (endpointOf https host) = endpointOf https host ↔
      Str.trim (Str.trimEndMatches '/' host) = Str.trimEndMatches '/' host := by
  have hhead : ∀ d, (Str.trimEndMatches '/' host).head? = some d → Str.isWhitespace d = false := by
    intro d hd
    obtain ⟨rest, hrest⟩ := trimEndMatches_prefix '/' host
    refine Str.isWhitespace_head_of_trim htrimmed ?_
    obtain ⟨tail, htail⟩ := List.head?_eq_some_iff.mp hd
    rw [← hrest, htail]
    rfl
  have hscheme : ∀ scheme : Str, scheme.head? = some 'h' →
      (Str.trim (scheme ++ "://".toList ++ Str.trimEndMatches '/' host) =
        scheme ++ "://".toList ++ Str.trimEndMatches '/' host ↔
      Str.trim (Str.trimEndMatches '/' host) = Str.trimEndMatches '/' host) := by
    intro scheme hh
    obtain ⟨rest, rfl⟩ := List.head?_eq_some_iff.mp hh
    refine @Str.trim_append_iff _ _ 'h' rfl (by decide) (fun d hd => ?_) hhead
    rw [List.getLast?_append] at hd
    rw [← Option.some.inj hd]
    decide
  rw [endpointOf]
  split
  · rfl
  · cases https with
    | true => exact hscheme "https".toList rfl
    | false => exact hscheme "http".toList rfl

theorem oneLine_append {s t : Str} (hs : '\n' ∉ s) (ht : '\n' ∉ t) : '\n' ∉ s ++ t := by
  intro h
  rcases List.mem_append.mp h with h | h
  · exact hs h
  · exact ht h

/-- The endpoint is otherwise as the file needs it. -/
theorem tidy_endpointOf_iff (https : Bool) {host : Str} (h : host.Tidy) :
    (endpointOf https host).Tidy ↔
      Str.trim (Str.trimEndMatches '/' host) = Str.trimEndMatches '/' host := by
  rw [← trim_endpointOf_iff https h.trimmed]
  refine ⟨Str.Tidy.trimmed, fun htrim => ⟨?_, htrim, ?_⟩⟩
  · rw [endpointOf]
    split
    · rename_i hscheme
      rcases Bool.or_eq_true_iff.mp hscheme with hscheme | hscheme
      · exact startsWith_ne_nil (by decide) hscheme
      · exact startsWith_ne_nil (by decide) hscheme
    · cases https with
      | true => exact List.cons_ne_nil _ _
      | false => exact List.cons_ne_nil _ _
  · have hhost : '\n' ∉ Str.trimEndMatches '/' host := fun hmem =>
      h.oneLine (List.IsPrefix.subset ( trimEndMatches_prefix '/' host) hmem)
    rw [endpointOf]
    split
    · exact hhost
    · refine oneLine_append (oneLine_append ?_ (by decide)) hhost
      cases https with
      | true => decide
      | false => decide

theorem tidy_proxyOf (port : Option Nat) {ph : Str} (h : ph.Tidy) : (proxyOf port ph).Tidy := by
  rw [proxyOf]
  split
  · exact h
  · have hport := Str.tidy_decimal (port.getD 3128)
    refine ⟨List.cons_ne_nil _ _, ?_, ?_⟩
    · refine (@Str.trim_append_iff _ _ 'h' rfl (by decide) (fun d hd => ?_) fun d hd => ?_).mpr
        hport.trimmed
      · rw [List.getLast?_append] at hd
        rw [← Option.some.inj hd]
        decide
      · exact Str.isWhitespace_head_of_trim hport.trimmed hd
    · exact oneLine_append (oneLine_append (oneLine_append (by decide) h.oneLine) (by decide))
        hport.oneLine

theorem tidy_normalizeRegion {loc : Str} (h : loc.Tidy) : (normalizeRegion loc).Tidy := by
  rw [normalizeRegion, h.trimmed]
  split
  · exact ⟨by decide, by decide +kernel, by decide⟩
  · split
    · exact ⟨by decide, by decide +kernel, by decide⟩
    · exact h

section Translation

variable (bytesize : Str → Except Str UInt64) (debug : Str → Str)

/-- **The texts of a translated file are fit for the dotfile just when its host is.** -/
theorem tidy_translateS3cfg_iff (text : Str) :
    (∀ v, some v ∈ (translateS3cfg bytesize debug (parseIni text)).texts → v.Tidy) ↔
      TidyHost (parseIni text) := by
  have hendpoint : (∀ v, s3cfgEndpoint (parseIni text) = some v → v.Tidy) ↔
      TidyHost (parseIni text) := by
    rw [s3cfgEndpoint, TidyHost]
    cases hhost : nonempty (parseIni text) "host_base".toList with
    | none =>
      constructor
      · intro _ host hnone
        cases hnone
      · intro _ v hnone
        cases hnone
    | some host =>
      have hiff := tidy_endpointOf_iff ((iniFlag (parseIni text) "use_https".toList).getD true)
        (tidy_of_nonempty hhost)
      constructor
      · intro h host' hhost'
        rw [← Option.some.inj hhost']
        exact hiff.mp (h _ rfl)
      · intro h v hv
        rw [← Option.some.inj hv]
        exact hiff.mpr (h host rfl)
  rw [← hendpoint]
  constructor
  · intro h v hv
    exact h v (List.mem_cons.mpr (Or.inl hv.symm))
  · intro h v hv
    simp only [Translated.texts, translateS3cfg, List.mem_cons, List.not_mem_nil, or_false] at hv
    rcases hv with hv | hv | hv | hv | hv | hv
    · exact h v hv.symm
    · obtain ⟨loc, hloc, rfl⟩ := Option.map_eq_some_iff.mp hv.symm
      refine tidy_normalizeRegion ?_
      rcases Option.or_eq_some_iff.mp hloc with hloc | ⟨-, hloc⟩
      · exact tidy_of_nonempty hloc
      · exact tidy_of_nonempty hloc
    · obtain ⟨hb, -, rfl⟩ := Option.map_eq_some_iff.mp hv.symm
      split
      · exact ⟨by decide, by decide +kernel, by decide⟩
      · exact ⟨by decide, by decide +kernel, by decide⟩
    · exact tidy_of_nonempty hv.symm
    · obtain ⟨ph, hph, rfl⟩ := Option.map_eq_some_iff.mp hv.symm
      exact tidy_proxyOf _ (tidy_of_nonempty hph)
    · split at hv
      · rw [Option.some.inj hv]
        exact ⟨by decide, by decide +kernel, by decide⟩
      · cases hv

/-- The dotfile that is read back. -/
theorem fromRs5cmd_toRs5cmdIni {t : Translated} (ht : ∀ v, some v ∈ t.texts → v.Tidy)
    (bytesize : Str → Option UInt64) :
    fromRs5cmd bytesize (parseIni t.toRs5cmdIni) = t.withoutSecrets := by
  have habsent : ∀ k ∈ ["access_key".toList, "secret_key".toList, "session_token".toList],
      nonempty (parseIni t.toRs5cmdIni) k = none := by
    intro k hk
    refine Translated.nonempty_of_not_mem_keys ht fun hmem => ?_
    have hdisjoint : ∀ k ∈ ["access_key".toList, "secret_key".toList, "session_token".toList],
        k ∉ Translated.keys := by decide +kernel
    exact hdisjoint k hk hmem
  have hfield {k : Str} {value : Option Str} (h : (k, value) ∈ t.fields) :
      nonempty (parseIni t.toRs5cmdIni) k = value := Translated.nonempty_of_mem_fields ht h
  have hretry := Translated.retryCount_fromRs5cmd ht bytesize
  have hrate := Translated.limitrate_fromRs5cmd ht bytesize
  have hssl := Translated.noVerifySsl_fromRs5cmd ht bytesize
  rw [Translated.withoutSecrets, ← hretry, ← hrate, ← hssl, fromRs5cmd, habsent _ (by simp),
    habsent _ (by simp), habsent _ (by simp),
    @hfield "endpoint_url".toList t.endpointUrl (by simp [Translated.fields]),
    @hfield "addressing_style".toList t.addressingStyle (by simp [Translated.fields]),
    @hfield "region".toList t.region (by simp [Translated.fields]),
    @hfield "ca_certs_file".toList t.caCertsFile (by simp [Translated.fields]),
    @hfield "proxy".toList t.proxy (by simp [Translated.fields]),
    @hfield "request_payer".toList t.requestPayer (by simp [Translated.fields])]

/-! ## The files after an import -/

theorem joinPath_getLast? (base : Str) {file : Str} (h : file ≠ []) :
    (joinPath base file).getLast? = file.getLast? := by
  obtain ⟨c, cs, rfl⟩ := List.exists_cons_of_ne_nil h
  rw [joinPath]
  split
  · rw [List.getLast?_append, List.getLast?_cons, Option.some_or]
  · rw [List.getLast?_append, List.getLast?_cons_cons, List.getLast?_cons, Option.some_or]

/-- The dotfile. -/
def rs5cmdDotfile (home : Str) : Str := joinPath home ".rs5cmd".toList

theorem awsCredentials_ne_dotfile (home : Str) : awsCredentials home ≠ rs5cmdDotfile home := by
  intro h
  have hlast := congrArg List.getLast? h
  rw [awsCredentials, rs5cmdDotfile, joinPath_getLast? _ (by decide), joinPath_getLast? _ (by decide)]
    at hlast
  exact absurd hlast (by decide)

/-- What an import leaves: the dotfile, the credentials if there are any, and all other
files as they were. -/
structure Imported (args : ImportS3cfgArgs) (home : Str) (t : Translated) (disk after : Disk) :
    Prop where
  dotfile : after.read (rs5cmdDotfile home) = .ok t.toRs5cmdIni
  credentials : args.noCredentials = false → ∀ ak sk, t.accessKey = some ak → t.secretKey = some sk →
    after.read (awsCredentials home) = .ok (writeAwsCredentials
      ((disk.read (awsCredentials home)).toOption.getD []) args.profile ak sk t.sessionToken)
  kept : args.noCredentials = true ∨ t.accessKey = none ∨ t.secretKey = none →
    after.read (awsCredentials home) = disk.read (awsCredentials home)
  others : ∀ path, path ≠ rs5cmdDotfile home → path ≠ awsCredentials home →
    after.read path = disk.read path

/-- An import of a file that can be read succeeds. -/
theorem importS3cfg_imported {home text : Str} {disk : Disk} {args : ImportS3cfgArgs}
    (hread : disk.read args.path = .ok text) (hout : args.out = none) :
    (importS3cfg bytesize debug (some home) disk args).2 = .ok () ∧
      Imported args home (translateS3cfg bytesize debug (parseIni text)) disk
        (importS3cfg bytesize debug (some home) disk args).1 := by
  have hne := awsCredentials_ne_dotfile home
  have hplain : ∀ t : Translated, (args.noCredentials = true ∨ t.accessKey = none ∨
      t.secretKey = none) → Imported args home t disk
        (disk.write (rs5cmdDotfile home) t.toRs5cmdIni) := by
    intro t ht
    refine ⟨disk.read_write _ _, ?_, fun _ => disk.read_write_of_ne hne _,
      fun path hpath _ => disk.read_write_of_ne hpath _⟩
    intro hno ak sk hak hsk
    rw [hno, hak, hsk] at ht
    simp at ht
  generalize ht : translateS3cfg bytesize debug (parseIni text) = t
  unfold importS3cfg
  simp only [hread, hout, ht, Option.none_or, Option.map_some]
  rw [show joinPath home ".rs5cmd".toList = rs5cmdDotfile home from rfl]
  cases hno : args.noCredentials with
  | true => exact ⟨rfl, hplain t (Or.inl hno)⟩
  | false =>
    cases hak : t.accessKey with
    | none => exact ⟨rfl, hplain t (Or.inr (Or.inl hak))⟩
    | some ak =>
      cases hsk : t.secretKey with
      | none => exact ⟨rfl, hplain t (Or.inr (Or.inr hsk))⟩
      | some sk =>
        refine ⟨rfl, ?_⟩
        show Imported args home t disk ((disk.write (rs5cmdDotfile home) t.toRs5cmdIni).write _ _)
        refine ⟨?_, fun _ ak' sk' hak' hsk' => ?_, ?_, fun path hdot hcred => ?_⟩
        · rw [Disk.read_write_of_ne _ hne.symm, Disk.read_write]
        · rw [Disk.read_write, Disk.read_write_of_ne _ hne, ← Option.some.inj (hak.symm.trans hak'),
            ← Option.some.inj (hsk.symm.trans hsk')]
        · rw [hno, hak, hsk]
          intro h
          simp at h
        · rw [Disk.read_write_of_ne _ hcred, Disk.read_write_of_ne _ hdot]

/-! ## The next run -/

/-- The options of a run with `--s3cfg`. -/
def Settings.withS3cfg (s : Settings) (path : Str) : Settings :=
  { s with global := { s.global with s3cfg := some path } }

/-- **After an import, `--s3cfg` is not needed.** Importing a file that can be read succeeds.
It writes the dotfile and, if the file has both keys and they are wanted, the section of the
profile in the credentials file, and nothing else. Every command line then runs with the
options that `--s3cfg` would have given it where there is no dotfile, and with the credentials
it had, just when no white space stands before slashes at the end of the host. -/
theorem import_then_run_iff (home : Str) (disk : Disk) (args : ImportS3cfgArgs) (text : Str)
    (hread : disk.read args.path = .ok text) (hout : args.out = none) :
    (importS3cfg bytesize debug (some home) disk args).2 = .ok () ∧
      Imported args home (translateS3cfg bytesize debug (parseIni text)) disk
        (importS3cfg bytesize debug (some home) disk args).1 ∧
      ((∀ s : Settings, s.global.s3cfg = none →
          applyConfig bytesize debug (some home)
              (importS3cfg bytesize debug (some home) disk args).1 s =
            (applyConfig bytesize debug none disk (s.withS3cfg args.path)).map fun s' =>
              { s' with global := { s'.global with s3cfg := none }, env := s.env }) ↔
        TidyHost (parseIni text)) := by
  obtain ⟨hok, himported⟩ := importS3cfg_imported bytesize debug hread hout
  refine ⟨hok, himported, ?_⟩
  generalize (importS3cfg bytesize debug (some home) disk args).1 = after at himported
  generalize ht : translateS3cfg bytesize debug (parseIni text) = t at himported
  let back := fromRs5cmd (fun s => (bytesize s).toOption) (parseIni t.toRs5cmdIni)
  have hafter (s : Settings) (hs : s.global.s3cfg = none) :
      applyConfig bytesize debug (some home) after s = .ok (applyTranslated back s) := by
    have hdotfile : loadRs5cmdDotfile bytesize (some home) after = some back := by
      unfold loadRs5cmdDotfile
      rw [Option.bind_some, show after.read (joinPath home ".rs5cmd".toList) = _ from
        himported.dotfile]
    rw [applyConfig, hs, hdotfile]
  have hwith (s : Settings) : applyConfig bytesize debug none disk (s.withS3cfg args.path) =
      .ok (applyTranslated t (s.withS3cfg args.path)) := by
    have hpath : (s.withS3cfg args.path).global.s3cfg = some args.path := rfl
    rw [applyConfig, hpath]
    simp only [hread, ht]
    rfl
  constructor
  · -- the endpoint of the dotfile is a trimmed one
    intro h host hhost
    have hempty := h {} rfl
    rw [hafter {} rfl, hwith] at hempty
    have hendpoint : back.endpointUrl = t.endpointUrl :=
      congrArg (fun s : Settings => s.global.endpointUrl) (Except.ok.inj hempty)
    have hmade : t.endpointUrl =
        some (endpointOf ((iniFlag (parseIni text) "use_https".toList).getD true) host) := by
      rw [← ht]
      show s3cfgEndpoint (parseIni text) = _
      rw [s3cfgEndpoint, Option.mem_def.mp hhost]
      rfl
    exact (trim_endpointOf_iff _ (trimmed_of_nonempty hhost).2).mp
      (trimmed_of_nonempty (hendpoint.trans hmade)).2
  · intro htidy s hs
    have htexts := (tidy_translateS3cfg_iff bytesize debug text).mpr htidy
    rw [ht] at htexts
    have hback : back = t.withoutSecrets := fromRs5cmd_toRs5cmdIni htexts _
    have henv : (applyTranslated t.withoutSecrets s).env = s.env := by
      show AwsEnv.mk (s.env.accessKeyId.or none) (s.env.secretAccessKey.or none)
        (s.env.sessionToken.or none) = s.env
      rw [Option.or_none, Option.or_none, Option.or_none]
    rw [hafter s hs, hwith, hback]
    refine congrArg Except.ok ?_
    show Settings.mk (applyTranslated t.withoutSecrets s).global
        (applyTranslated t.withoutSecrets s).env =
      Settings.mk { (applyTranslated t s).global with s3cfg := none } s.env
    rw [henv]
    congr 1
    show { (applyTranslated t s).global with s3cfg := s.global.s3cfg } = _
    rw [hs]

end Translation

/-- A file of s3cmd under a home directory. -/
def s3cfgDisk : Disk where
  read path :=
    if path = "/h/.s3cfg".toList then
      .ok "[default]\naccess_key = A\nsecret_key = B\nhost_base = h:1//\nuse_https = no\n".toList
    else .error "no such file".toList

theorem import_then_run_local :
    applyConfig (fun s => .error s) id (some "/h".toList)
        (importS3cfg (fun s => .error s) id (some "/h".toList) s3cfgDisk
          { path := "/h/.s3cfg".toList }).1 {} =
      .ok { global := { endpointUrl := some "http://h:1".toList } } :=
  ((import_then_run_iff (fun s => .error s) id "/h".toList s3cfgDisk { path := "/h/.s3cfg".toList }
    _ rfl rfl).2.2.mpr (by decide +kernel) {} rfl).trans (by decide +kernel)

end Rs5cmd
