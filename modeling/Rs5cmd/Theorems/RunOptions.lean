import Rs5cmd.Command.Run

/-!
# What a line of a command file inherits

`build_argv` spells out fifteen of the global options. A line of a command file runs
with the options of the `run` invocation just when the other ones were left at their
defaults and the values can be read back: a value that starts with `-` is taken for
an option, and an addressing style that came from a config file may be one that the
command line refuses.
-/

namespace Rs5cmd

/-- The options without what acts on the whole process. -/
def GlobalOpts.perCommand (g : GlobalOpts) : GlobalOpts :=
  { g with credentialsFile := none, s3cfg := none, installCompletion := false }

/-- A line runs with the given options, and is otherwise what it says. -/
def Inherits {κ : Type} (clap : Clap κ) (env : Env) (g : GlobalOpts) (tokens : List Str) : Prop :=
  ∃ cli alone, tryParseFrom clap env (buildArgv g tokens) = .ok cli ∧
    tryParseFrom clap env ("rs5cmd".toList :: tokens) = .ok alone ∧
      cli.global.perCommand = g.perCommand ∧ cli.command = alone.command

/-! ## The options that are spelled out -/

namespace GlobalOpts

/-- The arguments that `build_argv` knows, in its order. -/
def known : List GlobalArg :=
  [.endpointUrl, .region, .profile, .addressingStyle, .proxy, .noSignRequest, .noVerifySsl, .dryRun,
    .json, .useListObjectsV1, .numworkers, .retryCount, .caCertsFile, .requestPayer, .limitrate]

/-- The values it spells out for an argument. -/
def passed (g : GlobalOpts) : GlobalArg → Option (List Str)
  | .endpointUrl => g.endpointUrl.map fun v => [v]
  | .region => g.region.map fun v => [v]
  | .profile => g.profile.map fun v => [v]
  | .addressingStyle => g.addressingStyle.map fun v => [v]
  | .proxy => g.proxy.map fun v => [v]
  | .noSignRequest => if g.noSignRequest then some [] else none
  | .noVerifySsl => if g.noVerifySsl then some [] else none
  | .dryRun => if g.dryRun then some [] else none
  | .json => if g.json then some [] else none
  | .useListObjectsV1 => if g.useListObjectsV1 then some [] else none
  | .numworkers => some [Str.decimal g.numworkers.toNat]
  | .retryCount => some [Str.decimal g.retryCount.toNat]
  | .caCertsFile => g.caCertsFile.map fun v => [v]
  | .requestPayer => g.requestPayer.map fun v => [v]
  | .limitrate => g.limitrate.map fun v => [v]
  | _ => none

def spelled (g : GlobalOpts) : List (GlobalArg × List Str) :=
  known.filterMap fun o => (g.passed o).map fun vals => (o, vals)

theorem mem_known_of_passed {g : GlobalOpts} {o : GlobalArg} {vals : List Str}
    (h : g.passed o = some vals) : o ∈ known := by
  cases o <;> first | decide | cases h

theorem mem_spelled {g : GlobalOpts} {o : GlobalArg} {vals : List Str} :
    (o, vals) ∈ g.spelled ↔ g.passed o = some vals := by
  rw [spelled, List.mem_filterMap]
  constructor
  · rintro ⟨o', -, h⟩
    obtain ⟨vals', hvals, heq⟩ := Option.map_eq_some_iff.mp h
    cases heq
    exact hvals
  · intro h
    exact ⟨o, mem_known_of_passed h, by rw [h]; rfl⟩

theorem map_fst_spelled (g : GlobalOpts) (os : List GlobalArg) :
    (os.filterMap fun o => (g.passed o).map fun vals => (o, vals)).map Prod.fst =
      os.filter fun o => (g.passed o).isSome := by
  induction os with
  | nil => rfl
  | cons o os ih =>
    cases h : g.passed o with
    | none => simp [h, ih]
    | some vals => simp [h, ih]

/-- No option is spelled out twice. -/
theorem spelled_nodup (g : GlobalOpts) : (g.spelled.map Prod.fst).Nodup := by
  have hknown : known.Nodup := by decide
  rw [spelled, map_fst_spelled]
  exact hknown.filter _

theorem lookup_spelled (g : GlobalOpts) (o : GlobalArg) : g.spelled.lookup o = g.passed o := by
  cases h : g.passed o with
  | none =>
    rw [List.lookup_eq_none_iff]
    intro e he
    rw [bne_iff_ne]
    rintro rfl
    rw [mem_spelled.mp he] at h
    cases h
  | some vals =>
    cases hlookup : g.spelled.lookup o with
    | none =>
      have hne := List.lookup_eq_none_iff.mp hlookup (o, vals) (mem_spelled.mpr h)
      simp at hne
    | some vals' =>
      obtain ⟨l₁, l₂, hsplit, -⟩ := List.lookup_eq_some_iff.mp hlookup
      have hmem : (o, vals') ∈ g.spelled := by simp [hsplit]
      rw [← h, mem_spelled.mp hmem]

/-- How one argument is spelled out, if it is. -/
def spellOne (o : GlobalArg) : Option (List Str) → List Str
  | some vals => o.long :: vals
  | none => []

theorem spell_filterMap (g : GlobalOpts) (os : List GlobalArg) :
    globalArgs.spell (os.filterMap fun o => (g.passed o).map fun vals => (o, vals)) =
      os.flatMap fun o => spellOne o (g.passed o) := by
  induction os with
  | nil => rfl
  | cons o os ih =>
    rw [List.flatMap_cons, ← ih]
    cases h : g.passed o with
    | none =>
      rw [List.filterMap_cons_none (by rw [h]; rfl)]
      rfl
    | some vals =>
      rw [List.filterMap_cons_some (by rw [h]; rfl)]
      rfl

theorem spellOne_option (o : GlobalArg) (v : Option Str) (name : String) (h : o.long = name.toList) :
    spellOne o (v.map fun v => [v]) = pushOption name v := by
  cases v with
  | none => rfl
  | some v =>
    show [o.long, v] = [name.toList, v]
    rw [h]

theorem spellOne_switch (o : GlobalArg) (on : Bool) (name : String) (h : o.long = name.toList) :
    spellOne o (if on then some [] else none) = pushSwitch name on := by
  cases on with
  | false => rfl
  | true =>
    show [o.long] = [name.toList]
    rw [h]

/-- `build_argv` spells out what is passed. -/
theorem buildArgv_eq (g : GlobalOpts) (tokens : List Str) :
    buildArgv g tokens = "rs5cmd".toList :: (globalArgs.spell g.spelled ++ tokens) := by
  rw [spelled, spell_filterMap]
  simp only [known, List.flatMap_cons, List.flatMap_nil, passed, List.append_assoc, List.nil_append]
  rw [spellOne_option .endpointUrl _ "--endpoint-url" rfl,
    spellOne_option .region _ "--region" rfl, spellOne_option .profile _ "--profile" rfl,
    spellOne_option .addressingStyle _ "--addressing-style" rfl,
    spellOne_option .proxy _ "--proxy" rfl,
    spellOne_switch .noSignRequest _ "--no-sign-request" rfl,
    spellOne_switch .noVerifySsl _ "--no-verify-ssl" rfl,
    spellOne_switch .dryRun _ "--dry-run" rfl, spellOne_switch .json _ "--json" rfl,
    spellOne_switch .useListObjectsV1 _ "--use-list-objects-v1" rfl,
    spellOne_option .caCertsFile _ "--ca-certs-file" rfl,
    spellOne_option .requestPayer _ "--request-payer" rfl,
    spellOne_option .limitrate _ "--limitrate" rfl]
  rfl

theorem shaped_of_mem_spelled {g : GlobalOpts} {e : GlobalArg × List Str} (h : e ∈ g.spelled) :
    globalArgs.Shaped e := by
  obtain ⟨o, vals⟩ := e
  have hpassed := mem_spelled.mp h
  -- an option passes on its one value, a switch none
  have hoption : ∀ v : Option Str, v.map (fun v => [v]) = some vals → ∃ w, vals = [w] := by
    intro v hv
    obtain ⟨w, -, hw⟩ := Option.map_eq_some_iff.mp hv
    exact ⟨w, hw.symm⟩
  have hswitch : ∀ on : Bool, (if on then some [] else none) = some vals → vals = [] := by
    intro on hon
    cases on with
    | false => cases hon
    | true => exact (Option.some.inj hon).symm
  cases o with
  | noSignRequest => exact hswitch _ hpassed
  | useListObjectsV1 => exact hswitch _ hpassed
  | noVerifySsl => exact hswitch _ hpassed
  | dryRun => exact hswitch _ hpassed
  | json => exact hswitch _ hpassed
  | numworkers => exact ⟨_, (Option.some.inj hpassed).symm⟩
  | retryCount => exact ⟨_, (Option.some.inj hpassed).symm⟩
  | _ => first | exact hoption _ hpassed | cases hpassed

/-! ## What a line can inherit -/

/-- What a line has, where it can be read. -/
def inherited (g : GlobalOpts) (env : Env) : GlobalOpts where
  endpointUrl := g.endpointUrl.or env.awsEndpointUrl
  noSignRequest := g.noSignRequest
  useListObjectsV1 := g.useListObjectsV1
  noVerifySsl := g.noVerifySsl
  dryRun := g.dryRun
  json := g.json
  region := g.region.or env.awsRegion
  profile := g.profile
  addressingStyle := g.addressingStyle
  proxy := g.proxy
  numworkers := g.numworkers
  retryCount := g.retryCount
  limitrate := g.limitrate
  caCertsFile := g.caCertsFile
  requestPayer := g.requestPayer

theorem text_passed (v : Option Str) : (v.map fun v => [v]).bind List.head? = v := by
  cases v <;> rfl

theorem switch_passed (on : Bool) : (if on then some ([] : List Str) else none).isSome = on := by
  cases on <;> rfl

theorem ofMatches_passed (g : GlobalOpts) (env : Env) : ofMatches env g.passed = g.inherited env := by
  have hworkers : Str.parseUnsigned 64 (Str.decimal g.numworkers.toNat) = some g.numworkers.toNat :=
    Str.parseUnsigned_decimal g.numworkers.toNat_lt
  have hretries : Str.parseUnsigned 32 (Str.decimal g.retryCount.toNat) = some g.retryCount.toNat :=
    Str.parseUnsigned_decimal g.retryCount.toNat_lt
  simp only [ofMatches, passed, text_passed, switch_passed, Option.bind_some, List.head?_cons,
    hworkers, hretries, Option.getD_some, UInt64.ofNat_toNat, UInt32.ofNat_toNat]
  rfl

/-- The text can be the value of an option. -/
def ReadsBack (v : Option Str) : Prop := ∀ s, v = some s → optionLike s = false

/-- What a line inherits is what the `run` invocation was given. -/
structure Carried (g : GlobalOpts) (env : Env) : Prop where
  endpoints : g.sourceEndpointUrl = none ∧ g.destinationEndpointUrl = none
  regions : g.sourceRegion = none ∧ g.destinationRegion = none
  variants : g.useDualstackEndpoint = false ∧ g.useFipsEndpoint = false
  limits : g.limitUpload = none ∧ g.limitDownload = none
  color : g.color = .auto
  style : ∀ s, g.addressingStyle = some s → s = "path".toList ∨ s = "virtual".toList
  texts : ReadsBack g.endpointUrl ∧ ReadsBack g.region ∧ ReadsBack g.profile ∧ ReadsBack g.proxy ∧
    ReadsBack g.caCertsFile ∧ ReadsBack g.requestPayer ∧ ReadsBack g.limitrate
  endpointSet : g.endpointUrl = none → env.awsEndpointUrl = none
  regionSet : g.region = none → env.awsRegion = none

theorem or_eq_self_iff (v w : Option Str) : v.or w = v ↔ (v = none → w = none) := by
  cases v <;> simp

theorem optionLike_decimal (n : Nat) : optionLike (Str.decimal n) = false := by
  cases hs : Str.decimal n with
  | nil => rfl
  | cons c rest =>
    have hdigit : c.isDigit = true := Str.isDigit_of_mem_decimal (hs ▸ List.mem_cons_self)
    have hne : c ≠ '-' := by
      rintro rfl
      exact absurd hdigit (by decide)
    cases rest <;> simp [optionLike, hne]

/-- The values can be read back. -/
theorem fits_iff (g : GlobalOpts) :
    (∀ e ∈ g.spelled, globalArgs.Fits e) ↔
      (∀ s, g.addressingStyle = some s → s = "path".toList ∨ s = "virtual".toList) ∧
      ReadsBack g.endpointUrl ∧ ReadsBack g.region ∧ ReadsBack g.profile ∧ ReadsBack g.proxy ∧
        ReadsBack g.caCertsFile ∧ ReadsBack g.requestPayer ∧ ReadsBack g.limitrate := by
  have hfits : (∀ e ∈ g.spelled, globalArgs.Fits e) ↔
      ∀ o vals, g.passed o = some vals → ∀ v ∈ vals, optionLike v = false ∧ o.accepts v = true :=
    ⟨fun h o vals hp => h (o, vals) (mem_spelled.mpr hp),
      fun h e he => h e.1 e.2 (mem_spelled.mp he)⟩
  -- an option that takes any text
  have hback : ∀ (o : GlobalArg) (v : Option Str), (∀ s, o.accepts s = true) →
      ((∀ vals, v.map (fun v => [v]) = some vals →
        ∀ w ∈ vals, optionLike w = false ∧ o.accepts w = true) ↔ ReadsBack v) := by
    intro o v hany
    cases v with
    | none => simp [ReadsBack]
    | some s => simp [ReadsBack, hany]
  rw [hfits]
  constructor
  · intro h
    refine ⟨?_, (hback .endpointUrl _ fun _ => rfl).mp (h .endpointUrl),
      (hback .region _ fun _ => rfl).mp (h .region), (hback .profile _ fun _ => rfl).mp (h .profile),
      (hback .proxy _ fun _ => rfl).mp (h .proxy), (hback .caCertsFile _ fun _ => rfl).mp (h .caCertsFile),
      (hback .requestPayer _ fun _ => rfl).mp (h .requestPayer),
      (hback .limitrate _ fun _ => rfl).mp (h .limitrate)⟩
    intro s hs
    have hpassed : g.passed .addressingStyle = some [s] := by
      show g.addressingStyle.map _ = _
      rw [hs]
      rfl
    have haccepts := (h .addressingStyle [s] hpassed s List.mem_cons_self).2
    simpa [GlobalArg.accepts] using haccepts
  · rintro ⟨hstyle, hendpoint, hregion, hprofile, hproxy, hca, hpayer, hrate⟩ o
    have hnumber : ∀ (bits n : Nat) (vals : List Str), n < 2 ^ bits → some [Str.decimal n] = some vals →
        ∀ v ∈ vals, optionLike v = false ∧ (Str.parseUnsigned bits v).isSome = true := by
      intro bits n vals hn hvals v hv
      obtain rfl := Option.some.inj hvals
      obtain rfl := List.mem_singleton.mp hv
      exact ⟨optionLike_decimal n, by rw [Str.parseUnsigned_decimal hn]; rfl⟩
    have hswitch : ∀ (on : Bool) (vals : List Str), (if on then some [] else none) = some vals →
        ∀ v ∈ vals, optionLike v = false ∧ o.accepts v = true := by
      intro on vals hvals v hv
      cases on with
      | false => cases hvals
      | true =>
        obtain rfl := Option.some.inj hvals
        cases hv
    cases o with
    | endpointUrl => exact (hback .endpointUrl _ fun _ => rfl).mpr hendpoint
    | region => exact (hback .region _ fun _ => rfl).mpr hregion
    | profile => exact (hback .profile _ fun _ => rfl).mpr hprofile
    | proxy => exact (hback .proxy _ fun _ => rfl).mpr hproxy
    | caCertsFile => exact (hback .caCertsFile _ fun _ => rfl).mpr hca
    | requestPayer => exact (hback .requestPayer _ fun _ => rfl).mpr hpayer
    | limitrate => exact (hback .limitrate _ fun _ => rfl).mpr hrate
    | numworkers => exact fun vals => hnumber 64 _ vals g.numworkers.toNat_lt
    | retryCount => exact fun vals => hnumber 32 _ vals g.retryCount.toNat_lt
    | addressingStyle =>
      intro vals hvals v hv
      obtain ⟨s, hs, rfl⟩ := Option.map_eq_some_iff.mp hvals
      obtain rfl := List.mem_singleton.mp hv
      rcases hstyle v hs with rfl | rfl <;> exact ⟨rfl, rfl⟩
    | noSignRequest => exact hswitch _
    | useListObjectsV1 => exact hswitch _
    | noVerifySsl => exact hswitch _
    | dryRun => exact hswitch _
    | json => exact hswitch _
    | _ => exact fun vals hvals => by cases hvals

/-- The options that are not spelled out are at their defaults. -/
theorem inherited_perCommand_iff (g : GlobalOpts) (env : Env) :
    (g.inherited env).perCommand = g.perCommand ↔
      (g.sourceEndpointUrl = none ∧ g.destinationEndpointUrl = none) ∧
      (g.sourceRegion = none ∧ g.destinationRegion = none) ∧
      (g.useDualstackEndpoint = false ∧ g.useFipsEndpoint = false) ∧
      (g.limitUpload = none ∧ g.limitDownload = none) ∧ g.color = .auto ∧
      (g.endpointUrl = none → env.awsEndpointUrl = none) ∧
        (g.region = none → env.awsRegion = none) := by
  rw [← or_eq_self_iff, ← or_eq_self_iff]
  simp only [perCommand, inherited, GlobalOpts.mk.injEq, @eq_comm _ none, @eq_comm _ false,
    @eq_comm _ ColorMode.auto]
  tauto

theorem carried_iff (g : GlobalOpts) (env : Env) :
    g.Carried env ↔
      (∀ e ∈ g.spelled, globalArgs.Fits e) ∧ (g.inherited env).perCommand = g.perCommand := by
  rw [fits_iff, inherited_perCommand_iff]
  constructor
  · intro h
    exact ⟨⟨h.style, h.texts⟩, h.endpoints, h.regions, h.variants, h.limits, h.color, h.endpointSet,
      h.regionSet⟩
  · rintro ⟨⟨hstyle, htexts⟩, hendpoints, hregions, hvariants, hlimits, hcolor, hendpoint, hregion⟩
    exact ⟨hendpoints, hregions, hvariants, hlimits, hcolor, hstyle, htexts, hendpoint, hregion⟩

end GlobalOpts

/-- **A line of a command file runs with the global options of the `run` invocation
just when these can be carried over.** -/
theorem run_options_inherited_iff {κ : Type} (clap : Clap κ) (hclap : globalArgs.Reads clap)
    (env : Env) (g : GlobalOpts) (tokens : List Str)
    (m : Cmdline.Matches GlobalArg Str (Option κ)) (htokens : clap tokens = .ok m)
    (hplain : ∀ o, m.given o = none) : Inherits clap env g tokens ↔ g.Carried env := by
  have halone : tryParseFrom clap env ("rs5cmd".toList :: tokens) =
      .ok { global := GlobalOpts.ofMatches env m.given, command := m.command } := by
    show (clap tokens).map _ = _
    rw [htokens]
    rfl
  rw [GlobalOpts.carried_iff]
  by_cases hfits : ∀ e ∈ g.spelled, globalArgs.Fits e
  · have hread := hclap.read_spell htokens g.spelled_nodup (fun e _ => hplain e.1)
      (fun _ => GlobalOpts.shaped_of_mem_spelled) hfits
    have hgiven : (m.giveAll g.spelled).given = g.passed := by
      funext o
      rw [Cmdline.Matches.giveAll_given, hplain, Option.or_none, g.lookup_spelled]
    have hline : tryParseFrom clap env (buildArgv g tokens) =
        .ok { global := g.inherited env, command := m.command } := by
      rw [GlobalOpts.buildArgv_eq]
      show (clap (globalArgs.spell g.spelled ++ tokens)).map _ = _
      rw [hread]
      show Except.ok (⟨GlobalOpts.ofMatches env (m.giveAll g.spelled).given,
        (m.giveAll g.spelled).command⟩ : Cli κ) = _
      rw [hgiven, GlobalOpts.ofMatches_passed, Cmdline.Matches.giveAll_command]
    constructor
    · rintro ⟨cli, alone, hcli, -, hglobal, -⟩
      rw [hline] at hcli
      cases hcli
      exact ⟨hfits, hglobal⟩
    · rintro ⟨-, hglobal⟩
      exact ⟨_, _, hline, halone, hglobal, rfl⟩
  · -- a value that does not fit makes the whole line unreadable
    constructor
    · rintro ⟨cli, alone, hcli, -⟩
      obtain ⟨e, he⟩ := hclap.read_spell_error tokens
        (fun _ => GlobalOpts.shaped_of_mem_spelled) (by simpa using hfits)
      rw [GlobalOpts.buildArgv_eq] at hcli
      have hrefused : (clap (globalArgs.spell g.spelled ++ tokens)).map _ = .ok cli := hcli
      rw [he] at hrefused
      cases hrefused
    · intro h
      exact absurd h.1 hfits

/-! ## A reader -/

/-- The argument that a token introduces. -/
def GlobalArg.ofLong (s : Str) : Option GlobalArg :=
  [GlobalArg.endpointUrl, .noSignRequest, .useListObjectsV1, .noVerifySsl, .dryRun, .json, .region,
    .sourceRegion, .destinationRegion, .sourceEndpointUrl, .destinationEndpointUrl, .profile,
    .addressingStyle, .useDualstackEndpoint, .useFipsEndpoint, .proxy, .numworkers, .retryCount,
    .color, .limitUpload, .limitDownload, .limitrate, .caCertsFile, .requestPayer, .credentialsFile,
    .s3cfg, .installCompletion].find? fun o => o.long = s

theorem GlobalArg.ofLong_long (o : GlobalArg) : GlobalArg.ofLong o.long = some o := by
  cases o <;> decide

/-- An option is given once. -/
def giveOnce (o : GlobalArg) (vals : List Str) (m : Cmdline.Matches GlobalArg Str (Option (List Str))) :
    Except Str (Cmdline.Matches GlobalArg Str (Option (List Str))) :=
  match m.given o with
  | none => .ok (m.give o vals)
  | some _ => .error o.long

/-- A reader of the options before the subcommand, which is left as it is. -/
def plainClap : Clap (List Str)
  | [] => .ok ⟨fun _ => none, none⟩
  | a :: args =>
    match GlobalArg.ofLong a with
    | none => if optionLike a then .error a else .ok ⟨fun _ => none, some (a :: args)⟩
    | some o =>
      if o.isSwitch then (plainClap args).bind (giveOnce o [])
      else
        match args with
        | [] => .error a
        | v :: rest =>
          if optionLike v || !o.accepts v then .error v else (plainClap rest).bind (giveOnce o [v])

theorem plainClap_switch {o : GlobalArg} (h : globalArgs.takesValue o = false) (args : List Str) :
    plainClap (o.long :: args) = (plainClap args).bind (giveOnce o []) := by
  have hs : o.isSwitch = true := by simpa [globalArgs] using h
  simp [plainClap, GlobalArg.ofLong_long, hs]

theorem plainClap_value {o : GlobalArg} (h : globalArgs.takesValue o = true) (v : Str)
    (rest : List Str) : plainClap (o.long :: v :: rest) =
      if optionLike v || !o.accepts v then .error v
      else (plainClap rest).bind (giveOnce o [v]) := by
  have hs : o.isSwitch = false := by simpa [globalArgs] using h
  simp [plainClap, GlobalArg.ofLong_long, hs]

theorem plainClap_reads : globalArgs.Reads plainClap where
  switch := by
    intro o args m hswitch hargs hnone
    show plainClap (o.long :: args) = _
    rw [plainClap_switch hswitch, hargs]
    show giveOnce o [] m = _
    rw [giveOnce, hnone]
  value := by
    intro o v args m hvalue hlike haccepts hargs hnone
    show plainClap (o.long :: v :: args) = _
    rw [plainClap_value hvalue, show optionLike v = false from hlike, show o.accepts v = true from haccepts,
      hargs]
    show giveOnce o [v] m = _
    rw [giveOnce, hnone]
  noValue := by
    intro o v args hvalue hlike
    refine ⟨v, ?_⟩
    show plainClap (o.long :: v :: args) = _
    rw [plainClap_value hvalue, show optionLike v = true from hlike]
    rfl
  invalid := by
    intro o v args hvalue haccepts
    refine ⟨v, ?_⟩
    show plainClap (o.long :: v :: args) = _
    rw [plainClap_value hvalue, show o.accepts v = false from haccepts, if_pos]
    simp
  switch_rest := by
    intro o args e hswitch hargs
    refine ⟨e, ?_⟩
    show plainClap (o.long :: args) = _
    rw [plainClap_switch hswitch, hargs]
    rfl
  value_rest := by
    intro o v args e hvalue hargs
    show ∃ e', plainClap (o.long :: v :: args) = .error e'
    rw [plainClap_value hvalue, hargs]
    split
    · exact ⟨v, rfl⟩
    · exact ⟨e, rfl⟩

/-- `ls`, under an endpoint and `--dry-run`. -/
theorem run_options_inherited_endpoint :
    Inherits plainClap {} { endpointUrl := some "http://h:9000".toList, dryRun := true }
      ["ls".toList] := by
  refine (run_options_inherited_iff plainClap plainClap_reads {} _ ["ls".toList]
    ⟨fun _ => none, some ["ls".toList]⟩ rfl fun _ => rfl).mpr ?_
  have hunset : GlobalOpts.ReadsBack none := fun _ h => by cases h
  refine ⟨⟨rfl, rfl⟩, ⟨rfl, rfl⟩, ⟨rfl, rfl⟩, ⟨rfl, rfl⟩, rfl, (fun _ h => by cases h), ?_,
    (fun _ => rfl), fun _ => rfl⟩
  refine ⟨?_, hunset, hunset, hunset, hunset, hunset, hunset⟩
  intro s hs
  obtain rfl := Option.some.inj hs
  rfl

/-- The source's endpoint is not spelled out: the line runs against another one. -/
theorem run_forgets_source_endpoint :
    ¬ Inherits plainClap {} { sourceEndpointUrl := some "http://a:9000".toList } ["ls".toList] := by
  rintro ⟨cli, alone, hcli, -, hglobal, -⟩
  have hline : (tryParseFrom plainClap {}
      (buildArgv { sourceEndpointUrl := some "http://a:9000".toList } ["ls".toList])).map
        (fun c => c.global.sourceEndpointUrl) = .ok none := rfl
  rw [hcli] at hline
  have hforgot : cli.global.sourceEndpointUrl = none := Except.ok.inj hline
  have hkept := congrArg GlobalOpts.sourceEndpointUrl hglobal
  rw [show cli.global.perCommand.sourceEndpointUrl = none from hforgot] at hkept
  cases hkept

end Rs5cmd
