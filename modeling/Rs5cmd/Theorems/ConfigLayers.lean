import Rs5cmd.Command.Config
import Rs5cmd.Lib.Layers
import Rs5cmd.Theorems.RunOptions

/-!
# Which configuration wins

The files are applied one after the other, each to what the ones before it left unset. So
a setting is the first one that is there among the command line, the file behind `--s3cfg`
and the dotfile. The number of retries has no way of being unset: its default counts
as unset, wherever it comes from.

The lines of a command file are run by the same process, and each of them applies the
dotfile again: it finds nothing left to fill in.
-/

namespace Rs5cmd

/-- The settings that are in force: a configuration file touches nothing but these. -/
def inForce (layers : List Translated) (s : Settings) : Settings where
  env :=
    { accessKeyId := Layers.first Translated.accessKey s.env.accessKeyId layers
      secretAccessKey := Layers.first Translated.secretKey s.env.secretAccessKey layers
      sessionToken := Layers.first Translated.sessionToken s.env.sessionToken layers }
  global :=
    { s.global with
      endpointUrl := Layers.first Translated.endpointUrl s.global.endpointUrl layers
      region := Layers.first Translated.region s.global.region layers
      addressingStyle := Layers.first Translated.addressingStyle s.global.addressingStyle layers
      noVerifySsl := s.global.noVerifySsl || layers.any Translated.noVerifySsl
      caCertsFile := Layers.first Translated.caCertsFile s.global.caCertsFile layers
      proxy := Layers.first Translated.proxy s.global.proxy layers
      requestPayer := Layers.first Translated.requestPayer s.global.requestPayer layers
      limitrate := Layers.first (fun t => t.limitrate.map fun rate => Str.decimal rate.toNat)
        s.global.limitrate layers
      retryCount := Layers.firstOther 10 Translated.retryCount s.global.retryCount layers }

/-- The files that apply to a command line, the one that wins first. -/
def configLayers (bytesize : Str → Except Str UInt64) (debug : Str → Str) (home : Option Str)
    (disk : Disk) (s3cfg : Option Str) : Except Str (List Translated) :=
  let dotfile := (loadRs5cmdDotfile bytesize home disk).toList
  match s3cfg with
  | none => .ok dotfile
  | some path =>
    match disk.read path with
    | .error e => .error ("reading --s3cfg ".toList ++ path ++ ": ".toList ++ e)
    | .ok text => .ok (translateS3cfg bytesize debug (parseIni text) :: dotfile)

/-! ## One layer after the other -/

variable {s s' : Settings} {layers later : List Translated}

theorem inForce_nil (s : Settings) : inForce [] s = s := by
  have hretry : Layers.firstOther 10 Translated.retryCount s.global.retryCount [] =
      s.global.retryCount :=
    (Layers.foldl_default 10 Translated.retryCount [] s.global.retryCount).symm
  have hfirst (f : Translated → Option Str) (v : Option Str) : Layers.first f v [] = v :=
    Option.or_none
  simp only [inForce, hfirst, hretry, List.any_nil, Bool.or_false]

theorem inForce_cons (t : Translated) (layers : List Translated) (s : Settings) :
    inForce (t :: layers) s = inForce layers (applyTranslated t s) := by
  have hfirst (f : Translated → Option Str) (v : Option Str) :
      Layers.first f v (t :: layers) = Layers.first f (v.or (f t)) layers := by
    rw [← Layers.foldl_or, List.foldl_cons, Layers.foldl_or]
  have hretry (v : UInt32) : Layers.firstOther 10 Translated.retryCount v (t :: layers) =
      Layers.firstOther 10 Translated.retryCount (if v = 10 then t.retryCount.getD v else v)
        layers := by
    rw [← Layers.foldl_default, List.foldl_cons, Layers.foldl_default]
  have hssl (b : Bool) : (b || (t :: layers).any Translated.noVerifySsl) =
      ((if t.noVerifySsl then true else b) || layers.any Translated.noVerifySsl) := by
    rw [List.any_cons]
    cases t.noVerifySsl <;> cases b <;> rfl
  simp only [inForce, hfirst, hretry, hssl, applyTranslated, setEnvIfUnset]

/-- Applying the files in turn gives what is in force. -/
theorem foldl_applyTranslated (layers : List Translated) (s : Settings) :
    layers.foldl (fun s t => applyTranslated t s) s = inForce layers s := by
  induction layers generalizing s with
  | nil => exact (inForce_nil s).symm
  | cons t layers ih => rw [List.foldl_cons, ih, inForce_cons]

/-- Files that were applied before find nothing left to fill in. -/
theorem inForce_inForce (hsub : later ⊆ layers) (s : Settings) :
    inForce later (inForce layers s) = inForce layers s := by
  have hssl (b : Bool) : (b || layers.any Translated.noVerifySsl ||
      later.any Translated.noVerifySsl) = (b || layers.any Translated.noVerifySsl) := by
    rw [Bool.or_assoc]
    congr 1
    refine Bool.or_eq_left_iff_imp.mpr fun h => ?_
    obtain ⟨t, ht, hoff⟩ := List.any_eq_true.mp h
    exact List.any_eq_true.mpr ⟨t, hsub ht, hoff⟩
  simp only [inForce, Layers.first_first hsub, Layers.firstOther_firstOther hsub, hssl]

/-- What a command has of its own besides its per-command options is not touched. -/
theorem inForce_perCommand {g : GlobalOpts} (h : g.perCommand = s.global.perCommand)
    (hfix : inForce layers s = s) : inForce layers { s with global := g } = { s with global := g } := by
  have hglobal := congrArg Settings.global hfix
  have henv := congrArg Settings.env hfix
  have hg : g = { s.global with
      credentialsFile := g.credentialsFile, s3cfg := g.s3cfg,
      installCompletion := g.installCompletion } := by
    simp only [GlobalOpts.perCommand, GlobalOpts.mk.injEq] at h
    cases g
    simp only [GlobalOpts.mk.injEq]
    tauto
  rw [hg]
  have hmore : (inForce layers { s with global := { s.global with
      credentialsFile := g.credentialsFile, s3cfg := g.s3cfg,
      installCompletion := g.installCompletion } }) =
      { inForce layers s with global := { (inForce layers s).global with
        credentialsFile := g.credentialsFile, s3cfg := g.s3cfg,
        installCompletion := g.installCompletion } } := rfl
  rw [hmore, hfix]

/-- The configuration of `run` is that of its files. -/
theorem applyConfig_eq (bytesize : Str → Except Str UInt64) (debug : Str → Str)
    (home : Option Str) (disk : Disk) (s : Settings) :
    applyConfig bytesize debug home disk s =
      (configLayers bytesize debug home disk s.global.s3cfg).map fun layers => inForce layers s := by
  unfold applyConfig configLayers
  cases loadRs5cmdDotfile bytesize home disk with
  | none =>
    cases s.global.s3cfg with
    | none => exact congrArg Except.ok (inForce_nil s).symm
    | some path =>
      simp only
      cases disk.read path with
      | error e => rfl
      | ok text => exact congrArg Except.ok (foldl_applyTranslated [_] s)
  | some dotfile =>
    cases s.global.s3cfg with
    | none => exact congrArg Except.ok (foldl_applyTranslated [dotfile] s)
    | some path =>
      simp only
      cases disk.read path with
      | error e => rfl
      | ok text => exact congrArg Except.ok (foldl_applyTranslated [_, dotfile] s)

theorem dotfile_subset {bytesize : Str → Except Str UInt64} {debug : Str → Str}
    {home : Option Str} {disk : Disk} {s3cfg : Option Str}
    (h : configLayers bytesize debug home disk s3cfg = .ok layers) :
    (loadRs5cmdDotfile bytesize home disk).toList ⊆ layers := by
  unfold configLayers at h
  cases s3cfg with
  | none =>
    rw [← Except.ok.inj h]
    exact List.Subset.refl _
  | some path =>
    simp only at h
    cases hread : disk.read path with
    | error e =>
      rw [hread] at h
      cases h
    | ok text =>
      rw [hread] at h
      rw [← Except.ok.inj h]
      exact List.subset_cons_self _ _

/-- **The first configuration that says something wins, once and for all.** Every command
line runs with the first value among its own options (or their environment variables), the
file behind `--s3cfg` and the dotfile, and its credentials are found in the same order; a
file that cannot be read stops it. Reading the files again, for the same command line or
for a line of a command file with its per-command options, changes nothing. -/
theorem config_layers (bytesize : Str → Except Str UInt64) (debug : Str → Str)
    (home : Option Str) (disk : Disk) (s : Settings) :
    applyConfig bytesize debug home disk s =
        (configLayers bytesize debug home disk s.global.s3cfg).map (fun layers => inForce layers s) ∧
      ∀ s', applyConfig bytesize debug home disk s = .ok s' →
        applyConfig bytesize debug home disk s' = .ok s' ∧
          ∀ g : GlobalOpts, g.s3cfg = none → g.perCommand = s'.global.perCommand →
            applyConfig bytesize debug home disk { s' with global := g } =
              .ok { s' with global := g } := by
  refine ⟨applyConfig_eq bytesize debug home disk s, fun s' h => ?_⟩
  rw [applyConfig_eq] at h
  cases hlayers : configLayers bytesize debug home disk s.global.s3cfg with
  | error e =>
    rw [hlayers] at h
    cases h
  | ok layers =>
    rw [hlayers] at h
    have hs' : inForce layers s = s' := Except.ok.inj h
    constructor
    · have hpath : s'.global.s3cfg = s.global.s3cfg := by
        rw [← hs']
        rfl
      rw [applyConfig_eq, hpath, hlayers, ← hs']
      exact congrArg Except.ok (inForce_inForce (List.Subset.refl layers) s)
    · intro g hnone hg
      have hfix : inForce (loadRs5cmdDotfile bytesize home disk).toList s' = s' := by
        rw [← hs']
        exact inForce_inForce (dotfile_subset hlayers) s
      have hdotfile : configLayers bytesize debug home disk g.s3cfg =
          .ok (loadRs5cmdDotfile bytesize home disk).toList := by
        rw [hnone]
        rfl
      rw [applyConfig_eq]
      show (configLayers bytesize debug home disk g.s3cfg).map _ = _
      rw [hdotfile]
      exact congrArg Except.ok (inForce_perCommand hg hfix)

/-- A dotfile with an endpoint, under a home directory. -/
def homeDisk : Disk where
  read path :=
    if path = "/h/.rs5cmd".toList then .ok "endpoint_url = http://h\nretry_count = 10\n".toList
    else .error "no such file".toList

/-- A command line with a region. -/
def inRegion : Settings where
  global := { region := some "eu".toList }

theorem config_layers_dotfile :
    applyConfig (fun s => .error s) id (some "/h".toList) homeDisk
        { global := { region := some "eu".toList, endpointUrl := some "http://h".toList } } =
      .ok { global := { region := some "eu".toList, endpointUrl := some "http://h".toList } } :=
  ((config_layers (fun s => .error s) id (some "/h".toList) homeDisk inRegion).2
    { global := { region := some "eu".toList, endpointUrl := some "http://h".toList } }
    (by decide +kernel)).2 _ rfl rfl

end Rs5cmd
