import Rs5cmd.Command.Routing

/-!
# Each side's requests go to that side

`cp` and `mv` list their sources with the options that both sides share, and the fast
path and a run with one client send all their requests with these. So a run keeps to
the settings of each side just when these are the shared ones wherever the shared
options are used.
-/

namespace Rs5cmd

open Asks

/-- The request goes through the client of its side. -/
def Effect.Right (cfg : Side → ClientConfig) : Effect → Prop
  | .remote call => call.client = cfg call.side
  | .loc => True

section Methods

variable {cfg : Side → ClientConfig} {s3 dstS3 : ClientConfig} {opts : RouteOpts}

@[simp] theorem only_send {op : S3Op} {side : Side} :
    (send s3 op side).Only (Effect.Right cfg) ↔ s3 = cfg side :=
  only_question _

@[simp] theorem only_sendOk {op : S3Op} {side : Side} :
    (sendOk s3 op side).Only (Effect.Right cfg) ↔ s3 = cfg side := by
  unfold sendOk
  rw [only_bind]
  exact ⟨fun h => only_send.mp h.1, fun h => ⟨only_send.mpr h, fun _ _ => trivial⟩⟩

@[simp] theorem only_onDisk : onDisk.Only (Effect.Right cfg) := (only_question _).mpr trivial

@[simp] theorem only_onDiskOk : onDiskOk.Only (Effect.Right cfg) :=
  Only.bind only_onDisk fun _ => trivial

theorem returns_onDiskOk : onDiskOk.Returns true :=
  (returns_bind _ _ _).mpr ⟨{}, returns_question _ _, rfl⟩

theorem returns_sendOk {op : S3Op} {side : Side} : (sendOk s3 op side).Returns true :=
  (returns_bind _ _ _).mpr ⟨{}, returns_question _ _, rfl⟩

theorem unlessDry_only {p : Routed Bool} (h : p.Only (Effect.Right cfg)) :
    (opts.unlessDry p).Only (Effect.Right cfg) := by
  unfold RouteOpts.unlessDry
  split
  · trivial
  · exact h

theorem download_only (h : s3 = cfg .source) : (opts.download s3).Only (Effect.Right cfg) := by
  refine unlessDry_only (Only.also only_onDiskOk (Only.bind (only_send.mpr h) fun resp => ?_))
  split
  · refine Only.also only_onDiskOk ?_
    split
    · exact (only_all _ _).mpr fun _ _ => Only.also (only_sendOk.mpr h) only_onDiskOk
    · trivial
  · split
    · exact Only.also (only_sendOk.mpr h) only_onDiskOk
    · trivial

theorem multipart_only (h : s3 = cfg .destination) {part : Routed Bool}
    (hpart : part.Only (Effect.Right cfg)) (parts : Nat) :
    (RouteOpts.multipart s3 part parts).Only (Effect.Right cfg) := by
  refine Only.bind (only_send.mpr h) fun created => ?_
  split
  · refine Only.bind ((only_all _ _).mpr fun _ _ => hpart) fun sent => ?_
    split
    · exact only_sendOk.mpr h
    · exact Only.bind (only_send.mpr h) fun _ => trivial
  · trivial

theorem upload_only (h : s3 = cfg .destination) : (opts.upload s3).Only (Effect.Right cfg) := by
  refine unlessDry_only (Only.bind only_onDisk fun file => ?_)
  split
  · trivial
  · split
    · exact Only.also only_onDiskOk (only_sendOk.mpr h)
    · exact multipart_only h (Only.also only_onDiskOk (only_sendOk.mpr h)) _

theorem headContentType_only (h : s3 = cfg .source) :
    (opts.headContentType s3).Only (Effect.Right cfg) := by
  unfold RouteOpts.headContentType
  split
  · trivial
  · exact Only.bind (only_send.mpr h) fun _ => trivial

theorem clientCopyTo_only (hs : s3 = cfg .source) (hd : dstS3 = cfg .destination) :
    (opts.clientCopyTo s3 dstS3).Only (Effect.Right cfg) :=
  unlessDry_only (Only.also (download_only hs) (Only.also (headContentType_only hs) (upload_only hd)))

theorem copyMultipart_only (hs : s3 = cfg .source) (hd : s3 = cfg .destination) (size : Nat) :
    (opts.copyMultipart s3 size).Only (Effect.Right cfg) :=
  Only.also (headContentType_only hs) (multipart_only hd (only_sendOk.mpr hd) _)

theorem copyObjectSingle_only (hd : s3 = cfg .destination) (dst : Url) :
    (opts.copyObjectSingle s3 dst).Only (Effect.Right cfg) := by
  refine Only.bind ?_ fun there => ?_
  · unfold RouteOpts.headDst
    split
    · exact only_sendOk.mpr hd
    · trivial
  · split
    · trivial
    · exact Only.bind (only_send.mpr hd) fun _ => trivial

theorem copyOrFallBack_only (hs : s3 = cfg .source) (hd : s3 = cfg .destination) (dst : Url) :
    (opts.copyOrFallBack s3 dst).Only (Effect.Right cfg) := by
  refine Only.bind (copyObjectSingle_only hd dst) fun (ok, tooLarge) => ?_
  dsimp only
  split
  · trivial
  · split
    · refine Only.bind (only_send.mpr hs) fun head => ?_
      split
      · exact copyMultipart_only hs hd _
      · trivial
    · trivial

theorem copy_only (hs : s3 = cfg .source) (hd : s3 = cfg .destination) (dst : Url) :
    (opts.copy s3 dst).Only (Effect.Right cfg) := by
  refine unlessDry_only ?_
  split
  · refine Only.bind (only_send.mpr hs) fun head => ?_
    split
    · trivial
    · split
      · exact copyMultipart_only hs hd _
      · exact copyOrFallBack_only hs hd dst
  · exact copyOrFallBack_only hs hd dst

/-- With a client for each side, or one that serves both, `copy_one` keeps to them. -/
theorem copyOne_only {s3Dst : Option ClientConfig} (hs : s3 = cfg .source)
    (hd : s3Dst.getD s3 = cfg .destination) (link : Bool) (pr : Url × Url) :
    (opts.copyOne s3 s3Dst link pr).Only (Effect.Right cfg) := by
  refine Only.also ?_ ?_
  · unfold RouteOpts.transfer
    split
    · split
      · exact clientCopyTo_only hs hd
      · split
        · exact clientCopyTo_only hs hd
        · exact copy_only hs hd pr.2
    · split
      · exact Only.also (only_sendOk.mpr hs) (unlessDry_only only_onDiskOk)
      · exact download_only hs
    · split
      · exact Only.also only_onDiskOk (unlessDry_only (only_sendOk.mpr hd))
      · exact upload_only hd
    · exact only_onDiskOk
  · unfold RouteOpts.removeSource
    split
    · trivial
    · split
      · exact unlessDry_only (only_sendOk.mpr hs)
      · exact unlessDry_only only_onDiskOk

/-! ## Where requests are made -/

/-- The pair makes a request: one side is remote, and it is not a dry run, which reads a
placeholder all the same. -/
def RouteOpts.Calls (opts : RouteOpts) (pr : Url × Url) : Prop :=
  (pr.1.isRemote = true ∨ pr.2.isRemote = true) ∧
    (opts.dryRun = false ∨ opts.links = true ∧ Str.endsWithStr linkSuffix pr.1.path = true ∧
      pr.1.isRemote = true ∧ pr.2.isRemote = false)

theorem Only.of_unlessDry {p : Routed Bool} (h : (opts.unlessDry p).Only (Effect.Right cfg))
    (hdry : opts.dryRun = false) : p.Only (Effect.Right cfg) := by
  simpa [RouteOpts.unlessDry, hdry] using h

theorem source_of_download (hdry : opts.dryRun = false)
    (h : (opts.download s3).Only (Effect.Right cfg)) : s3 = cfg .source := by
  have hrest := (Only.of_also (Only.of_unlessDry h hdry)).2 returns_onDiskOk
  exact only_send.mp ((only_bind _ _).mp hrest).1

theorem destination_of_upload (hdry : opts.dryRun = false)
    (h : (opts.upload s3).Only (Effect.Right cfg)) : s3 = cfg .destination := by
  have hrest := ((only_bind _ _).mp (Only.of_unlessDry h hdry)).2 {} (returns_question _ _)
  have hput : (onDiskOk.also (sendOk s3 .putObject .destination)).Only (Effect.Right cfg) := by
    simpa using hrest
  exact only_sendOk.mp ((Only.of_also hput).2 returns_onDiskOk)

theorem side_of_copy (hdry : opts.dryRun = false) {dst : Url}
    (h : (opts.copy s3 dst).Only (Effect.Right cfg)) : ∃ side, s3 = cfg side := by
  have hcopy := Only.of_unlessDry h hdry
  split at hcopy
  · exact ⟨.source, only_send.mp ((only_bind _ _).mp hcopy).1⟩
  · have hsingle := ((only_bind _ _).mp hcopy).1
    obtain ⟨hhead, hput⟩ := (only_bind _ _).mp hsingle
    unfold RouteOpts.headDst at hhead hput
    split at hhead
    · exact ⟨.destination, only_sendOk.mp hhead⟩
    · rename_i hno
      rw [if_neg hno] at hput
      have hcall := hput false rfl
      exact ⟨.destination, only_send.mp ((only_bind _ _).mp hcall).1⟩

/-- With one client, a pair that makes a request makes one through it. -/
theorem side_of_copyOne {link : Bool} {pr : Url × Url} (hcalls : opts.Calls pr)
    (h : (opts.copyOne s3 none link pr).Only (Effect.Right cfg)) : ∃ side, s3 = cfg side := by
  obtain ⟨hremote, hdry⟩ := hcalls
  have htransfer := (Only.of_also h).1
  unfold RouteOpts.transfer at htransfer
  split at htransfer
  · rename_i h1 h2
    have hdry : opts.dryRun = false := hdry.resolve_right fun hlink => by
      rw [h2] at hlink
      exact absurd hlink.2.2.2 (by simp)
    dsimp only at htransfer
    split at htransfer
    · exact ⟨.source, source_of_download hdry (Only.of_also (Only.of_unlessDry htransfer hdry)).1⟩
    · exact side_of_copy hdry htransfer
  · split at htransfer
    · exact ⟨.source, only_sendOk.mp (Only.of_also htransfer).1⟩
    · rename_i hplain
      have hdry : opts.dryRun = false := hdry.resolve_right fun hlink => by
        simp [hlink.1, hlink.2.1] at hplain
      exact ⟨.source, source_of_download hdry htransfer⟩
  · rename_i h1 h2
    have hdry : opts.dryRun = false := hdry.resolve_right fun hlink => by
      rw [h2] at hlink
      exact absurd hlink.2.2.2 (by simp)
    split at htransfer
    · have hput := (Only.of_also htransfer).2 returns_onDiskOk
      exact ⟨.destination, only_sendOk.mp (Only.of_unlessDry hput hdry)⟩
    · exact ⟨.destination, destination_of_upload hdry htransfer⟩
  · rename_i h1 h2
    rw [h1, h2] at hremote
    exact absurd hremote (by simp)

theorem unlessDry_only_of_dry {p : Routed Bool} (hdry : opts.dryRun = true) :
    (opts.unlessDry p).Only (Effect.Right cfg) := by
  simp [RouteOpts.unlessDry, hdry]

/-- A pair without requests asks nothing of a store. -/
theorem copyOne_only_of_not_calls {s3Dst : Option ClientConfig} {link : Bool} {pr : Url × Url}
    (hcalls : ¬ opts.Calls pr) : (opts.copyOne s3 s3Dst link pr).Only (Effect.Right cfg) := by
  refine Only.also ?_ ?_
  · unfold RouteOpts.transfer
    split
    · rename_i h1 h2
      have hdry : opts.dryRun = true := by
        by_contra hno
        exact hcalls ⟨Or.inl h1, Or.inl (Bool.eq_false_iff.mpr hno)⟩
      split
      · exact unlessDry_only_of_dry hdry
      · split
        · exact unlessDry_only_of_dry hdry
        · exact unlessDry_only_of_dry hdry
    · rename_i h1 h2
      split
      · rename_i hlink
        rw [Bool.and_eq_true] at hlink
        exact absurd ⟨Or.inl h1, Or.inr ⟨hlink.1, hlink.2, h1, h2⟩⟩ hcalls
      · refine unlessDry_only_of_dry ?_
        by_contra hno
        exact hcalls ⟨Or.inl h1, Or.inl (Bool.eq_false_iff.mpr hno)⟩
    · rename_i h1 h2
      have hdry : opts.dryRun = true := by
        by_contra hno
        exact hcalls ⟨Or.inr h2, Or.inl (Bool.eq_false_iff.mpr hno)⟩
      split
      · exact Only.also only_onDiskOk (unlessDry_only_of_dry hdry)
      · exact unlessDry_only_of_dry hdry
    · exact only_onDiskOk
  · unfold RouteOpts.removeSource
    split
    · trivial
    · split
      · rename_i h1
        refine unlessDry_only_of_dry ?_
        by_contra hno
        exact hcalls ⟨Or.inl h1, Or.inl (Bool.eq_false_iff.mpr hno)⟩
      · exact unlessDry_only only_onDiskOk

/-- With one client that serves both sides, a pair keeps to the sides just when it makes
no request or the client is the right one. -/
theorem copyOne_only_iff (hsides : cfg .destination = cfg .source) {link : Bool} {pr : Url × Url} :
    (opts.copyOne s3 none link pr).Only (Effect.Right cfg) ↔ (opts.Calls pr → s3 = cfg .source) := by
  constructor
  · intro h hcalls
    obtain ⟨side, hside⟩ := side_of_copyOne hcalls h
    cases side with
    | source => exact hside
    | destination => exact hside.trans hsides
  · intro h
    by_cases hcalls : opts.Calls pr
    · have hdst : (none : Option ClientConfig).getD s3 = cfg .destination :=
        (h hcalls).trans hsides.symm
      exact copyOne_only (h hcalls) hdst link pr
    · exact copyOne_only_of_not_calls hcalls

/-- The sides that the fast path sends requests to for a pair. -/
def RouteOpts.fastSides (opts : RouteOpts) (pr : Url × Url) : List Side :=
  match pr.1.isRemote, pr.2.isRemote with
  | true, true => if opts.isMove then [.destination, .source] else [.destination]
  | true, false => [.source]
  | false, true => [.destination]
  | false, false => []

theorem doOne_only_iff {pr : Url × Url} :
    (opts.doOne s3 pr).Only (Effect.Right cfg) ↔ ∀ side ∈ opts.fastSides pr, s3 = cfg side := by
  cases h1 : pr.1.isRemote with
  | true =>
    cases h2 : pr.2.isRemote with
    | true =>
      simp only [RouteOpts.doOne, RouteOpts.fastSides, h1, h2, if_true]
      cases hmove : opts.isMove with
      | false =>
        simp only [Bool.not_false, if_true, Bool.false_eq_true, if_false, List.mem_singleton, forall_eq]
        exact ⟨fun h => only_sendOk.mp (Only.of_also h).1,
          fun h => Only.also (only_sendOk.mpr h) trivial⟩
      | true =>
        simp only [Bool.not_true, if_true, Bool.false_eq_true, if_false, List.mem_cons,
          List.not_mem_nil, or_false, forall_eq_or_imp, forall_eq]
        constructor
        · intro h
          obtain ⟨hput, hdelete⟩ := Only.of_also h
          exact ⟨only_sendOk.mp hput, only_sendOk.mp (hdelete returns_sendOk)⟩
        · exact fun h => Only.also (only_sendOk.mpr h.1) (only_sendOk.mpr h.2)
    | false =>
      simp only [RouteOpts.doOne, RouteOpts.fastSides, h1, h2, if_true, List.mem_singleton, forall_eq]
      constructor
      · exact fun h => only_sendOk.mp (Only.of_also (Only.of_also h).1).1
      · intro h
        refine Only.also (Only.also (only_sendOk.mpr h) only_onDiskOk) ?_
        split
        · trivial
        · exact only_sendOk.mpr h
  | false =>
    cases h2 : pr.2.isRemote with
    | true =>
      simp only [RouteOpts.doOne, RouteOpts.fastSides, h1, h2, Bool.false_eq_true, if_false,
        List.mem_singleton, forall_eq]
      constructor
      · exact fun h => only_sendOk.mp ((Only.of_also (Only.of_also h).1).2 returns_onDiskOk)
      · intro h
        refine Only.also (Only.also only_onDiskOk (only_sendOk.mpr h)) ?_
        split
        · trivial
        · exact only_onDiskOk
    | false => simp [RouteOpts.doOne, RouteOpts.fastSides, h1, h2]

end Methods

/-! ## `cp` and `mv` -/

namespace CpCommand

variable {cmd : CpCommand}

/-- When the sides do not differ, they have the same settings. -/
theorem side_eq_of_not_differ {options : Options} (envEndpoint : Option Str)
    (h : options.sidesDiffer = false) :
    ClientConfig.new envEndpoint (options.forSide .destination) =
      .new envEndpoint (options.forSide .source) := by
  simp only [Options.sidesDiffer, Bool.or_eq_false_iff, bne_eq_false_iff_eq] at h
  simp only [ClientConfig.new, Options.forSide, h.1, h.2]

/-- The source is remote and is expanded by a listing. -/
def Lists (cmd : CpCommand) (src : Url) : Prop :=
  src.isRemote = true ∧ (expandsVersions src = true ∨ isMulti cmd.fs src = true)

theorem only_listWith {cfg : Side → ClientConfig} {fs : LocalFs} {s3 : ClientConfig} {side : Side}
    {u : Url} {follow : Bool} :
    (listWith fs s3 side u follow).Only (Effect.Right cfg) ↔ (u.isRemote = true → s3 = cfg side) := by
  unfold listWith
  split
  · rename_i hremote
    rw [only_bind, only_send]
    exact ⟨fun h _ => h.1, fun h => ⟨h hremote, fun _ _ => trivial⟩⟩
  · rename_i hlocal
    exact ⟨fun _ h => absurd h hlocal, fun _ => trivial⟩

theorem expandSources_only_iff (src : Url) :
    (cmd.expandSources src).Only (Effect.Right cmd.side) ↔ (cmd.Lists src → cmd.shared = cmd.side .source) := by
  have hlist : ∀ {f : List Object → List (Url × Url)}, (cmd.listSource src >>= fun objs =>
      (pure (f objs) : Routed (List (Url × Url)))).Only (Effect.Right cmd.side) ↔
        (src.isRemote = true → cmd.shared = cmd.side .source) := by
    intro f
    rw [only_bind]
    exact ⟨fun h => only_listWith.mp h.1, fun h => ⟨only_listWith.mpr h, fun _ _ => trivial⟩⟩
  unfold expandSources
  split
  · rename_i hversions
    exact hlist.trans ⟨fun h hl => h hl.1, fun h hr => h ⟨hr, Or.inl hversions⟩⟩
  · rename_i hversions
    split
    · rename_i hsingle
      refine ⟨fun _ hl => ?_, fun _ => trivial⟩
      simp only [Bool.not_eq_true'] at hsingle
      exact absurd hl.2 (by simp [hversions, hsingle])
    · rename_i hmulti
      simp only [Bool.not_eq_true', Bool.not_eq_false] at hmulti
      exact hlist.trans ⟨fun h hl => h hl.1, fun h hr => h ⟨hr, Or.inr hmulti⟩⟩

theorem expandAll_only_iff (srcs : List Url) :
    (cmd.expandAll srcs).Only (Effect.Right cmd.side) ↔
      ∀ src ∈ srcs, cmd.Lists src → cmd.shared = cmd.side .source := by
  induction srcs with
  | nil => simp [expandAll]
  | cons src srcs ih =>
    rw [List.forall_mem_cons, ← expandSources_only_iff, ← ih, expandAll, only_bind]
    refine and_congr_right fun _ => ?_
    constructor
    · intro h
      obtain ⟨pairs, hpairs⟩ := exists_returns (cmd.expandSources src)
      exact ((only_bind _ _).mp (h pairs hpairs)).1
    · exact fun h _ _ => Only.bind h fun _ => trivial

/-- Where the transfers use the shared options, these are the settings of the sides they
send requests to. -/
def TransfersRight (cmd : CpCommand) (pairs : List (Url × Url)) : Prop :=
  if cmd.fast && fastAccepts pairs then
    cmd.options.endpoint ≠ none → cmd.dryRun = false →
      ∀ pr ∈ pairs, ∀ side ∈ cmd.fastSides pr, cmd.shared = cmd.side side
  else
    cmd.options.sidesDiffer = false → ∀ pr ∈ pairs, cmd.Calls pr → cmd.shared = cmd.side .source

theorem transferAll_only_iff (pairs : List (Url × Url)) :
    (cmd.transferAll pairs).Only (Effect.Right cmd.side) ↔ cmd.TransfersRight pairs := by
  unfold transferAll TransfersRight
  split
  · unfold fastPath
    split
    · rename_i hnone
      exact ⟨fun _ h => absurd hnone h, fun _ => trivial⟩
    · rename_i ep hsome
      constructor
      · intro h _ hdry pr hpr
        exact doOne_only_iff.mp ((only_all _ _).mp (Only.of_unlessDry h hdry) pr hpr)
      · intro h
        cases hdry : cmd.dryRun with
        | true => exact unlessDry_only_of_dry hdry
        | false =>
          refine unlessDry_only ((only_all _ _).mpr fun pr hpr => doOne_only_iff.mpr ?_)
          exact h (by simp [hsome]) hdry pr hpr
  · unfold defaultPath
    rw [only_all]
    cases hsides : cmd.options.sidesDiffer with
    | true =>
      refine ⟨fun _ h => absurd h (by simp), fun _ pr _ => ?_⟩
      exact copyOne_only rfl rfl _ pr
    | false =>
      have hsame := side_eq_of_not_differ cmd.envEndpoint hsides
      simp only [forall_const, Bool.false_eq_true, if_false]
      exact forall₂_congr fun pr _ => copyOne_only_iff hsame

end CpCommand

/-! ## `sync` -/

namespace SyncCommand

variable {cmd : SyncCommand}

/-- What the listings may come to. -/
def Plans (cmd : SyncCommand) (plan : SyncPlan) : Prop :=
  ∃ source dest, cmd.collectSource.Returns (some source) ∧ cmd.collectDest.Returns (some dest) ∧
    cmd.plan source dest = some plan

/-- Executing the plan makes a request. -/
def Executes (cmd : SyncCommand) (plan : SyncPlan) : Prop :=
  (∃ pr ∈ plan.toCopy, cmd.copyOpts.Calls pr) ∨
    ∃ u ∈ plan.toDelete, u.isRemote = true ∧ cmd.dryRun = false

theorem collectSource_only : cmd.collectSource.Only (Effect.Right cmd.side) := by
  unfold collectSource
  split
  · exact Only.bind (CpCommand.only_listWith.mpr fun _ => rfl) fun _ => trivial
  · refine Only.bind ?_ fun _ => trivial
    unfold statWith
    split
    · exact Only.bind (only_send.mpr rfl) fun _ => trivial
    · trivial

theorem collectDest_only : cmd.collectDest.Only (Effect.Right cmd.side) := by
  unfold collectDest
  split
  · trivial
  · exact Only.bind (CpCommand.only_listWith.mpr fun _ => rfl) fun _ => trivial

theorem copyOne_only_iff (pr : Url × Url) : (cmd.copyOne pr).Only (Effect.Right cmd.side) ↔
    (cmd.options.sidesDiffer = false → cmd.copyOpts.Calls pr → cmd.shared = cmd.side .source) := by
  unfold copyOne
  cases hsides : cmd.options.sidesDiffer with
  | true => exact ⟨fun _ h => absurd h (by simp), fun _ => copyOne_only rfl rfl false pr⟩
  | false =>
    simp only [Bool.false_eq_true, if_false, forall_const]
    exact Rs5cmd.copyOne_only_iff (CpCommand.side_eq_of_not_differ cmd.envEndpoint hsides)

theorem deleteOne_only_iff (u : Url) : (cmd.deleteOne u).Only (Effect.Right cmd.side) ↔
    (cmd.options.sidesDiffer = false → u.isRemote = true → cmd.dryRun = false →
      cmd.shared = cmd.side .source) := by
  unfold deleteOne
  cases hremote : u.isRemote with
  | false => simp
  | true =>
    simp only [if_true, forall_const]
    cases hdry : cmd.dryRun with
    | true =>
      exact ⟨fun _ _ h => absurd h (by simp), fun _ => unlessDry_only_of_dry hdry⟩
    | false =>
      cases hsides : cmd.options.sidesDiffer with
      | true =>
        refine ⟨fun _ h => absurd h (by simp), fun _ => ?_⟩
        exact unlessDry_only (only_sendOk.mpr rfl)
      | false =>
        have hsame : cmd.side .destination = cmd.side .source :=
          CpCommand.side_eq_of_not_differ cmd.envEndpoint hsides
        simp only [Bool.false_eq_true, if_false, forall_const]
        constructor
        · exact fun h => (only_sendOk.mp (Only.of_unlessDry h hdry)).trans hsame
        · exact fun h => unlessDry_only (only_sendOk.mpr (h.trans hsame.symm))

theorem execute_only_iff (plan : SyncPlan) : (cmd.execute plan).Only (Effect.Right cmd.side) ↔
    (cmd.options.sidesDiffer = false → cmd.Executes plan → cmd.shared = cmd.side .source) := by
  have hboth : (cmd.execute plan).Only (Effect.Right cmd.side) ↔
      (∀ pr ∈ plan.toCopy, (cmd.copyOne pr).Only (Effect.Right cmd.side)) ∧
        ∀ u ∈ plan.toDelete, (cmd.deleteOne u).Only (Effect.Right cmd.side) := by
    rw [← only_all, ← only_all, execute, only_bind]
    refine and_congr_right fun _ => ?_
    constructor
    · intro h
      obtain ⟨copied, hcopied⟩ := exists_returns (Asks.all cmd.copyOne plan.toCopy)
      exact ((only_bind _ _).mp (h copied hcopied)).1
    · exact fun h _ _ => Only.bind h fun _ => trivial
  rw [hboth]
  simp only [copyOne_only_iff, deleteOne_only_iff]
  constructor
  · rintro ⟨hcopy, hdelete⟩ hsides (⟨pr, hpr, hcalls⟩ | ⟨u, hu, hremote, hdry⟩)
    · exact hcopy pr hpr hsides hcalls
    · exact hdelete u hu hsides hremote hdry
  · intro h
    refine ⟨fun pr hpr hsides hcalls => h hsides (Or.inl ⟨pr, hpr, hcalls⟩), ?_⟩
    exact fun u hu hsides hremote hdry => h hsides (Or.inr ⟨u, hu, hremote, hdry⟩)

theorem run_only_iff : cmd.run.Only (Effect.Right cmd.side) ↔
    ∀ plan, cmd.Plans plan → cmd.options.sidesDiffer = false → cmd.Executes plan →
      cmd.shared = cmd.side .source := by
  unfold run
  rw [only_bind]
  constructor
  · rintro ⟨-, h⟩ plan ⟨source, dest, hsource, hdest, hplan⟩
    have hdest' := ((only_bind _ _).mp (h (some source) hsource)).2 (some dest) hdest
    simp only [hplan] at hdest'
    exact (execute_only_iff plan).mp hdest'
  · intro h
    refine ⟨collectSource_only, fun source hsource => ?_⟩
    cases source with
    | none => trivial
    | some source =>
      refine (only_bind _ _).mpr ⟨collectDest_only, fun dest hdest => ?_⟩
      cases dest with
      | none => trivial
      | some dest =>
        dsimp only
        split
        · trivial
        · rename_i plan hplan
          exact (execute_only_iff plan).mpr (h plan ⟨source, dest, hsource, hdest, hplan⟩)

end SyncCommand

/-! ## All commands -/

/-- **Routing.** Whatever the requests are answered, a run of `cp`, `mv` or `sync` sends
each of them through the client of its side just when the settings that both sides
share are those of the side wherever the run uses them: for the listings of the
sources of `cp` and `mv`, on the fast path, and when the two sides do not differ. -/
theorem requests_routed_iff (cp : CpCommand) (sync : SyncCommand) :
    (cp.run.Only (Effect.Right cp.side) ↔
      (∀ src ∈ cp.srcs, cp.Lists src → cp.shared = cp.side .source) ∧
        ∀ pairs, (cp.expandAll cp.srcs).Returns pairs → cp.TransfersRight pairs) ∧
    (sync.run.Only (Effect.Right sync.side) ↔
      ∀ plan, sync.Plans plan → sync.options.sidesDiffer = false → sync.Executes plan →
        sync.shared = sync.side .source) := by
  refine ⟨?_, SyncCommand.run_only_iff⟩
  unfold CpCommand.run
  rw [only_bind, CpCommand.expandAll_only_iff]
  exact and_congr_right fun _ =>
    forall₂_congr fun pairs _ => CpCommand.transferAll_only_iff pairs

/-- The objects under a prefix are moved from a store that is named for the source. -/
def movedPrefix (limits : CopyOpts) : CpCommand where
  toCopyOpts := limits
  isMove := true
  options := { sourceEndpoint := some "http://other".toList }
  fs := .empty
  filters := ⟨[], []⟩
  srcs := [.ofString "s3://b/*"]
  dst := .ofString "dir/"

/-- They are listed at another store than they are read from and deleted at. -/
theorem moved_prefix_listed_elsewhere :
    ¬ (movedPrefix {}).run.Only (Effect.Right (movedPrefix {}).side) := by
  intro h
  have hlist := (CpCommand.expandAll_only_iff (movedPrefix {}).srcs).mp ((only_bind _ _).mp h).1
  have hsame := hlist _ List.mem_cons_self ⟨by decide +kernel, Or.inr (by decide +kernel)⟩
  exact absurd hsame (by decide +kernel)

end Rs5cmd
