import Rs5cmd.Command.Cp
import Rs5cmd.Fastpath.Runtime

/-!
# Running `cp` and `mv` to their exit status (`command/cp.rs`)

`run` plans the (source, destination) pairs, builds its clients, transfers every
pair in a bounded spawn and join loop (or on the fast path's threads) and fails if
some transfer failed. The results of the transfers are up to the schedule.
-/

namespace Rs5cmd

/-- What one transfer comes to. An existing destination under `--if-none-match`
is a skip and not a failure. -/
inductive TransferResult where
  | done
  | skipped
  | failed (e : StorageError)
  deriving DecidableEq, Repr

def TransferResult.isFailed : TransferResult → Bool
  | .failed _ => true
  | _ => false

/-- `report`: whether some transfer has failed. -/
def reportTransfer (hadError : Bool) (entry : (Url × Url) × TransferResult) : Bool :=
  match entry.2 with
  | .done => hadError
  | .skipped => hadError
  | .failed _ => true

/-- The spawn and join loop of `run`. -/
def transferParams (numworkers : Nat) : JoinLoop.Params (Url × Url) TransferResult Bool where
  workers := max numworkers 1
  report := reportTransfer
  stop := fun _ => false

/-- `try_fast_path` takes over: there is something to transfer, and every pair has
a remote side. -/
def fastAccepts (pairs : List (Url × Url)) : Bool :=
  !pairs.isEmpty && !pairs.any fun pr => !pr.1.isRemote && !pr.2.isRemote

/-- The settings of a run besides its arguments, and whether its clients (on the
fast path: the endpoint and the credentials) can be had. -/
structure CpSetup where
  fast : Bool := false
  numworkers : Nat := 1
  cores : Nat := 1
  client : Except StorageError Unit := .ok ()

def opName (isMove : Bool) : Str := if isMove then "mv".toList else "cp".toList

/-- The exit status, from whether some transfer failed. -/
def cpStatus (isMove hadError : Bool) : Except StorageError Unit :=
  if hadError then .error (.msg ("one or more ".toList ++ opName isMove ++ " operations failed".toList))
  else .ok ()

def fastStatus (hadError : Bool) : Except StorageError Unit :=
  if hadError then .error (.msg "one or more fast-path transfers failed".toList) else .ok ()

def hasError (outcomes : List ((Url × Url) × Except StorageError Unit)) : Bool :=
  outcomes.any fun o =>
    match o.2 with
    | .ok () => false
    | .error _ => true

/-- A transfer's outcome on the fast path, which knows no skips. -/
def TransferResult.ofOutcome : Except StorageError Unit → TransferResult
  | .ok () => .done
  | .error e => .failed e

/-- `run`: the results of the transfers and the exit status. -/
inductive CpRun (b : Backend) (args : CpArgs) (isMove : Bool) (paths : List Str) (filters : Filters)
    (setup : CpSetup) :
    List ((Url × Url) × TransferResult) → Except StorageError Unit → Prop where
  | unplanned {e : StorageError} (hpairs : cpPairs b args isMove paths filters = .error e) :
      CpRun b args isMove paths filters setup [] (.error e)
  | noClient {pairs : List (Url × Url)} {e : StorageError}
      (hpairs : cpPairs b args isMove paths filters = .ok pairs) (hclient : setup.client = .error e) :
      CpRun b args isMove paths filters setup [] (.error e)
  | transferred {pairs : List (Url × Url)} {es : List (JoinLoop.Event TransferResult)}
      {l : JoinLoop (Url × Url) TransferResult Bool}
      (hpairs : cpPairs b args isMove paths filters = .ok pairs) (hclient : setup.client = .ok ())
      (hslow : (setup.fast && fastAccepts pairs) = false)
      (hrun : Machine.run (JoinLoop.step (transferParams setup.numworkers))
        { todo := pairs, acc := false } es = some l)
      (hfinished : JoinLoop.Finished (transferParams setup.numworkers) l) :
      CpRun b args isMove paths filters setup l.joined (cpStatus isMove l.acc)
  | fast {pairs : List (Url × Url)} {outcomes : List ((Url × Url) × Except StorageError Unit)}
      (hpairs : cpPairs b args isMove paths filters = .ok pairs) (hclient : setup.client = .ok ())
      (hfast : (setup.fast && fastAccepts pairs) = true)
      (hrun : FastRun setup.cores (max (setup.numworkers / setup.cores) 1) pairs outcomes) :
      CpRun b args isMove paths filters setup
        (outcomes.map fun o => (o.1, TransferResult.ofOutcome o.2)) (fastStatus (hasError outcomes))

/-! ## What the status says -/

theorem foldl_reportTransfer (entries : List ((Url × Url) × TransferResult)) (hadError : Bool) :
    entries.foldl reportTransfer hadError = (hadError || entries.any fun e => e.2.isFailed) := by
  induction entries generalizing hadError with
  | nil => simp
  | cons e entries ih =>
    obtain ⟨pr, r⟩ := e
    rw [List.foldl_cons, ih, List.any_cons]
    cases r <;> simp [reportTransfer, TransferResult.isFailed]

theorem hasError_eq (outcomes : List ((Url × Url) × Except StorageError Unit)) :
    hasError outcomes =
      (outcomes.map fun o => (o.1, TransferResult.ofOutcome o.2)).any fun e => e.2.isFailed := by
  rw [List.any_map]
  refine congrArg outcomes.any (funext fun o => ?_)
  obtain ⟨pr, r⟩ := o
  cases r <;> rfl

/-- A status that is `Ok` unless some entry failed. -/
theorem ite_any_eq_ok_iff {α : Type} (l : List α) (failed : α → Bool) (e : StorageError) :
    (if l.any failed then Except.error e else .ok ()) = (.ok () : Except StorageError Unit) ↔
      ∀ a ∈ l, failed a = false := by
  cases hany : l.any failed with
  | false => simpa using List.any_eq_false.mp hany
  | true =>
    obtain ⟨a, ha, hfailed⟩ := List.any_eq_true.mp hany
    constructor
    · intro h
      cases h
    · intro hall
      have := hall a ha
      rw [hfailed] at this
      cases this

/-- **What `Ok` means for `cp` and `mv`**: the run got to its transfers, and each
planned pair was transferred once, without a failure. -/
theorem CpRun.status_ok_iff {b : Backend} {args : CpArgs} {isMove : Bool} {paths : List Str}
    {filters : Filters} {setup : CpSetup} {results : List ((Url × Url) × TransferResult)}
    {status : Except StorageError Unit}
    (h : CpRun b args isMove paths filters setup results status) :
    (∃ e, status = .error e ∧ results = [] ∧
        ((∃ e, cpPairs b args isMove paths filters = .error e) ∨ ∃ e, setup.client = .error e)) ∨
      ∃ pairs, cpPairs b args isMove paths filters = .ok pairs ∧ setup.client = .ok () ∧
        (results.map Prod.fst).Perm pairs ∧
        (status = .ok () ↔ ∀ r ∈ results, r.2.isFailed = false) := by
  cases h with
  | unplanned hpairs => exact Or.inl ⟨_, rfl, rfl, Or.inl ⟨_, hpairs⟩⟩
  | noClient hpairs hclient => exact Or.inl ⟨_, rfl, rfl, Or.inr ⟨_, hclient⟩⟩
  | @transferred pairs es l hpairs hclient hslow hrun hfinished =>
    have hacc := JoinLoop.run_accounted hrun
    refine Or.inr ⟨pairs, hpairs, hclient, hacc.perm_of_finished hfinished rfl, ?_⟩
    have hany : l.acc = l.joined.any fun e => e.2.isFailed := by
      have := hacc.acc_eq.trans (foldl_reportTransfer l.joined false)
      simpa using this
    rw [cpStatus, hany]
    exact ite_any_eq_ok_iff _ _ _
  | @fast pairs outcomes hpairs hclient hfast hrun =>
    refine Or.inr ⟨pairs, hpairs, hclient, ?_, ?_⟩
    · rw [List.map_map]
      exact hrun.perm
    · rw [fastStatus, hasError_eq]
      exact ite_any_eq_ok_iff _ _ _

end Rs5cmd
