import Rs5cmd.Lib.JoinLoop
import Rs5cmd.Command.Sync

/-!
# Executing a `sync` (`command/sync.rs`)

After planning, `run` checks the `--max-delete` cap, executes the copies in one
bounded spawn and join loop and, unless that loop was stopped by a failure, the
deletions in a second one. Results are tallied as they are joined. The order in
which tasks finish and their results are up to the schedule.
-/

namespace Rs5cmd

/-- What one copy or deletion returns. -/
abbrev OpResult := Except StorageError Unit

namespace OpResult

def isFailed : OpResult → Bool
  | .ok () => false
  | .error _ => true

/-- The failure is a fatal one. -/
def isFatal : OpResult → Bool
  | .ok () => false
  | .error e => Rs5cmd.isFatal e

end OpResult

/-- `had_error`, `fatal_seen` and the count of successes of a phase. -/
structure Tally where
  hadError : Bool := false
  fatalSeen : Bool := false
  ok : Nat := 0
  deriving DecidableEq, Repr

namespace Tally

/-- `report` and `report_rm`. -/
def report {α : Type} (t : Tally) (entry : α × OpResult) : Tally :=
  match entry.2 with
  | .ok () => { t with ok := t.ok + 1 }
  | .error e => { t with hadError := true, fatalSeen := t.fatalSeen || isFatal e }

/-- The condition on which both loops stop spawning. -/
def stops (exitOnError : Bool) (t : Tally) : Bool := (exitOnError && t.hadError) || t.fatalSeen

end Tally

/-- What the executing half of `run` is given. -/
structure SyncJob where
  toCopy : List (Url × Url)
  toDelete : List Url
  maxDelete : Option Nat := none
  numworkers : Nat := 1
  exitOnError : Bool := false

namespace SyncJob

def workers (job : SyncJob) : Nat := max job.numworkers 1

/-- The parameters of either loop. -/
def params (job : SyncJob) (α : Type) : JoinLoop.Params α OpResult Tally where
  workers := job.workers
  report := Tally.report
  stop := Tally.stops job.exitOnError

/-- The deletions exceed the cap. -/
def overCap (job : SyncJob) : Bool :=
  match job.maxDelete with
  | some max => max < job.toDelete.length
  | none => false

/-- The state of a run. The second loop exists once it has begun. -/
structure State where
  copies : JoinLoop (Url × Url) OpResult Tally
  deletes : Option (JoinLoop Url OpResult Tally) := none
  result : Option (Except Str Unit) := none

inductive Event where
  | copy (e : JoinLoop.Event OpResult)
  | delete (e : JoinLoop.Event OpResult)
  | advance
  deriving DecidableEq, Repr

def capMessage (job : SyncJob) : Str :=
  "aborting sync: --delete would remove ".toList ++ Str.decimal job.toDelete.length ++
    " objects, exceeding --max-delete ".toList ++ Str.decimal (job.maxDelete.getD 0) ++
    " (nothing was copied or deleted)".toList

def fatalMessage : Str :=
  "aborting sync: fatal error (access denied or missing bucket); see errors above".toList

def failedMessage : Str := "one or more sync operations failed".toList

/-- Before the loops: a delete set over the cap ends the run. -/
def start (job : SyncJob) : State where
  copies := { todo := job.toCopy, acc := {} }
  result := if job.overCap then some (.error job.capMessage) else none

/-- After the copy loop: a fatal error aborts, and so does any error in
exit-on-error mode; otherwise the deletions begin, with `had_error` kept. -/
def afterCopies (job : SyncJob) (s : State) : State :=
  if s.copies.acc.fatalSeen then { s with result := some (.error fatalMessage) }
  else if job.exitOnError && s.copies.acc.hadError then
    { s with result := some (.error failedMessage) }
  else
    { s with deletes := some { todo := job.toDelete, acc := { hadError := s.copies.acc.hadError } } }

/-- After the delete loop. -/
def afterDeletes (s : State) (d : JoinLoop Url OpResult Tally) : State :=
  if d.acc.fatalSeen then { s with result := some (.error fatalMessage) }
  else if d.acc.hadError then { s with result := some (.error failedMessage) }
  else { s with result := some (.ok ()) }

/-- One step of the run: of the loop it is in, or from one loop to the next. -/
def step (job : SyncJob) (s : State) : Event → Option State
  | .copy e =>
    match s.deletes, s.result with
    | none, none =>
      (JoinLoop.step (job.params (Url × Url)) s.copies e).map fun l => { s with copies := l }
    | _, _ => none
  | .delete e =>
    match s.deletes, s.result with
    | some d, none =>
      (JoinLoop.step (job.params Url) d e).map fun l => { s with deletes := some l }
    | _, _ => none
  | .advance =>
    match s.deletes, s.result with
    | none, none =>
      if JoinLoop.Finished (job.params (Url × Url)) s.copies then some (job.afterCopies s) else none
    | some d, none =>
      if JoinLoop.Finished (job.params Url) d then some (afterDeletes s d) else none
    | _, some _ => none

/-! ## What a step can do -/

variable {job : SyncJob} {s s' : State}

inductive Step (job : SyncJob) (s s' : State) : Event → Prop where
  | copy {e : JoinLoop.Event OpResult} {l : JoinLoop (Url × Url) OpResult Tally}
      (hdeletes : s.deletes = none) (hresult : s.result = none)
      (hstep : JoinLoop.step (job.params (Url × Url)) s.copies e = some l)
      (hs' : s' = { s with copies := l }) : Step job s s' (.copy e)
  | delete {e : JoinLoop.Event OpResult} {d l : JoinLoop Url OpResult Tally}
      (hdeletes : s.deletes = some d) (hresult : s.result = none)
      (hstep : JoinLoop.step (job.params Url) d e = some l)
      (hs' : s' = { s with deletes := some l }) : Step job s s' (.delete e)
  | afterCopies (hdeletes : s.deletes = none) (hresult : s.result = none)
      (hfinished : JoinLoop.Finished (job.params (Url × Url)) s.copies)
      (hs' : s' = job.afterCopies s) : Step job s s' .advance
  | afterDeletes {d : JoinLoop Url OpResult Tally} (hdeletes : s.deletes = some d)
      (hresult : s.result = none) (hfinished : JoinLoop.Finished (job.params Url) d)
      (hs' : s' = SyncJob.afterDeletes s d) : Step job s s' .advance

theorem step_cases {ev : Event} (h : step job s ev = some s') : Step job s s' ev := by
  cases ev with
  | copy e =>
    simp only [step] at h
    split at h
    · rename_i hd hr
      obtain ⟨l, hl, rfl⟩ := Option.map_eq_some_iff.mp h
      exact .copy hd hr hl rfl
    · cases h
  | delete e =>
    simp only [step] at h
    split at h
    · rename_i d hd hr
      obtain ⟨l, hl, rfl⟩ := Option.map_eq_some_iff.mp h
      exact .delete hd hr hl rfl
    · cases h
  | advance =>
    simp only [step] at h
    split at h
    · rename_i hd hr
      split at h
      · rename_i hf
        exact .afterCopies hd hr hf (Option.some.inj h).symm
      · cases h
    · rename_i d hd hr
      split at h
      · rename_i hf
        exact .afterDeletes hd hr hf (Option.some.inj h).symm
      · cases h
    · cases h

end SyncJob

end Rs5cmd
