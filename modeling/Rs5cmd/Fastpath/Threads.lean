import Rs5cmd.Lib.Fleet
import Rs5cmd.Fastpath.Runtime

/-!
# The threads of `run_transfers` (`fastpath/runtime.rs`)

`Runtime` says what the channel holds when every thread comes to its end. Here the
threads themselves are run, step by step and in every interleaving, and some of them
panic: in building their runtime or at any point of their loop. A thread that is
gone takes its sender with it, so the receiver's loop ends all the same, and
`run_transfers` returns what has arrived.
-/

namespace Rs5cmd.Fastpath

/-! ## Transfers and outcomes -/

/-- A single transfer unit. -/
inductive Transfer where
  | upload (localPath bucket key : Str)
  | download (bucket key localPath : Str)
  | copy (srcBucket srcKey dstBucket dstKey : Str)
  deriving DecidableEq, Repr

def s3Url (bucket key : Str) : Str := "s3://".toList ++ bucket ++ '/' :: key

/-- The (source, destination) operands for a transfer. -/
def operands : Transfer → Str × Str
  | .upload localPath bucket key => (localPath, s3Url bucket key)
  | .download bucket key localPath => (s3Url bucket key, localPath)
  | .copy srcBucket srcKey dstBucket dstKey => (s3Url srcBucket srcKey, s3Url dstBucket dstKey)

/-- The human label for a transfer. -/
def labelFor (item : Transfer) : Str :=
  "cp ".toList ++ (operands item).1 ++ ' ' :: (operands item).2

/-- Result of one transfer; an error is its text. -/
structure Outcome where
  label : Str
  source : Str
  destination : Str
  result : Except Str Unit

/-- What `do_one` returns when the transfer ends with `e.2`. -/
def Outcome.of (e : Transfer × Except Str Unit) : Outcome where
  label := labelFor e.1
  source := (operands e.1).1
  destination := (operands e.1).2
  result := e.2

/-- What is reported for each item of a shard whose client cannot be built. -/
def Outcome.clientInit (msg : Str) : Outcome where
  label := "fastpath client init".toList
  source := []
  destination := []
  result := .error msg

def Outcome.failed (o : Outcome) : Bool :=
  match o.result with
  | .ok () => false
  | .error _ => true

/-- `had_error` of `try_fast_path`. -/
def hadError (outcomes : List Outcome) : Bool := outcomes.any Outcome.failed

/-- The part of `FastConfig` that `run_transfers` decides by. -/
structure FastConfig where
  cores : Nat
  perCoreConcurrency : Nat
  dryRun : Bool := false

/-! ## One thread -/

/-- What becomes of a thread: it runs its shard, its client cannot be built, or it
panics, be it in building its runtime or later. -/
inductive Fate where
  | runs
  | noClient (msg : Str)
  | panics
  deriving DecidableEq, Repr

inductive Phase where
  | starting (shard : List Transfer)
  | looping (l : JoinLoop Transfer (Except Str Unit) Unit)
  | reporting (msg : Str) (left : Nat)
  | ended
  | panicked

structure ShardThread where
  fate : Fate
  phase : Phase

inductive Act where
  | start
  | loop (e : JoinLoop.Event (Except Str Unit))
  | report
  | finish
  | panic

/-- What `run_shard` sends in one round of its loop. -/
def sentBy (l : JoinLoop Transfer (Except Str Unit) Unit) :
    JoinLoop.Event (Except Str Unit) → List Outcome
  | .spawn => []
  | .join i r => (l.inFlight[i]?).toList.map fun item => Outcome.of (item, r)

/-- One step of a thread, with what it sends. -/
def work (concurrency : Nat) (t : ShardThread) : Act → Option (ShardThread × List Outcome)
  | .start =>
    match t.phase, t.fate with
    | .starting shard, .noClient msg =>
      some ({ t with phase := .reporting msg (max shard.length 1) }, [])
    | .starting shard, _ => some ({ t with phase := .looping { todo := shard, acc := () } }, [])
    | _, _ => none
  | .loop e =>
    match t.phase with
    | .looping l =>
      (JoinLoop.step (shardParams concurrency) l e).map fun l' =>
        ({ t with phase := .looping l' }, sentBy l e)
    | _ => none
  | .report =>
    match t.phase with
    | .reporting msg (left + 1) =>
      some ({ t with phase := .reporting msg left }, [Outcome.clientInit msg])
    | _ => none
  | .finish =>
    match t.phase, t.fate with
    | .looping l, .runs =>
      if JoinLoop.Finished (shardParams concurrency) l then some ({ t with phase := .ended }, [])
      else none
    | .reporting _ 0, _ => some ({ t with phase := .ended }, [])
    | _, _ => none
  | .panic =>
    match t.phase, t.fate with
    | .starting _, .panics => some ({ t with phase := .panicked }, [])
    | .looping _, .panics => some ({ t with phase := .panicked }, [])
    | _, _ => none

/-- The thread is gone, and its sender with it. -/
def ShardThread.Over (t : ShardThread) : Prop :=
  match t.phase with
  | .ended => True
  | .panicked => True
  | _ => False

/-! ## All threads -/

/-- The number of threads. -/
def FastConfig.threadCount (cfg : FastConfig) (items : List Transfer) : Nat :=
  min (max cfg.cores 1) items.length

/-- The threads as they are spawned, one for each shard. -/
def spawned (cfg : FastConfig) (fates : Nat → Fate) (items : List Transfer) : List ShardThread :=
  (shards (cfg.threadCount items) items).zipIdx.map fun e =>
    { fate := fates e.2, phase := .starting e.1 }

/-- `run_transfers` for threads with the given fates. `rx.recv()` fails once every
sender is gone, so all that was sent has been received then. -/
inductive RunTransfers (cfg : FastConfig) (fates : Nat → Fate) (items : List Transfer) :
    List Outcome → Prop where
  | noItems (hitems : items = []) : RunTransfers cfg fates items []
  | dryRun (hdry : cfg.dryRun = true) :
      RunTransfers cfg fates items (items.map fun item => Outcome.of (item, .ok ()))
  | ran {es : List (Nat × Act)} {f : Fleet ShardThread Outcome} (hdry : cfg.dryRun = false)
      (hrun : Machine.run (Fleet.step (work cfg.perCoreConcurrency))
        { members := spawned cfg fates items } es = some f)
      (hover : ∀ t ∈ f.members, t.Over) : RunTransfers cfg fates items f.sent

/-! ## What a thread has sent -/

/-- Where a thread can be, and what it has sent by then. -/
inductive Reached (concurrency : Nat) (fate : Fate) (shard : List Transfer) :
    List Outcome → ShardThread → Prop where
  | starting : Reached concurrency fate shard [] ⟨fate, .starting shard⟩
  | looping {es : List (JoinLoop.Event (Except Str Unit))}
      {l : JoinLoop Transfer (Except Str Unit) Unit} (hfate : ∀ msg, fate ≠ .noClient msg)
      (hrun : Machine.run (JoinLoop.step (shardParams concurrency)) { todo := shard, acc := () } es =
        some l) :
      Reached concurrency fate shard (l.joined.map Outcome.of) ⟨fate, .looping l⟩
  | reporting {msg : Str} {done left : Nat} (hfate : fate = .noClient msg)
      (hleft : done + left = max shard.length 1) :
      Reached concurrency fate shard (List.replicate done (Outcome.clientInit msg))
        ⟨fate, .reporting msg left⟩
  | ran {results : List (Transfer × Except Str Unit)} (hfate : fate = .runs)
      (hrun : ShardRun concurrency shard results) :
      Reached concurrency fate shard (results.map Outcome.of) ⟨fate, .ended⟩
  | reported {msg : Str} (hfate : fate = .noClient msg) :
      Reached concurrency fate shard
        (List.replicate (max shard.length 1) (Outcome.clientInit msg)) ⟨fate, .ended⟩
  | panicked {log : List Outcome} (hfate : fate = .panics) :
      Reached concurrency fate shard log ⟨fate, .panicked⟩

section Thread

variable {concurrency : Nat} {fate : Fate} {shard : List Transfer}

/-- A round of the loop sends what it joins. -/
theorem joined_step {l l' : JoinLoop Transfer (Except Str Unit) Unit}
    {e : JoinLoop.Event (Except Str Unit)}
    (h : JoinLoop.step (shardParams concurrency) l e = some l') :
    l'.joined.map Outcome.of = l.joined.map Outcome.of ++ sentBy l e := by
  obtain ⟨a, rfl, -, -, -, hl'⟩ | ⟨i, a, r, rfl, -, ha, rfl⟩ := JoinLoop.step_cases h
  · rw [hl']
    exact (List.append_nil _).symm
  · show (l.joined ++ [(a, r)]).map Outcome.of = _
    rw [List.map_append, sentBy, ha]
    rfl

theorem work_reached (log : List Outcome) (t : ShardThread) (a : Act) (t' : ShardThread)
    (out : List Outcome) (h : work concurrency t a = some (t', out))
    (ht : Reached concurrency fate shard log t) : Reached concurrency fate shard (log ++ out) t' := by
  cases ht with
  | starting =>
    cases a with
    | start =>
      cases fate with
      | noClient msg =>
        cases h
        exact Reached.reporting rfl (Nat.zero_add _)
      | runs =>
        cases h
        exact @Reached.looping _ _ _ [] _ (fun _ hne => by cases hne) rfl
      | panics =>
        cases h
        exact @Reached.looping _ _ _ [] _ (fun _ hne => by cases hne) rfl
    | panic =>
      cases fate with
      | panics =>
        cases h
        exact Reached.panicked rfl
      | _ => cases h
    | _ => cases h
  | @looping es l hfate hrun =>
    cases a with
    | loop e =>
      obtain ⟨l', hl', heq⟩ := Option.map_eq_some_iff.mp h
      cases heq
      rw [← joined_step hl']
      refine @Reached.looping _ _ _ (es ++ [e]) _ hfate ?_
      rw [Machine.run_append, hrun]
      show (JoinLoop.step (shardParams concurrency) l e).bind _ = _
      rw [hl']
      rfl
    | finish =>
      cases fate with
      | runs =>
        simp only [work] at h
        split at h
        · rename_i hfinished
          cases h
          rw [List.append_nil]
          exact Reached.ran rfl (ShardRun.ran hrun hfinished)
        · cases h
      | _ => cases h
    | panic =>
      cases fate with
      | panics =>
        cases h
        exact Reached.panicked rfl
      | _ => cases h
    | _ => cases h
  | @reporting msg done left hfate hleft =>
    cases a with
    | report =>
      cases left with
      | zero => cases h
      | succ left =>
        cases h
        rw [← List.replicate_succ']
        exact Reached.reporting hfate (by omega)
    | finish =>
      cases left with
      | zero =>
        cases h
        rw [List.append_nil, show done = max shard.length 1 from hleft]
        exact Reached.reported hfate
      | succ left => cases h
    | panic =>
      subst hfate
      cases h
    | _ => cases h
  | ran hfate hrun =>
    cases a <;> cases h
  | reported hfate =>
    cases a <;> cases h
  | panicked hfate =>
    cases a <;> cases h

/-- **Where a thread can come to**, and with which outcomes sent. -/
theorem reached_of_sends {log : List Outcome} {t : ShardThread}
    (h : Fleet.Sends (work concurrency) ⟨fate, .starting shard⟩ log t) :
    Reached concurrency fate shard log t :=
  h.invariant work_reached Reached.starting

/-- The transfers that a thread has in flight. -/
def ShardThread.inFlight (t : ShardThread) : List Transfer :=
  match t.phase with
  | .looping l => l.inFlight
  | _ => []

theorem Reached.bounded {log : List Outcome} {t : ShardThread}
    (h : Reached concurrency fate shard log t) : t.inFlight.length ≤ max concurrency 1 := by
  cases h with
  | looping hfate hrun => exact (JoinLoop.run_accounted hrun).bounded
  | _ => exact Nat.zero_le _

/-! ## What a thread can do -/

/-- The rounds of the loop, as steps of the thread. -/
theorem sends_loop {l l' : JoinLoop Transfer (Except Str Unit) Unit}
    {es : List (JoinLoop.Event (Except Str Unit))}
    (h : Machine.run (JoinLoop.step (shardParams concurrency)) l es = some l') :
    ∃ log, l'.joined.map Outcome.of = l.joined.map Outcome.of ++ log ∧
      Fleet.Sends (work concurrency) ⟨fate, .looping l⟩ log ⟨fate, .looping l'⟩ := by
  induction es generalizing l with
  | nil =>
    obtain rfl := Option.some.inj h
    exact ⟨[], (List.append_nil _).symm, Fleet.Sends.refl⟩
  | cons e es ih =>
    obtain ⟨l₁, hl₁, hrun⟩ := Machine.run_cons_eq_some.mp h
    obtain ⟨log, hjoined, hsends⟩ := ih hrun
    have hfirst : work concurrency ⟨fate, .looping l⟩ (.loop e) =
        some (⟨fate, .looping l₁⟩, sentBy l e) := by
      show (JoinLoop.step (shardParams concurrency) l e).map _ = _
      rw [hl₁]
      rfl
    refine ⟨sentBy l e ++ log, ?_, (Fleet.Sends.single hfirst).trans hsends⟩
    rw [hjoined, joined_step hl₁, List.append_assoc]

/-- A thread that is not to fail can transfer everything. -/
theorem sends_all_ok :
    ∃ results : List (Transfer × Except Str Unit), (results.map Prod.fst).Perm shard ∧
      (∀ r ∈ results, r.2 = .ok ()) ∧
        Fleet.Sends (work concurrency) ⟨.runs, .starting shard⟩ (results.map Outcome.of)
          ⟨.runs, .ended⟩ := by
  have hstep : ∀ l : JoinLoop Transfer (Except Str Unit) Unit, (∀ r ∈ l.joined, r.2 = .ok ()) →
      ¬ JoinLoop.Finished (shardParams concurrency) l →
        ∃ e l', JoinLoop.step (shardParams concurrency) l e = some l' ∧
          (∀ r ∈ l'.joined, r.2 = .ok ()) ∧ l'.remaining < l.remaining := by
    intro l hl hopen
    have hworkers : 0 < (shardParams concurrency : JoinLoop.Params Transfer (Except Str Unit) Unit).workers :=
      Nat.lt_of_lt_of_le Nat.zero_lt_one (Nat.le_max_right _ _)
    obtain ⟨e, l', he, hok⟩ := JoinLoop.exists_step hworkers hopen fun _ => .ok ()
    refine ⟨e, l', he, ?_, JoinLoop.step_remaining he⟩
    obtain ⟨a, -, -, -, -, hl'⟩ | ⟨i, a, r, rfl, -, -, rfl⟩ := JoinLoop.step_cases he
    · rw [hl']
      exact hl
    · obtain ⟨_, _, rfl⟩ := hok i r rfl
      intro x hx
      rcases List.mem_append.mp hx with hold | hnew
      · exact hl x hold
      · obtain rfl := List.mem_singleton.mp hnew
        rfl
  obtain ⟨es, l, hrun, hok, hfinished⟩ :=
    Machine.exists_run_final JoinLoop.remaining hstep { todo := shard, acc := () }
      (fun _ h => by cases h)
  refine ⟨l.joined, (JoinLoop.run_accounted hrun).perm_of_finished hfinished rfl, hok, ?_⟩
  obtain ⟨log, hlog, hsends⟩ := @sends_loop concurrency .runs _ _ _ hrun
  rw [hlog]
  have hstart : work concurrency ⟨.runs, .starting shard⟩ .start =
      some (⟨.runs, .looping { todo := shard, acc := () }⟩, []) := rfl
  have hfinish : work concurrency ⟨.runs, .looping l⟩ .finish = some (⟨.runs, .ended⟩, []) :=
    if_pos hfinished
  have hall := ((Fleet.Sends.single hstart).trans hsends).trans (Fleet.Sends.single hfinish)
  rw [List.append_nil] at hall
  exact hall

/-- A thread that is to panic can do so before anything is sent. -/
theorem sends_panics :
    Fleet.Sends (work concurrency) ⟨.panics, .starting shard⟩ [] ⟨.panics, .panicked⟩ :=
  @Fleet.Sends.single _ _ _ _ _ _ .panic _ rfl

end Thread

end Rs5cmd.Fastpath
