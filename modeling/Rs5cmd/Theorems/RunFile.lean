import Rs5cmd.Command.RunFile

/-!
# A command file runs each of its lines once

Whatever the order in which the commands end and however they go: no line is lost or run
twice, a failed line does not stop the others, and the exit status tells whether all of
them went well.
-/

namespace Rs5cmd

/-! ## The lines -/

theorem mem_commandLines {content : Str} {n : Nat} {line : Str} :
    (n, line) ∈ commandLines content ↔
      ∃ raw i, (Str.lines content)[i]? = some raw ∧ n = i + 1 ∧ line = Str.trim raw ∧ line ≠ [] ∧
        Str.startsWith ['#'] line = false := by
  rw [commandLines, List.mem_filterMap]
  constructor
  · rintro ⟨⟨raw, i⟩, hraw, hline⟩
    dsimp only at hline
    split at hline
    · cases hline
    · rename_i hkept
      obtain ⟨rfl, rfl⟩ := Prod.mk.inj (Option.some.inj hline)
      obtain ⟨hne, hcomment⟩ := not_or.mp hkept
      exact ⟨raw, i, List.mem_zipIdx_iff_getElem?.mp hraw, rfl, rfl, hne, by simpa using hcomment⟩
  · rintro ⟨raw, i, hraw, rfl, rfl, hne, hcomment⟩
    refine ⟨(raw, i), List.mem_zipIdx_iff_getElem?.mpr hraw, ?_⟩
    dsimp only
    rw [if_neg (by simp [hne, hcomment])]

/-- The lines are numbered upwards. -/
theorem commandLines_sorted (content : Str) :
    (commandLines content).Pairwise fun l l' => l.1 < l'.1 := by
  have hnumbered : (Str.lines content).zipIdx.Pairwise fun a b => a.2 < b.2 := by
    rw [List.pairwise_iff_getElem]
    intro i j hi hj hij
    simp only [List.getElem_zipIdx]
    omega
  refine List.Pairwise.filterMap _ (fun a b hab l hl l' hl' => ?_) hnumbered
  dsimp only at hl hl'
  split at hl
  · cases hl
  · split at hl'
    · cases hl'
    · rw [← Option.some.inj hl, ← Option.some.inj hl']
      show a.2 + 1 < b.2 + 1
      omega

namespace CommandFile

variable {κ : Type} {file : CommandFile κ} {s : State}

/-! ## What is reported -/

theorem acc_eq_false_iff (h : JoinLoop.Accounted file.params (commandLines file.content) false s) :
    s.acc = false ↔ ∀ p ∈ s.joined, file.runLine p.1 p.2 = .ok () := by
  have hfold : ∀ (joined : List ((Nat × Str) × Except Str Unit)) (acc : Bool),
      joined.foldl file.params.report acc = false ↔
        acc = false ∧ ∀ p ∈ joined, file.runLine p.1 p.2 = .ok () := by
    intro joined
    induction joined with
    | nil => simp
    | cons p joined ih =>
      intro acc
      have hone : file.params.report acc p = false ↔ acc = false ∧ file.runLine p.1 p.2 = .ok () := by
        show (acc || !(file.runLine p.1 p.2).isOk) = false ↔ _
        cases file.runLine p.1 p.2 with
        | error e => simp [Except.isOk, Except.toBool]
        | ok u => simp [Except.isOk, Except.toBool]
      rw [List.foldl_cons, ih, hone, List.forall_mem_cons, and_assoc]
  rw [h.acc_eq, hfold]
  simp

/-- A line goes well if it is read, and its command, if it has one, goes well. -/
theorem runLine_eq_ok_iff {l : Nat × Str} {outcome : Except Str Unit} :
    file.runLine l outcome = .ok () ↔ (∃ cli, file.lineCommand l = .ok cli) ∧
      ∀ cli, file.lineCommand l = .ok (some cli) → outcome = .ok () := by
  rw [runLine]
  cases file.lineCommand l with
  | error e => simp
  | ok cli =>
    cases cli with
    | none => simp
    | some cli => simp

/-- The steps of a run. -/
theorem run_length {es : List (JoinLoop.Event (Except Str Unit))} {s s' : State}
    (h : Machine.run file.step s es = some s') : es.length + s'.remaining ≤ s.remaining := by
  induction es generalizing s with
  | nil =>
    obtain rfl := Option.some.inj h
    simp
  | cons e es ih =>
    obtain ⟨t, ht, hrest⟩ := Machine.run_cons_eq_some.mp h
    have hlt := JoinLoop.step_remaining ht
    have hrun := ih hrest
    rw [List.length_cons]
    omega

/-- **A command file runs each of its lines once.** In every schedule at most `numworkers`
lines, and at least one, are in flight at a time; the loop ends after two steps for each line,
and until it has ended it can go on whatever the commands come to. When it has ended, every
line that is neither blank nor a comment has been reported once, and the commands that were
dispatched are those of the lines. The file succeeds just when every line could be read, none
of them nested another `run`, and all commands succeeded. -/
theorem command_file_run (file : CommandFile κ) (es : List (JoinLoop.Event (Except Str Unit)))
    (s : State) (h : Machine.run file.step file.start es = some s) :
    s.inFlight.length ≤ max file.global.numworkers.toNat 1 ∧
      es.length ≤ 2 * (commandLines file.content).length ∧
      (¬ file.Finished s → ∀ outcome : Nat × Str → Except Str Unit,
        ∃ e s', file.step s e = some s' ∧
          ∀ i r, e = .join i r → ∃ l, s.inFlight[i]? = some l ∧ r = outcome l) ∧
      (file.Finished s →
        (s.joined.map Prod.fst).Perm (commandLines file.content) ∧
        (file.dispatched (s.joined.map Prod.fst)).Perm (file.dispatched (commandLines file.content)) ∧
        (result s = .ok () ↔
          (∀ l ∈ commandLines file.content, ∃ cli, file.lineCommand l = .ok cli) ∧
          ∀ p ∈ s.joined, ∀ cli, file.lineCommand p.1 = .ok (some cli) → p.2 = .ok ())) := by
  have hacc := JoinLoop.run_accounted h
  refine ⟨hacc.bounded, ?_, ?_, ?_⟩
  · have hlen := run_length h
    have hstart : file.start.remaining = 2 * (commandLines file.content).length := by
      simp [start, JoinLoop.remaining]
    omega
  · intro hunfinished outcome
    have hworkers : 0 < file.params.workers := by
      show 0 < max file.global.numworkers.toNat 1
      omega
    exact JoinLoop.exists_step hworkers hunfinished outcome
  · intro hfinished
    have hperm := hacc.perm_of_finished hfinished rfl
    refine ⟨hperm, hperm.filterMap _, ?_⟩
    have hresult : result s = .ok () ↔ s.acc = false := by
      rw [result]
      cases s.acc with
      | true => simp
      | false => simp
    rw [hresult, acc_eq_false_iff hacc]
    constructor
    · intro hall
      refine ⟨fun l hl => ?_, fun p hp => (runLine_eq_ok_iff.mp (hall p hp)).2⟩
      obtain ⟨p, hp, rfl⟩ := List.mem_map.mp (hperm.mem_iff.mpr hl)
      exact (runLine_eq_ok_iff.mp (hall p hp)).1
    · rintro ⟨hread, hok⟩ p hp
      exact runLine_eq_ok_iff.mpr ⟨hread p.1 (hperm.mem_iff.mp (List.mem_map_of_mem hp)), hok p hp⟩

/-- Two commands with a comment between them. -/
def sample : CommandFile (List Str) where
  words line := .ok (Str.split ' ' line)
  clap args := .ok { given := fun _ => none, command := some args }
  env := {}
  isRun args := args.contains "run".toList
  global := { numworkers := 2 }
  content := "rm s3://b/x\n# and\n  rm s3://b/y".toList

/-- The second command ends first, and fails. -/
def sampleSchedule : List (JoinLoop.Event (Except Str Unit)) :=
  [.spawn, .spawn, .join 1 (.error "denied".toList), .join 0 (.ok ())]

theorem command_file_run_sample :
    ∃ s, Machine.run sample.step sample.start sampleSchedule = some s ∧
      (s.joined.map Prod.fst).Perm (commandLines sample.content) ∧
      (commandLines sample.content).length = 2 := by
  have hrun : ∃ s, Machine.run sample.step sample.start sampleSchedule = some s ∧
      sample.Finished s := Machine.exists_run_of_any (by decide +kernel)
  obtain ⟨s, hs, hfinished⟩ := hrun
  exact ⟨s, hs, ((command_file_run sample sampleSchedule s hs).2.2.2 hfinished).1, by decide +kernel⟩

end CommandFile

end Rs5cmd
