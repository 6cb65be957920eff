import Rs5cmd.Command.Run
import Rs5cmd.Lib.JoinLoop
import Rs5cmd.Lines

/-!
# Running a command file (`command/run.rs`)

The lines of the file are command lines of their own. As many as there are workers are
driven at a time by one task, and the next one is started when one of them ends. Which one
ends, and how its command went, is up to the schedule.

`shell_words` and the parser of the command line are parameters.
-/

namespace Rs5cmd

/-- The lines of `run` with their numbers: blank ones and comments are left out. -/
def commandLines (content : Str) : List (Nat × Str) :=
  (Str.lines content).zipIdx.filterMap fun raw =>
    let line := Str.trim raw.1
    if line = [] ∨ Str.startsWith ['#'] line then none else some (raw.2 + 1, line)

structure CommandFile (κ : Type) where
  /-- `shell_words::split`. -/
  words : Str → Except Str (List Str)
  clap : Clap κ
  env : Env
  /-- `matches!(command, Command::Run(_))`. -/
  isRun : κ → Bool
  global : GlobalOpts
  content : Str

namespace CommandFile

variable {κ : Type}

/-- `run_line` up to the dispatch: the command line to be run, if the line has any
words at all. -/
def lineCommand (file : CommandFile κ) (l : Nat × Str) : Except Str (Option (Cli κ)) :=
  match file.words l.2 with
  | .error e => .error ("parsing line ".toList ++ Str.decimal l.1 ++ ": ".toList ++ e)
  | .ok [] => .ok none
  | .ok tokens =>
    match tryParseFrom file.clap file.env (buildArgv file.global tokens) with
    | .error e => .error ("line ".toList ++ Str.decimal l.1 ++ ": ".toList ++ e)
    | .ok cli =>
      if cli.command.any file.isRun then
        .error ("nested run is not supported (line ".toList ++ Str.decimal l.1 ++ ")".toList)
      else .ok (some cli)

/-- `run_one`, where `outcome` is what the dispatched command comes to. -/
def runLine (file : CommandFile κ) (l : Nat × Str) (outcome : Except Str Unit) : Except Str Unit :=
  match file.lineCommand l with
  | .error e => .error e
  | .ok none => .ok ()
  | .ok (some _) => outcome

/-- `report` sets `had_error`. -/
def params (file : CommandFile κ) : JoinLoop.Params (Nat × Str) (Except Str Unit) Bool where
  workers := max file.global.numworkers.toNat 1
  report hadError p := hadError || !(file.runLine p.1 p.2).isOk
  stop _ := false

abbrev State : Type := JoinLoop (Nat × Str) (Except Str Unit) Bool

def start (file : CommandFile κ) : State := { todo := commandLines file.content, acc := false }

/-- One event of `run`. -/
def step (file : CommandFile κ) : State → JoinLoop.Event (Except Str Unit) → Option State :=
  JoinLoop.step file.params

/-- All lines have been reported. -/
def Finished (file : CommandFile κ) (s : State) : Prop := JoinLoop.Finished file.params s

instance (file : CommandFile κ) (s : State) : Decidable (file.Finished s) :=
  inferInstanceAs (Decidable (JoinLoop.Finished file.params s))

/-- The result of `run`. -/
def result (s : State) : Except Str Unit :=
  if s.acc then .error "one or more run commands failed".toList else .ok ()

/-- The command lines that were dispatched for some lines. -/
def dispatched (file : CommandFile κ) (ls : List (Nat × Str)) : List (Cli κ) :=
  ls.filterMap fun l => (file.lineCommand l).toOption.join

end CommandFile

end Rs5cmd
