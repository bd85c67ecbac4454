import StackLogic.Batch.Options
import StackLogic.Session

/-!
# Running a program file

The command line names a program file and may choose the language and the limits. What the program
logs goes to the standard output; its diagnostics go to the standard error output if they are asked
for.
-/

namespace StackLogic.Batch

/-- What running a command line leaves behind. -/
structure Result where
  /-- The exit code. -/
  code : Nat
  /-- The standard output. -/
  out : String
  /-- The standard error output; a misused command line is explained elsewhere. -/
  err : Option String
  deriving DecidableEq

/-- A line with its end. -/
def endLine (s : String) : String := s ++ "\n"

/-- The name and version of the program. -/
def versionLine : String := "farm 0.1.0"

/-- How the program is called. -/
def usageLine : String := "Usage: farm [OPTIONS] [FILE]"

/-- The lines of the help text. -/
def helpLines : List String :=
  [ "Forth and Prolog interpreters with a terminal REPL",
    "",
    usageLine,
    "",
    "Arguments:",
    "  [FILE]  Program to run in batch mode (starts the REPL if omitted)",
    "",
    "Options:",
    "  -l, --lang <LANG>      Language: forth or prolog (guessed from the file extension otherwise)",
    "      --max-depth <N>    Maximum nesting of user words / predicate calls",
    "      --max-steps <N>    Maximum goal resolutions per Prolog query",
    "      --log-file <PATH>  Write tracing logs to this file (REPL mode)",
    "  -v, --verbose          Print diagnostic output to stderr (batch mode)",
    "  -h, --help             Print help",
    "  -V, --version          Print version" ]

/-- The lines of one channel as output. -/
def channelText (c : Channel) (tag : String) (lines : List OutputLine) : String :=
  String.join ((lines.filter (·.channel == c)).map fun l => endLine (tag ++ l.text))

/-- The result of a command line that fails for this reason. -/
def failed (reason : String) : Result :=
  { code := 1, out := "", err := some (endLine ("Error: " ++ reason)) }

/-- The result of a command line that only asks for a text. -/
def shown (text : String) : Result := { code := 0, out := text, err := some "" }

/-- The result of a misused command line. -/
def misused : Result := { code := 2, out := "", err := none }

/-- Whether a path leads to a directory in every file system: it has only the steps `.` and `..`. -/
def namesDirectory (path : String) : Bool :=
  (path.splitOn "/").all fun step => step = "" || step = "." || step = ".."

/-- Why the file at a path cannot be read. -/
def unreadable (path : String) : String :=
  if namesDirectory path then "Is a directory (os error 21)"
  else "No such file or directory (os error 2)"

/-- Run the program in a file with these contents; without contents there is no such file. -/
def run (o : Options) (path : String) (source : Option String) : Result :=
  match source with
  | none => failed ("cannot read \x27" ++ path ++ "\x27: " ++ unreadable path)
  | some text =>
    let (report, _) := (Session.fresh o.limits).runProgram (o.languageFor path) text
    let debug := if o.verbose then channelText .debug "[debug] " report.output else ""
    { code := if report.stoppedAt.isSome then 1 else 0
      out := channelText .log "" report.output
      err := some (debug ++ match report.stoppedAt with
        | some line => endLine ("Stopped at line " ++ toString line ++ " of " ++ path)
        | none => "") }

/-- Run a command line where no terminal is at hand. `files` gives the contents of the files that
can be read. Without a program file the console would start, which fails for want of a terminal. -/
def answer (args : List String) (files : String → Option String) : Result :=
  match Options.ofArguments args with
  | .error .misuse => misused
  | .error .help => shown (String.join (helpLines.map endLine))
  | .error .version => shown (endLine versionLine)
  | .ok o =>
    match o.file with
    | some path => run o path (files path)
    | none => failed "No such device or address (os error 6)"

end StackLogic.Batch
