import StackLogic.Decimal.Reading
import StackLogic.Language
import StackLogic.Limits

/-!
# Command-line options

Arguments are read from left to right. The first one that is misused, or that asks for the help
text or the version, ends the reading: what follows it is not looked at.
-/

namespace StackLogic.Batch

/-- What the command line asks for. -/
structure Options where
  /-- The program file. -/
  file : Option String := none
  /-- The language, if it is given. -/
  language : Option Language := none
  /-- The limit of both depths. -/
  maxDepth : Option Nat := none
  /-- The limit of proof steps. -/
  maxSteps : Option Nat := none
  /-- A file for log lines; running a program writes none. -/
  logFile : Option String := none
  /-- Whether diagnostics are shown. -/
  verbose : Bool := false
  deriving DecidableEq

/-- Why the reading of arguments ends before the last one. -/
inductive Stop where
  /-- An argument is misused. -/
  | misuse
  /-- The help text is asked for. -/
  | help
  /-- The version is asked for. -/
  | version
  deriving DecidableEq

/-- The options that take a value. -/
inductive Setting where
  | language
  | maxDepth
  | maxSteps
  | logFile
  deriving DecidableEq

/-- The option with this long name. -/
def Setting.ofName? : String → Option Setting
  | "lang" => some .language
  | "max-depth" => some .maxDepth
  | "max-steps" => some .maxSteps
  | "log-file" => some .logFile
  | _ => none

/-- A count, which has to fit in sixty-four bits and may have a plus sign. -/
def count? (value : String) : Option Nat :=
  let digits := match value.toList with
    | '+' :: rest => rest
    | cs => cs
  (Decimal.natural? digits).bind fun n => if n < UInt64.size then some n else none

/-- What cannot be done is a misuse. -/
def orMisuse {α : Type} : Option α → Except Stop α
  | some a => .ok a
  | none => .error .misuse

namespace Options

/-- Set an option to a value. An option cannot be set twice. -/
def set? (o : Options) (setting : Setting) (value : String) : Option Options :=
  match setting with
  | .language =>
    if o.language.isSome then none
    else (Language.ofName? value).map fun l => { o with language := some l }
  | .maxDepth =>
    if o.maxDepth.isSome then none else (count? value).map fun n => { o with maxDepth := some n }
  | .maxSteps =>
    if o.maxSteps.isSome then none else (count? value).map fun n => { o with maxSteps := some n }
  | .logFile =>
    if o.logFile.isSome || value.isEmpty then none else some { o with logFile := some value }

/-- Ask for diagnostics, once. -/
def setVerbose? (o : Options) : Option Options :=
  if o.verbose then none else some { o with verbose := true }

/-- Set the program file, once. -/
def setFile? (o : Options) (path : String) : Option Options :=
  if o.file.isSome || path.isEmpty then none else some { o with file := some path }

/-- What an argument leaves behind: the options so far, and the setting that still needs a
value. -/
abbrev Progress := Options × Option Setting

/-- Set an option to the value that is part of the argument. -/
def attach (o : Options) (setting : Setting) (value : List Char) : Except Stop Progress :=
  (orMisuse (o.set? setting (String.ofList value))).map (·, none)

/-- Read the letters of a single-dash argument. -/
def readShort (o : Options) : List Char → Except Stop Progress
  | [] => .ok (o, none)
  | 'v' :: rest =>
    match o.setVerbose? with
    | some o' => readShort o' rest
    | none => .error .misuse
  | 'h' :: _ => .error .help
  | 'V' :: _ => .error .version
  | 'l' :: [] => .ok (o, some .language)
  | 'l' :: '=' :: value => o.attach .language value
  | 'l' :: value => o.attach .language value
  | _ => .error .misuse

/-- Read a double-dash argument that holds no `=`. -/
def readName (o : Options) (name : String) : Except Stop Progress :=
  match name with
  | "verbose" => (orMisuse o.setVerbose?).map (·, none)
  | "help" => .error .help
  | "version" => .error .version
  | _ => (orMisuse (Setting.ofName? name)).map fun setting => (o, some setting)

/-- Read a double-dash argument. -/
def readLong (o : Options) (cs : List Char) : Except Stop Progress :=
  let name := String.ofList (cs.takeWhile (· != '='))
  match cs.dropWhile (· != '=') with
  | [] => o.readName name
  | _ :: value =>
    match Setting.ofName? name with
    | some setting => o.attach setting value
    | none => .error .misuse

/-- Read arguments. `waiting` is a setting whose value comes next; `plain` says that the remaining
arguments are no options. -/
def readAll (o : Options) (waiting : Option Setting) (plain : Bool) :
    List String → Except Stop Options
  | [] => if waiting.isSome then .error .misuse else .ok o
  | arg :: rest =>
    match waiting, plain, arg.toList with
    | some _, _, '-' :: _ :: _ => .error .misuse
    | some setting, _, _ =>
      (orMisuse (o.set? setting arg)).bind fun o' => readAll o' none false rest
    | none, true, _ => (orMisuse (o.setFile? arg)).bind fun o' => readAll o' none true rest
    | none, false, '-' :: '-' :: [] => readAll o none true rest
    | none, false, '-' :: '-' :: cs =>
      (o.readLong cs).bind fun (o', waiting') => readAll o' waiting' false rest
    | none, false, '-' :: c :: cs =>
      (o.readShort (c :: cs)).bind fun (o', waiting') => readAll o' waiting' false rest
    | none, false, _ => (orMisuse (o.setFile? arg)).bind fun o' => readAll o' none false rest

/-- Read the command line. -/
def ofArguments (args : List String) : Except Stop Options := readAll {} none false args

/-- The limits that follow from the options. -/
def limits (o : Options) : Limits :=
  let standard : Limits := {}
  { standard with
    callDepth := o.maxDepth.getD standard.callDepth
    proofDepth := o.maxDepth.getD standard.proofDepth
    proofSteps := o.maxSteps.getD standard.proofSteps }

end Options

/-- The last part of a path. -/
def fileName (path : List Char) : List Char :=
  let trimmed := (path.reverse.dropWhile (· == '/')).reverse
  (trimmed.reverse.takeWhile (· != '/')).reverse

/-- What stands behind the last point of a file name. A point at its beginning does not count. -/
def extension? (path : String) : Option String :=
  let backward := (fileName path.toList).reverse
  match backward.dropWhile (· != '.') with
  | '.' :: _ :: _ => some (String.ofList (backward.takeWhile (· != '.')).reverse)
  | _ => none

/-- The language of a program: the one that is asked for, or the one its file extension names. -/
def Options.languageFor (o : Options) (path : String) : Language :=
  match o.language with
  | some l => l
  | none => ((extension? path).bind Language.ofName?).getD .standard

end StackLogic.Batch
