import BitUnroll.Unroll.Report

/-!
# Command lines

What the arguments of the program ask for, and what the program then prints. Arguments count from
the left: the first one that asks for help, is unknown or is wrong decides.

## Main definitions

* `Command.plan`: the request that arguments make.
* `Command.answer`: the output for a request and the text of its script.
-/

namespace BitUnroll

namespace Command

/-- What the program prints about itself. -/
def helpText : String :=
  "transblast - bit-blast transition systems over a bounded unrolling\n" ++
  "\n" ++
  "USAGE:\n" ++
  "    transblast [OPTIONS] [FILE]\n" ++
  "\n" ++
  "OPTIONS:\n" ++
  "    -h, --help, -help           Print this help message\n" ++
  "    --timeframes <N>            Number of timeframes to allocate (default: 2)\n" ++
  "    --solve                     Check satisfiability instead of printing CNF\n" ++
  "    --dimacs                    Print DIMACS CNF (default)\n" ++
  "\n" ++
  "ENCODING OPTIONS:\n" ++
  "    --no-opts                   Disable all gate-level optimizations\n" ++
  "    --no-const-prop             Disable constant folding in gates\n" ++
  "    --no-gate-sharing           Disable structural hashing of gates\n" ++
  "\n" ++
  "ARGS:\n" ++
  "    <FILE>                      Input script (reads from stdin if not specified)\n" ++
  "\n" ++
  "EXAMPLES:\n" ++
  "    transblast counter.tb                       # Print CNF for two timeframes\n" ++
  "    transblast --timeframes 8 --solve c.tb      # Unroll eight timeframes and solve\n" ++
  "    cat counter.tb | transblast --no-opts       # Read from stdin, no folding\n"

/-- What arguments ask for. -/
inductive Request where
  /-- The help text, after a note on an unknown option if there was one. -/
  | help (unknown? : Option String)
  | refused (failure : Failure)
  /-- A script, from a file or else from standard input. -/
  | run (config : Config) (file? : Option String)
  deriving Repr

/-- The effect of an option without a value. -/
def switch? (config : Config) : String → Option Config
  | "--solve" => some { config with solve := true }
  | "--dimacs" => some { config with solve := false }
  | "--no-opts" => some { config with options := ⟨false, false⟩ }
  | "--no-const-prop" => some { config with options := { config.options with constProp := false } }
  | "--no-gate-sharing" =>
    some { config with options := { config.options with gateSharing := false } }
  | _ => none

/-- Whether an argument asks for help. -/
def asksHelp (arg : String) : Bool := arg == "-h" || arg == "--help" || arg == "-help"

/-- Whether an argument is an option. -/
def isOption (arg : String) : Bool := arg.toList.head? == some '-'

/-- The request of arguments, after others that gave a configuration and a file. -/
def planFrom (config : Config) (file? : Option String) : List String → Request
  | [] => .run config file?
  | "--timeframes" :: rest =>
    match rest with
    | [] => .refused (.of .missingCount)
    | text :: rest =>
      match Text.readNat Text.countLimit text with
      | .ok n => planFrom { config with timeframes := n } file? rest
      | .error e => .refused ⟨[.timeframeCount text], .numeral e⟩
  | arg :: rest =>
    if asksHelp arg then .help none
    else match switch? config arg with
      | some config => planFrom config file? rest
      | none => if isOption arg then .help (some arg) else planFrom config (some arg) rest

/-- The request of arguments. -/
def plan (args : List String) : Request := planFrom {} none args

/-! ## Output -/

/-- What the program prints, and its status. -/
structure Outcome where
  status : Nat := 0
  stdout : String := ""
  stderr : String := ""
  deriving DecidableEq, Repr

/-- A text whose lines after the first are moved right. -/
def indent (margin : String) (text : String) : String :=
  String.join (text.toList.map fun c => if c = '\n' then "\n" ++ margin else String.singleton c)

/-- The place of a cause among several, at the right of five columns. -/
def numberColumn (n : Nat) : String :=
  let digits := toString n
  String.ofList (List.replicate (5 - digits.length) ' ') ++ digits ++ ": "

/-- The causes of a failure, each on lines of its own and numbered if there are several. -/
def causeLines : List String → List String
  | [cause] => ["    " ++ indent "    " cause]
  | causes => causes.mapIdx fun n cause => numberColumn n ++ indent "       " cause

/-- The text for a failure: its outermost text, then the causes within. -/
def failureText (f : Failure) : String :=
  match f.chain with
  | [] => ""
  | [outermost] => "Error: " ++ outermost ++ "\n"
  | outermost :: causes =>
    "Error: " ++ outermost ++ "\n\nCaused by:\n" ++
      String.join ((causeLines causes).map (· ++ "\n"))

/-- Whether a terminal may take a character for a command: the bell, backspace, form feed, escape
and delete, and the control characters from U+0080 to U+009F. Other controls are harmless. -/
def isCommanding (c : Char) : Bool :=
  c ∈ ['\x07', '\x08', '\x0c', '\x1b', '\x7f'] || ('\u0080' ≤ c && c ≤ '\u009f')

/-- A character as a line of a log shows it: the two hexadecimal digits of one that a terminal may
obey, and any other as it is. -/
def logged (c : Char) : String :=
  if isCommanding c then
    let digits := String.ofList [(c.toNat / 16).digitChar, (c.toNat % 16).digitChar]
    if c ≤ '\x7f' then "\\x" ++ digits else "\\u\x7b" ++ digits ++ "\x7d"
  else String.singleton c

/-- The lines of a log. Only errors are shown. -/
def logText (log : MessageLog) : String :=
  String.join (log.errors.map fun text =>
    "ERROR transblast::diagnostics: " ++ String.join (text.toList.map logged) ++ "\n")

/-- The text for a broken contract. -/
def crashText : Crash → String
  | .missing miss => miss.message
  | .unequalWords lengths =>
    "words of " ++ toString lengths.left ++ " and " ++ toString lengths.right ++ " bits"
  | .missingOperand => "missing operand"
  | .missingBit => "missing bit"

/-- The outcome of a failure. -/
def failureOutcome (f : Failure) : Outcome := { status := 1, stderr := failureText f }

/-- The outcome of a run. -/
def outcome (result : Except Halt String) (log : MessageLog) : Outcome :=
  match result with
  | .ok text => { stdout := text, stderr := logText log }
  | .error (.failed f) =>
    { status := 1, stderr := logText log ++ failureText (f.within .processing) }
  | .error (.exited status) => { status := status, stderr := logText log }
  | .error (.crashed c) => { status := 101, stderr := logText log ++ crashText c ++ "\n" }

/-- Runs a script whose refused expressions end the program. -/
def execute (solver : Solver) (config : Config) (text : String) : Outcome :=
  let (result, log) := (runScript text config .exit solver).run.run {}
  outcome result log

/-- The outcome of a request. The text of the script is missing where its file is. -/
def answer (solver : Solver) (request : Request) (script? : Option String) : Outcome :=
  match request with
  | .help none => { stdout := helpText }
  | .help (some arg) => { stdout := helpText, stderr := "Unknown option: " ++ arg ++ "\n" }
  | .refused f => failureOutcome f
  | .run config _ =>
    match script? with
    | some text => execute solver config text
    | none => failureOutcome ⟨[.readingFile], .missingFile⟩

end Command

end BitUnroll
