import BigStep.Goal

/-!
# Command line

The arguments are flags, one option with a number, and exactly one input.

| option | meaning |
|---|---|
| `-f`, `--file` | the input names a file that holds the goal |
| `-v`, `--value-only` | print the value in place of the derivation |
| `-s`, `--stats` | report the number of rule applications |
| `-d N`, `--max-depth N` | the limit on nested rule applications |
| `-h`, `--help` and `-V`, `--version` | print a text and stop |

Short options may be joined (`-vs`), the number may stand in the same argument (`-d4`, `-d=4`,
`--max-depth=4`), options may follow the input, and behind `--` everything is input. Each option is
given once.

* `CommandLine.parse`: the arguments as `Options`, or why the program stops without an answer.
* `CommandLine.respond`: exit code and texts for a list of arguments.
-/

namespace BigStep.CommandLine

/-- Why the arguments are refused. -/
inductive UsageError
  | unknownOption (arg : String)
  | repeatedOption (name : String)
  | unwantedValue (name : String)
  | missingValue (name : String)
  | invalidNumber (text : String)
  | missingInput
  | extraInput (arg : String)
  deriving DecidableEq, Repr

/-- The text of a usage error. -/
def UsageError.message : UsageError → String
  | unknownOption arg => "error: unknown option '" ++ arg ++ "'"
  | repeatedOption name => "error: option '" ++ name ++ "' is given more than once"
  | unwantedValue name => "error: option '" ++ name ++ "' takes no value"
  | missingValue name => "error: option '" ++ name ++ "' needs a value"
  | invalidNumber text => "error: '" ++ text ++ "' is not a number in range"
  | missingInput => "error: there is no input"
  | extraInput arg => "error: unexpected argument '" ++ arg ++ "'"

/-- Why the arguments do not lead to an evaluation. -/
inductive Stop
  | help
  | version
  | usage (error : UsageError)
  deriving DecidableEq, Repr

/-- What the arguments have said so far. -/
structure Options where
  file : Bool := false
  valueOnly : Bool := false
  stats : Bool := false
  limit? : Option Nat := none
  input? : Option String := none
  deriving DecidableEq, Repr

/-- The greatest limit that can be given, `2^64 - 1`. -/
def greatestLimit : Nat := 18446744073709551615

/-- A limit: decimal digits, perhaps with a `+` in front. -/
def limitOfText? (cs : List Char) : Option Nat :=
  let digits :=
    match cs with
    | '+' :: digits => digits
    | digits => digits
  (Text.Decimal.digits? digits).filter (· ≤ greatestLimit)

namespace Options

/-- Sets `file`. -/
def setFile (o : Options) : Except Stop Options :=
  if o.file then .error (.usage (.repeatedOption "--file")) else .ok { o with file := true }

/-- Sets `valueOnly`. -/
def setValueOnly (o : Options) : Except Stop Options :=
  if o.valueOnly then .error (.usage (.repeatedOption "--value-only"))
  else .ok { o with valueOnly := true }

/-- Sets `stats`. -/
def setStats (o : Options) : Except Stop Options :=
  if o.stats then .error (.usage (.repeatedOption "--stats")) else .ok { o with stats := true }

/-- Sets the limit from a text. -/
def setLimit (o : Options) (text : List Char) : Except Stop Options :=
  match o.limit?, limitOfText? text with
  | some _, _ => .error (.usage (.repeatedOption "--max-depth"))
  | none, some n => .ok { o with limit? := some n }
  | none, none => .error (.usage (.invalidNumber (String.ofList text)))

/-- Sets the input. -/
def setInput (o : Options) (input : String) : Except Stop Options :=
  match o.input? with
  | some _ => .error (.usage (.extraInput input))
  | none => .ok { o with input? := some input }

end Options

/-- Reads the letters of an argument with one dash. The truth value says that the number of
`-d` is still to come. -/
def shortOptions (o : Options) : List Char → Except Stop (Options × Bool)
  | [] => .ok (o, false)
  | 'f' :: letters => do shortOptions (← o.setFile) letters
  | 'v' :: letters => do shortOptions (← o.setValueOnly) letters
  | 's' :: letters => do shortOptions (← o.setStats) letters
  | 'h' :: _ => .error .help
  | 'V' :: _ => .error .version
  | ['d'] => .ok (o, true)
  | 'd' :: '=' :: number => do return (← o.setLimit number, false)
  | 'd' :: number => do return (← o.setLimit number, false)
  | letter :: _ => .error (.usage (.unknownOption ("-" ++ letter.toString)))

/-- Reads an argument with two dashes, cut at its first `=`. The truth value says that the number
of `--max-depth` is still to come. -/
def longOption (o : Options) (name : String) (value? : Option (List Char)) :
    Except Stop (Options × Bool) :=
  match name, value? with
  | "max-depth", some number => do return (← o.setLimit number, false)
  | "max-depth", none => .ok (o, true)
  | "file", none => do return (← o.setFile, false)
  | "value-only", none => do return (← o.setValueOnly, false)
  | "stats", none => do return (← o.setStats, false)
  | "help", none => .error .help
  | "version", none => .error .version
  | name, value? =>
    if value?.isSome ∧ name ∈ ["file", "value-only", "stats", "help", "version"] then
      .error (.usage (.unwantedValue ("--" ++ name)))
    else .error (.usage (.unknownOption ("--" ++ name)))

/-- Reads an argument of the form `--name` or `--name=value`, without its dashes. -/
def longArgument (o : Options) (cs : List Char) : Except Stop (Options × Bool) :=
  match Text.cut? '=' cs with
  | some (name, value) => longOption o (String.ofList name) (some value)
  | none => longOption o (String.ofList cs) none

/-- Reads the arguments from the left. `awaiting` says that the last option still waits for its
number; an argument that begins with a dash, other than a lone dash, is never one. -/
def parseFrom (o : Options) (awaiting : Bool) : List String → Except Stop Options
  | [] => if awaiting then .error (.usage (.missingValue "--max-depth")) else .ok o
  | arg :: args =>
    match arg.toList, awaiting with
    | '-' :: _ :: _, true => .error (.usage (.missingValue "--max-depth"))
    | text, true => do parseFrom (← o.setLimit text) false args
    | ['-', '-'], false => args.foldlM Options.setInput o
    | '-' :: '-' :: name, false => do
      let (o, awaiting) ← longArgument o name
      parseFrom o awaiting args
    | '-' :: letter :: letters, false => do
      let (o, awaiting) ← shortOptions o (letter :: letters)
      parseFrom o awaiting args
    | _, false => do parseFrom (← o.setInput arg) false args

/-- Reads the arguments: the options and the input. -/
def parse (args : List String) : Except Stop (Options × String) := do
  let o ← parseFrom {} false args
  match o.input? with
  | some input => return (o, input)
  | none => throw (.usage .missingInput)

/-- Why a file cannot be read as a text. -/
inductive ReadError
  | missing
  | directory
  | encoding
  | other (reason : String)
  deriving DecidableEq, Repr

/-- The text of a reading error. -/
def ReadError.message : ReadError → String
  | missing => "No such file or directory (os error 2)"
  | directory => "Is a directory (os error 21)"
  | encoding => "stream did not contain valid UTF-8"
  | other reason => reason

/-- The text that bytes encode in UTF-8. -/
def textOfBytes (bytes : ByteArray) : Except ReadError String :=
  match String.fromUTF8? bytes with
  | some text => .ok text
  | none => .error .encoding

/-- What the program does in the end: its exit code and what it writes. -/
structure Response where
  code : Nat
  stdout : String
  stderr : String
  deriving DecidableEq, Repr

/-- The name and the version of the program. -/
def versionText : String := "evalml 0.1.0\n"

/-- How the program is called. -/
def helpText : String :=
  "Builds big-step evaluation derivations for a small ML-like language\n\n" ++
  "Usage: evalml [OPTIONS] <CONTENTS>\n\nOptions:\n" ++
  "  -f, --file             Read the goal from the file CONTENTS\n" ++
  "  -v, --value-only       Print only the value\n" ++
  "  -s, --stats            Print the number of rule applications\n" ++
  "  -d, --max-depth <N>    Limit on nested rule applications [default: 128]\n" ++
  "  -h, --help             Print help\n" ++
  "  -V, --version          Print version\n"

/-- The response if the program stops without an answer. -/
def Stop.response : Stop → Response
  | help => ⟨0, helpText, ""⟩
  | version => ⟨0, versionText, ""⟩
  | usage error => ⟨2, "", error.message ++ "\n"⟩

/-- The response to a text that states a goal. -/
def answer (o : Options) (source : String) : Response :=
  match Goal.derive (o.limit?.getD Evaluation.defaultLimit) (.ofSource source) with
  | .ok evaluation =>
    ⟨0, if o.valueOnly then evaluation.value.text ++ "\n" else evaluation.derivation.text,
      if o.stats then evaluation.steps.repr ++ " rule applications\n" else ""⟩
  | .error e => ⟨1, "", e.message ++ "\n"⟩

/-- The response to options and an input, where `contents` is what the file of that name holds. -/
def execute (o : Options) (input : String) (contents : Except ReadError String) : Response :=
  if o.file then
    match contents with
    | .ok source => answer o source
    | .error e =>
      ⟨1, "", "Failed to read the input file '" ++ input ++ "': " ++ e.message ++ "\n"⟩
  else answer o input

/-- The response to a list of arguments, where `read` gives the text of a file. -/
def respond (read : String → Except ReadError String) (args : List String) : Response :=
  match parse args with
  | .ok (o, input) => execute o input (read input)
  | .error stop => stop.response

end BigStep.CommandLine
