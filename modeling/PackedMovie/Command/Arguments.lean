import PackedMovie.Command.Preferences

/-!
# Arguments

Options stand among the arguments in any order and at most once, `--verbose` apart; behind `--` there are
none. The value of an option may be attached to it or follow it.
-/
namespace PackedMovie.Command

/-- What a run makes. -/
inductive Product where
  /-- The names, one a line or as JSON. -/
  | order (asJson : Bool)
  /-- The resources, one after the other, in a file or on standard output. -/
  | resources (output : String)
  deriving DecidableEq, Repr

structure Job where
  preferences : Preferences
  /-- The settings file, if it is not searched for. -/
  settings? : Option String
  product : Product
  deriving DecidableEq, Repr

inductive Request where
  | run (job : Job)
  | version
  | help
  deriving DecidableEq, Repr

/-- The options that have a value. -/
inductive Parameter where
  | input
  | classIndex
  | target
  | settings
  deriving DecidableEq, Repr

inductive Flag where
  | strict
  | orderOnly
  | json
  /-- More words about the run; not part of what it makes. -/
  | verbose
  deriving DecidableEq, Repr

inductive Switch where
  | parameter (p : Parameter)
  | flag (f : Flag)
  | version
  | help
  deriving DecidableEq, Repr

def Switch.ofName? (name : String) : Option Switch :=
  [("input", .parameter .input), ("class", .parameter .classIndex), ("target", .parameter .target),
    ("config", .parameter .settings), ("strict", .flag .strict), ("order-only", .flag .orderOnly),
    ("json", .flag .json), ("verbose", .flag .verbose), ("version", .version), ("help", .help)].lookup name

def Switch.ofLetter? (letter : Char) : Option Switch :=
  [('i', .parameter .input), ('v', .flag .verbose), ('V', .version), ('h', .help)].lookup letter

/-- What the arguments so far have said. -/
structure Arguments where
  preferences : Preferences
  settings? : Option String
  orderOnly : Bool
  json : Bool
  output? : Option String
  deriving DecidableEq, Repr

/-- What an argument leads to: it is complete, it waits for its value, or the rest does not matter. -/
inductive Reading where
  | complete (a : Arguments)
  | waiting (a : Arguments) (p : Parameter)
  | decided (request : Request)
  deriving DecidableEq, Repr

namespace Arguments

def empty : Arguments where
  preferences := .empty
  settings? := none
  orderOnly := false
  json := false
  output? := none

/-- An index is written in decimal, with a plus sign or without, and has 64 bits. -/
def index? (text : String) : Option Nat :=
  let digits := match text.toList with
    | '+' :: rest => rest
    | cs => cs
  if digits.isEmpty || !digits.all Char.isDigit then none
  else (Numeral.value? 10 digits).filter (· < Nat.pow 2 64)

/-- A parameter has one value. The path of a settings file is not empty. -/
def assign (p : Parameter) (value : String) (a : Arguments) : Option Arguments :=
  match p with
  | .input =>
    if a.preferences.input?.isSome then none
    else some { a with preferences := { a.preferences with input? := value } }
  | .classIndex =>
    if a.preferences.classIndex?.isSome then none
    else (index? value).map fun n => { a with preferences := { a.preferences with classIndex? := n } }
  | .target =>
    if a.preferences.target?.isSome then none
    else some { a with preferences := { a.preferences with target? := value } }
  | .settings => if a.settings?.isSome || value.isEmpty then none else some { a with settings? := value }

def raise (f : Flag) (a : Arguments) : Option Arguments :=
  match f with
  | .strict =>
    if a.preferences.strict then none
    else some { a with preferences := { a.preferences with strict := true } }
  | .orderOnly => if a.orderOnly then none else some { a with orderOnly := true }
  | .json => if a.json then none else some { a with json := true }
  | .verbose => some a

/-- There is one argument that is no option. -/
def addOutput (a : Arguments) (output : String) : Option Arguments :=
  if a.output?.isSome then none else some { a with output? := output }

/-- The order is made if it is asked for, even when an output is named. Only the order can be JSON. -/
def product? (a : Arguments) : Option Product :=
  if a.orderOnly then some (.order a.json)
  else if a.json then none
  else a.output?.map .resources

def request? (a : Arguments) : Option Request :=
  a.product?.map fun product =>
    .run { preferences := a.preferences, settings? := a.settings?, product }

/-- An option by its name; its value stands behind an equals sign. -/
def readLong (text : List Char) (a : Arguments) : Option Reading :=
  let name := String.ofList (text.takeWhile (· ≠ '='))
  match Switch.ofName? name, text.dropWhile (· ≠ '=') with
  | some (.parameter p), [] => some (.waiting a p)
  | some (.parameter p), _ :: value => (a.assign p (String.ofList value)).map .complete
  | some (.flag f), [] => (a.raise f).map .complete
  | some .version, [] => some (.decided .version)
  | some .help, [] => some (.decided .help)
  | _, _ => none

/-- Options by their letters. What follows the letter of a parameter is its value; an equals sign in front of
the value does not belong to it. -/
def readShort : List Char → Arguments → Option Reading
  | [], a => some (.complete a)
  | letter :: rest, a =>
    match Switch.ofLetter? letter with
    | some (.parameter p) =>
      match rest with
      | [] => some (.waiting a p)
      | '=' :: value => (a.assign p (String.ofList value)).map .complete
      | value => (a.assign p (String.ofList value)).map .complete
    | some (.flag f) => a.raise f >>= readShort rest
    | some .version => some (.decided .version)
    | some .help => some (.decided .help)
    | none => none

/-- A lone hyphen is no option. -/
def readOne (argument : String) (a : Arguments) : Option Reading :=
  match argument.toList with
  | '-' :: '-' :: text => a.readLong text
  | '-' :: letter :: letters => readShort (letter :: letters) a
  | _ => (a.addOutput argument).map .complete

def looksLikeOption (argument : String) : Bool := argument.startsWith "-" && argument ≠ "-"

/-- A parameter's value that stands in an argument of its own must not look like an option. -/
def readAll (a : Arguments) : List String → Option Request
  | [] => a.request?
  | "--" :: rest => rest.foldlM addOutput a >>= request?
  | argument :: rest =>
    match a.readOne argument, rest with
    | some (.complete b), rest => readAll b rest
    | some (.waiting b p), value :: rest =>
      if looksLikeOption value then none
      else
        match b.assign p value with
        | some b => readAll b rest
        | none => none
    | some (.waiting _ _), [] => none
    | some (.decided request), _ => some request
    | none, _ => none

end Arguments

namespace Request

/-- What the arguments ask for, if they make sense. -/
def ofArguments? (arguments : List String) : Option Request := Arguments.empty.readAll arguments

def versionText : String := "unpacker 0.3.0\n"

def usageText : String := "Usage: unpacker [OPTIONS] [OUTPUT]\n"

def helpText : String :=
  "Rebuild the resource stream of a packed SWF movie\n\n" ++ usageText ++ "
Arguments:
  [OUTPUT]  The output file. `-` writes to standard output

Options:
  -v, --verbose...       Increase output verbosity. Verbose messages go to stderr
      --config <CONFIG>  Config file path
  -i, --input <INPUT>    The file url to unpack. Can be a file from the filesystem or an url to download. `-` reads standard input
      --class <INDEX>    Index of the packed class in frame1
      --target <TARGET>  Call literal preceding each resource name
      --strict           Fail on a missing keymap or an unmapped accessor call
      --order-only       Print the resolved order instead of writing the binaries
      --json             Print the order as a JSON array
  -h, --help             Print help
  -V, --version          Print version
"

end Request

end PackedMovie.Command
