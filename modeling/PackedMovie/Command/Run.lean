import PackedMovie.Command.Arguments
import PackedMovie.Command.Failure
import PackedMovie.Command.Host
import PackedMovie.Resource.Unpacking

/-!
# Runs

A run reads the settings, then the movie, resolves the order of its resources, and only then, if there are
any, touches its output.
-/
namespace PackedMovie.Command

open PackedMovie.Resource (Unpacker Order)
open PackedMovie.Swf (Codec)

variable {m : Type → Type} [Monad m] [Host m]

/-- The names under which settings are searched for, in each directory in this order. -/
def settingsNames : List String := ["unpacker.toml", ".unpackerrc.toml"]

def candidates (directories : List String) : List String :=
  directories.flatMap fun directory => settingsNames.map fun name => directory ++ "/" ++ name

/-- The first of some paths that there is. -/
def findEntry : List String → m (Option String)
  | [] => pure none
  | path :: rest => do
    if ← Host.hasEntry path then pure (some path) else findEntry rest

/-- The settings file of a run: the one that was named if it exists, or else the first one found. -/
def settingsFile (named : Option String) : m (Option String) :=
  match named with
  | some path => findEntry [path]
  | none => do findEntry (candidates (← Host.searchPath))

/-- The preferences that a settings file holds. -/
def preferencesOf (content : Bytes) : Except Failure Preferences :=
  match Utf8.decode content with
  | .error _ => .error (.settingsUnreadable .notText)
  | .ok text =>
    match Preferences.parse? text with
    | some preferences => .ok preferences
    | none => .error .settingsMalformed

/-- Without a settings file everything is left open. -/
def loadSettings (named : Option String) : m (Except Failure Preferences) := do
  match ← settingsFile named with
  | none => pure (.ok .empty)
  | some path =>
    match ← Host.readFile path with
    | .ok content => pure (preferencesOf content)
    | .error e => pure (.error (.settingsUnreadable e))

/-- The bytes of an input. Nothing is fetched from the web. -/
def fetch : Input → m (Except Swf.Error Bytes)
  | .standard => do pure ((← Host.readStandardInput).mapError .system)
  | .file path => do pure ((← Host.readFile path).mapError .system)
  | .address url => pure (.error (.download url))

def readInput (input : Input) : m (Except Failure Bytes) := do
  pure ((← fetch input).mapError (.inputUnreadable input.text))

/-- An unpacker that has resolved an order with at least one name. -/
def resolve [Codec] (options : Resource.Options) (file : Bytes) : Except Failure Unpacker := do
  let movie ← (Swf.Movie.read file).mapError .invalidMovie
  let unpacker ← (Unpacker.new movie).mapError .unresolved
  match (unpacker.withOptions options).resolveOrder with
  | (.error e, _) => .error (.unresolved e)
  | (.ok order, unpacker) => if order.isEmpty then .error .nothingPacked else .ok unpacker

/-- An order as it is printed. -/
def orderText (asJson : Bool) (order : Order) : String :=
  if asJson then order.toJson.pretty ++ "\n" else String.join (order.map (· ++ "\n"))

/-- Output with this name goes to standard output. -/
def standardOutputName : String := "-"

def writeOutput (output : String) (bytes : Bytes) : m (Except Failure Unit) := do
  if output = standardOutputName then
    Host.writeStandardOutput bytes
    pure (.ok ())
  else pure ((← Host.writeFile output bytes).mapError (.outputRefused output))

/-- Was there a payload for every name? -/
def verdict : Except Resource.Error (Option String) → Except Failure Unit
  | .ok none => .ok ()
  | .ok (some name) => .error (.missingBinary name)
  | .error e => .error (.unresolved e)

/-- What was written in front of a missing binary is kept. -/
def deliver (product : Product) (unpacker : Unpacker) : m (Except Failure Unit) :=
  match product with
  | .order asJson => do
    Host.writeStandardOutput (Utf8.encode (orderText asJson unpacker.resolution.order))
    pure (.ok ())
  | .resources output => do
    let (missing, sink) := unpacker.resolveBinaries.writeBinaries .unlimited
    match ← writeOutput output sink.written with
    | .ok () => pure (verdict missing)
    | .error e => pure (.error e)

def run [Codec] (job : Job) : m (Except Failure Unit) := ExceptT.run do
  let settings ← ExceptT.mk (loadSettings job.settings?)
  let preferences := job.preferences.orElse settings
  let file ← ExceptT.mk (readInput preferences.input)
  let unpacker ← ExceptT.mk (pure (resolve preferences.options file))
  ExceptT.mk (deliver job.product unpacker)

end PackedMovie.Command
