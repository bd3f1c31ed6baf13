import PackedMovie.Command.Run
import PackedMovie.Zlib.Codec

/-!
# The program

The outer layer: files and streams of the system it runs on, and its exit codes.
-/
namespace PackedMovie.Main

open PackedMovie.Command

def systemError : IO.Error → SystemError
  | .noFileOrDirectory .. => .noSuchEntry
  | .inappropriateType _ code _ => if code = 20 then .notDirectory else .isDirectory
  | e => .other (toString e)

def attempt {α : Type} (action : IO α) : IO (Except SystemError α) := do
  try
    let a ← action
    pure (.ok a)
  catch e => pure (.error (systemError e))

def bytesOf (content : ByteArray) : Bytes := content.toList

def packed (bytes : Bytes) : ByteArray := ByteArray.mk bytes.toArray

/-- A path and the ones above it. -/
def pathsUp (path : String) : List String :=
  let names := path.splitOn "/"
  (List.range names.length).reverse.map fun depth => "/".intercalate (names.take (depth + 1))

instance : Host IO where
  hasEntry path := do
    match ← attempt (IO.FS.realPath path) with
    | .ok _ => pure true
    | .error _ => pure false
  readFile path := attempt (bytesOf <$> IO.FS.readBinFile path)
  writeFile path content := attempt (IO.FS.writeBinFile path (packed content))
  readStandardInput := attempt do bytesOf <$> (← IO.getStdin).readBinToEnd
  writeStandardOutput bytes := do
    let output ← IO.getStdout
    output.write (packed bytes)
    output.flush
  searchPath := do pure (pathsUp (← IO.currentDir).toString)

end PackedMovie.Main

open PackedMovie.Command in
def main (arguments : List String) : IO UInt32 := do
  match Request.ofArguments? arguments with
  | none =>
    (← IO.getStderr).putStr Request.usageText
    pure 2
  | some .version =>
    (← IO.getStdout).putStr Request.versionText
    pure 0
  | some .help =>
    (← IO.getStdout).putStr Request.helpText
    pure 0
  | some (.run job) =>
    match ← (run job : IO (Except Failure Unit)) with
    | .ok () => pure 0
    | .error e =>
      (← IO.getStderr).putStrLn e.message
      pure 2
