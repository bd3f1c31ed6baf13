import PackedMovie.Command.Host
import PackedMovie.Storage.FileTree
import PackedMovie.Zlib.Codec

/-!
# Sessions

A host that is a value: a file tree, a working directory in it, and what the standard streams hold. The codec
of a run at it is zlib.
-/
namespace PackedMovie.Command

structure Session where
  tree : FileTree
  working : Location
  standardInput : Bytes
  standardOutput : Bytes
  deriving DecidableEq, Repr

namespace Session

/-- A directory and those above it, as absolute paths. -/
def pathsUp (location : Location) : List String :=
  Location.upward location |>.map fun names => "/" ++ String.intercalate "/" names

instance : Host (StateM Session) where
  hasEntry path := do
    let s ← get
    pure (s.tree.hasEntry s.working path)
  readFile path := do
    let s ← get
    pure (s.tree.read s.working path)
  writeFile path content := do
    let s ← get
    match s.tree.write s.working path content with
    | .ok tree =>
      set { s with tree }
      pure (.ok ())
    | .error e => pure (.error e)
  readStandardInput := do pure (.ok (← get).standardInput)
  writeStandardOutput bytes := modify fun s => { s with standardOutput := s.standardOutput ++ bytes }
  searchPath := do pure (pathsUp (← get).working)

end Session
end PackedMovie.Command
