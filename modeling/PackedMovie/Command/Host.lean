import PackedMovie.Bytes.LittleEndian
import PackedMovie.Storage.SystemError

/-!
# Hosts

What a run needs from the system it runs on.
-/
namespace PackedMovie.Command

class Host (m : Type → Type) where
  /-- Is there a file or directory with this path? -/
  hasEntry : String → m Bool
  readFile : String → m (Except SystemError Bytes)
  /-- Puts bytes into a file, in place of what it held. -/
  writeFile : String → Bytes → m (Except SystemError Unit)
  readStandardInput : m (Except SystemError Bytes)
  writeStandardOutput : Bytes → m Unit
  /-- The working directory and the directories above it, nearest first. -/
  searchPath : m (List String)

end PackedMovie.Command
