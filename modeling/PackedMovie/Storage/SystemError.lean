/-!
# What goes wrong when bytes are moved

The failures of files and streams, with the words and numbers the operating system gives them.
-/
namespace PackedMovie

inductive SystemError where
  | noSuchEntry
  | notDirectory
  | isDirectory
  | nameTooLong
  /-- No path can hold the character NUL. -/
  | nulInPath
  /-- A text file holds bytes that are no text. -/
  | notText
  /-- A stream broke off or refused more bytes. -/
  | streamBroken
  /-- Any other failure, in the system's own words. -/
  | other (text : String)
  deriving DecidableEq, Repr

def SystemError.message : SystemError → String
  | .noSuchEntry => "No such file or directory (os error 2)"
  | .notDirectory => "Not a directory (os error 20)"
  | .isDirectory => "Is a directory (os error 21)"
  | .nameTooLong => "File name too long (os error 36)"
  | .nulInPath => "file name contained an unexpected NUL byte"
  | .notText => "stream did not contain valid UTF-8"
  | .streamBroken => "broken stream"
  | .other text => text

end PackedMovie
