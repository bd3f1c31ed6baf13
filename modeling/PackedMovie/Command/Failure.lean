import PackedMovie.Resource.Error
import PackedMovie.Swf.Error

/-!
# Why a run fails
-/
namespace PackedMovie.Command

inductive Failure where
  | settingsUnreadable (cause : SystemError)
  | settingsMalformed
  | inputUnreadable (input : String) (cause : Swf.Error)
  | invalidMovie (cause : Swf.Error)
  | unresolved (cause : Resource.Error)
  /-- No names were found. -/
  | nothingPacked
  | outputRefused (output : String) (cause : SystemError)
  | missingBinary (name : String)
  deriving DecidableEq, Repr

/-- A message and behind it that of what was passed on, although the first quotes the second. -/
def chain (message : String) : Option String → String
  | some source => message ++ ": " ++ source
  | none => message

def Failure.message : Failure → String
  | .settingsUnreadable cause => cause.message
  | .settingsMalformed => "Failed to parse"
  | .inputUnreadable input cause => s!"Failed to read {input}: " ++ chain cause.message cause.source?
  | .invalidMovie cause => "Invalid SWF: " ++ chain cause.message cause.source?
  | .unresolved cause => chain cause.message cause.source?
  | .nothingPacked => "Unable to resolve binaries order. Is it already unpacked?"
  | .outputRefused output cause => s!"Failed to create {output}: {cause.message}"
  | .missingBinary name => s!"Unable to find binary with name: {name}"

end PackedMovie.Command
