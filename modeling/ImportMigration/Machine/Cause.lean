import ImportMigration.Text.Basic

/-!
Why a machine refuses an operation on files, and how it says so.
-/

namespace ImportMigration

inductive Cause where
  | notFound
  | notPermitted
  | notADirectory
  | isADirectory
  | tooManyLinks
  | nameTooLong
  /-- A path with a null byte in it names nothing. -/
  | nulInPath
  /-- The bytes of a file that should be a text are none. -/
  | notText
  /-- Any other cause, in the machine's own words. -/
  | other (text : Text)
  deriving DecidableEq, Repr

def Cause.text : Cause → Text
  | notFound => "No such file or directory (os error 2)".toList
  | notPermitted => "Permission denied (os error 13)".toList
  | notADirectory => "Not a directory (os error 20)".toList
  | isADirectory => "Is a directory (os error 21)".toList
  | tooManyLinks => "Too many levels of symbolic links (os error 40)".toList
  | nameTooLong => "File name too long (os error 36)".toList
  | nulInPath => "file name contained an unexpected NUL byte".toList
  | notText => "stream did not contain valid UTF-8".toList
  | other text => text

end ImportMigration
