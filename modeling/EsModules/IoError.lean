/-!
# Failed file operations

The causes for which reading or locating a file fails, with their texts.
-/

namespace EsModules

/-- Why a file operation fails. -/
inductive IoError
  | notFound
  | notDirectory
  | isDirectory
  | nameTooLong
  | tooManyLinks
  | nulInPath
  | invalidUtf8
  | emptyPath
  deriving DecidableEq, Repr

/-- The text of an error. -/
def IoError.message : IoError → String
  | .notFound => "No such file or directory (os error 2)"
  | .notDirectory => "Not a directory (os error 20)"
  | .isDirectory => "Is a directory (os error 21)"
  | .nameTooLong => "File name too long (os error 36)"
  | .tooManyLinks => "Too many levels of symbolic links (os error 40)"
  | .nulInPath => "file name contained an unexpected NUL byte"
  | .invalidUtf8 => "stream did not contain valid UTF-8"
  | .emptyPath => "cannot make an empty path absolute"

end EsModules
