/-! # What a disk can refuse -/

namespace Typeahead

/-- Why a file cannot be read, written or listed. -/
inductive DiskError where
  /-- Nothing has this path. -/
  | notFound
  /-- A file stands where a folder is needed. -/
  | notFolder
  /-- A folder stands where a file is needed. -/
  | isFolder
  /-- A name or the whole path is too long. -/
  | nameTooLong
  /-- The path holds a null character. -/
  | nullCharacter
  /-- The file is no text. -/
  | notText
  /-- The path names no file. -/
  | noFileName
  deriving DecidableEq, Repr

/-- The sentence that reports the error. -/
def DiskError.message : DiskError → String
  | .notFound => "No such file or directory (os error 2)"
  | .notFolder => "Not a directory (os error 20)"
  | .isFolder => "Is a directory (os error 21)"
  | .nameTooLong => "File name too long (os error 36)"
  | .nullCharacter => "file name contained an unexpected NUL byte"
  | .notText => "stream did not contain valid UTF-8"
  | .noFileName => "Input path has no filename"

end Typeahead
