/-!
# Faults of the operating system

What the operating system answers when it refuses to read, change or execute something.
-/

namespace GradleBuild

inductive Fault where
  | noEntry
  | badFormat
  | denied
  | busy
  | alreadyExists
  | notDirectory
  | isDirectory
  | badArgument
  | nameTooLong
  | notEmpty
  | tooManyLinks
  /-- An argument of a command holds a NUL byte. -/
  | nulByte
  /-- A path holds a NUL byte. -/
  | nulInPath
  /-- A file to be copied is a directory behind a link. -/
  | notRegular
  | other (text : String)
  deriving DecidableEq, Repr, Inhabited

/-- The text of a fault. -/
def Fault.text : Fault → String
  | noEntry => "No such file or directory (os error 2)"
  | badFormat => "Exec format error (os error 8)"
  | denied => "Permission denied (os error 13)"
  | busy => "Device or resource busy (os error 16)"
  | alreadyExists => "File exists (os error 17)"
  | notDirectory => "Not a directory (os error 20)"
  | isDirectory => "Is a directory (os error 21)"
  | badArgument => "Invalid argument (os error 22)"
  | nameTooLong => "File name too long (os error 36)"
  | notEmpty => "Directory not empty (os error 39)"
  | tooManyLinks => "Too many levels of symbolic links (os error 40)"
  | nulByte => "nul byte found in provided data"
  | nulInPath => "file name contained an unexpected NUL byte"
  | notRegular => "the source path is neither a regular file nor a symlink to a regular file"
  | other text => text

end GradleBuild
