import LexLisp.Text.Basic

/-!
# Files

A program may be read from files.  `Files` is anything that answers a name
with the text of a file or the reason why there is none; `Files.ofDirectory`
answers for a single directory.

A name is a path, whose parts are followed one by one.  The directory holds
nothing but files, and of what is around it no more is known than that there
are directories all the way up.
-/

namespace LexLisp

namespace Command

/-- Why a file could not be read. -/
inductive FileError where
  | notFound
  | notDirectory
  | isDirectory
  | nameTooLong
  deriving DecidableEq, Repr

namespace FileError

/-- The failure in words. -/
def message (name : Text) : FileError → Text
  | notFound => ("open " : Text) ++ name ++ (": no such file or directory" : Text)
  | notDirectory => ("open " : Text) ++ name ++ (": not a directory" : Text)
  | isDirectory => ("read " : Text) ++ name ++ (": is a directory" : Text)
  | nameTooLong => ("open " : Text) ++ name ++ (": file name too long" : Text)

end FileError

/-- The files that a program may be read from. -/
abbrev Files := Text → Except FileError Text

namespace Files

/-- The most bytes in one part of a path. -/
def maxPartSize : Nat := 255

/-- The most bytes in a path. -/
def maxPathSize : Nat := 4095

/-- Where a path has led to: the directory that it started in, or one of those
around it. -/
inductive Place where
  | inside
  | outside
  deriving DecidableEq, Repr

/-- The parts of a path between its slashes. -/
def parts (path : Text) : List Text :=
  path.splitOnP fun r => r == .char '/'

/-- Where a path starts. -/
def start : Text → Place
  | .char '/' :: _ => .outside
  | _ => .inside

/-- Follow the parts of a path.  Steps upwards lead out of the directory and
never back into it, as nothing is known by name outside. -/
def follow (directory : List (Text × Text)) : Place → List Text → Except FileError Text
  | _, [] => .error .isDirectory
  | place, part :: rest =>
    if part = [] ∨ part = ("." : Text) then follow directory place rest
    else if part = (".." : Text) then follow directory .outside rest
    else if maxPartSize < part.toBytes.length then .error .nameTooLong
    else
      match place, directory.lookup part, rest with
      | .inside, some text, [] => .ok text
      | .inside, some _, _ :: _ => .error .notDirectory
      | _, _, _ => .error .notFound

/-- The files of a directory that holds nothing but these. -/
def ofDirectory (directory : List (Text × Text)) : Files := fun path =>
  if path.isEmpty then .error .notFound
  else if maxPathSize < path.toBytes.length then .error .nameTooLong
  else follow directory (start path) (parts path)

end Files

end Command

end LexLisp
