import ContextFree.Document.LoadError

/-!
# Folders

A folder holds the contents of files under their names.  A path is looked up part by part: a dot
stays in the folder, two dots leave it, and nothing can come after a file, not even a slash.  No
path has a NUL character in it, and this is found before anything is looked up.
-/

namespace ContextFree

/-- The contents of files, as bytes, under their names. -/
structure Folder where
  files : List (Text × List UInt8)

namespace Folder

/-- The greatest number of bytes in a part of a path. -/
def longestPart : Nat := 255

/-- The greatest number of bytes in a path. -/
def longestPath : Nat := 4095

/-- What the parts of a path lead to. -/
def follow (folder : Folder) : List Text → Except ReadFault (List UInt8)
  | [] => .error .noSuchFile
  | part :: rest =>
    if part = [] || part = ['.'] then folder.follow rest
    else if part = ['.', '.'] then follow ⟨[]⟩ rest
    else if part.utf8Length > longestPart then .error .longName
    else
      match folder.files.lookup part with
      | none => .error .noSuchFile
      | some content => if rest = [] then .ok content else .error .throughFile

/-- The content of the file with the given name.  Names that start with a slash lead out of the
folder. -/
def read (folder : Folder) (name : FileName) : Except ReadFault (List UInt8) :=
  if '\x00' ∈ name.text then .error .nulInName
  else if name.text.utf8Length > longestPath then .error .longName
  else if name.text.head? = some '/' then follow ⟨[]⟩ (name.text.splitOn '/')
  else folder.follow (name.text.splitOn '/')

end Folder

end ContextFree
