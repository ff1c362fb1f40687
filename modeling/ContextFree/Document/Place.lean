import ContextFree.Text.Basic

/-!
# Places in files

Errors in grammar documents are reported with the place where they arose: a file, and a line of
it or the file as a whole.

File names are shown as they were given.  Two names count as the same if they have the same
components, so doubled slashes, a slash at the end and a dot that is not at the start make no
difference.
-/

namespace ContextFree

/-- The name of a file, as it was given. -/
structure FileName where
  text : Text

namespace FileName

instance : ToString FileName := ⟨fun f => String.ofList f.text⟩

/-- The parts of a name between its slashes that matter.  A slash at the start is a part of its
own, and so is a dot at the start; other dots and empty parts are left out. -/
def components (f : FileName) : List Text :=
  match f.text.splitOn '/' with
  | [] => []
  | first :: rest =>
    (if first ≠ [] then [first] else if rest ≠ [] then [['/']] else []) ++
      rest.filter fun part => part ≠ [] && part ≠ ['.']

instance : BEq FileName := ⟨fun f g => f.components == g.components⟩

end FileName

/-- A file, and a line of it counted from one; line zero stands for the whole file. -/
structure Place where
  file : FileName
  line : Nat := 0
deriving BEq

/-- A place is shown as the file, with the line after a colon unless it is the whole file. -/
def Place.render (p : Place) : String :=
  if p.line = 0 then toString p.file else toString p.file ++ ":" ++ toString p.line

instance : ToString Place := ⟨Place.render⟩

/-- Something that went wrong, and where. -/
structure Located (κ : Type) where
  cause : κ
  place : Place
deriving BEq

/-- A located error is shown on one line: the place in red brackets, then the message, with the
terminal set back at the end. -/
def Located.render {κ : Type} [ToString κ] (e : Located κ) : String :=
  "\x1b[31;49;1m[" ++ toString e.place ++ "]\x1b[39;49;1m  " ++ toString e.cause ++ "\x1b[0m"

instance {κ : Type} [ToString κ] : ToString (Located κ) := ⟨Located.render⟩

end ContextFree
