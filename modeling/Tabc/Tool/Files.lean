import Tabc.Text.Lines

/-!
# Files

The files that a tool finds in its folder, by their paths.
-/

namespace Tabc.Tool

inductive FileFault where
  | missing
  | isFolder
  | notFolder
deriving DecidableEq

abbrev Files := List (List String × String)

namespace Files

inductive Place where
  | file (text : String)
  | folder

def at? (fs : Files) (path : List String) : Option Place :=
  match fs.lookup path with
  | some text => some (.file text)
  | none => if path.isEmpty || fs.any fun (p, _) => path.isPrefixOf p then some .folder else none

/-- Follows the parts of a path from a folder on; the way to it is held in reverse. -/
def follow (fs : Files) (back : List String) : List String → Except FileFault Place
  | [] => match fs.at? back.reverse with
    | some place => .ok place
    | none => .error .missing
  | part :: rest =>
    match fs.at? back.reverse with
    | some (.file _) => .error .notFolder
    | none => .error .missing
    | some .folder =>
      if part == "" || part == "." then fs.follow back rest
      else if part == ".." then fs.follow back.tail rest
      else fs.follow (part :: back) rest

def read (fs : Files) (path : String) : Except FileFault String :=
  if path.isEmpty then .error .missing
  else match fs.follow [] ((Text.splitAt '/' path.toList).map String.ofList) with
    | .ok (.file text) => .ok (String.ofList (Text.unifyBreaks text.toList))
    | .ok .folder => .error .isFolder
    | .error f => .error f

end Files

end Tabc.Tool
