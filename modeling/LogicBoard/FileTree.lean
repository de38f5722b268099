import LogicBoard.BoardError
import LogicBoard.Text.Blank

namespace LogicBoard

inductive FileContent
  | directory
  | bytes (content : ByteArray)

/-- The files below a working directory, each under the names that lead to it. Whatever lies on the way to a file
is a directory. -/
structure FileTree where
  files : List (List String × FileContent)

namespace FileTree

inductive Place
  /-- A directory of the tree. -/
  | inside (names : List String)
  /-- A directory above the tree, of which nothing else is known. -/
  | above
  | file (content : ByteArray)

/-- The names in a path. A slash at its end asks for a directory, as one more name for the place itself does. -/
def names (path : String) : List String :=
  let parts := (Text.tokensBy (· = '/') path.toList).map String.ofList
  if path.toList.getLast? = some '/' then parts ++ ["."] else parts

/-- The longest name, in bytes. -/
def nameLimit : Nat := 255

/-- The first length of a path that is too long, in bytes. -/
def pathLimit : Nat := 4096

def entry? (tree : FileTree) (names : List String) : Option FileContent :=
  match tree.files.find? fun file => file.1 = names with
  | some file => some file.2
  | none => if tree.files.any fun file => names.isPrefixOf file.1 then some .directory else none

def walk (tree : FileTree) (place : Place) (name : String) : Except ReadFailure Place :=
  match place with
  | .file _ => .error .notDirectory
  | .inside names =>
    if name = "." then .ok place
    else if name = ".." then .ok (if names = [] then .above else .inside names.dropLast)
    else if nameLimit < name.utf8ByteSize then .error .nameTooLong
    else
      match tree.entry? (names ++ [name]) with
      | none => .error .notFound
      | some .directory => .ok (.inside (names ++ [name]))
      | some (.bytes content) => .ok (.file content)
  | .above =>
    if name = "." ∨ name = ".." then .ok .above
    else if nameLimit < name.utf8ByteSize then .error .nameTooLong
    else .error .notFound

def walkAll (tree : FileTree) : Place → List String → Except ReadFailure Place
  | place, [] => .ok place
  | place, name :: names => do walkAll tree (← tree.walk place name) names

def read (tree : FileTree) (path : String) : Except ReadFailure String := do
  if path.toList.contains '\x00' then .error .nulInPath
  else if path.isEmpty then .error .notFound
  else if pathLimit ≤ path.utf8ByteSize then .error .nameTooLong
  else
    match ← tree.walkAll (if path.toList.head? = some '/' then .above else .inside []) (names path) with
    | .inside _ => .error .isDirectory
    | .above => .error .isDirectory
    | .file content =>
      match String.fromUTF8? content with
      | some text => .ok text
      | none => .error .notUtf8

end FileTree

end LogicBoard
