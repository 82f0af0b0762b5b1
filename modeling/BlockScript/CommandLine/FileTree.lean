/-!
Bytes as text and lines, and reading a file by its path from a tree of files and directories.
-/
namespace BlockScript.CommandLine

/-- The text with a UTF-8 encoding, if the bytes are one. -/
def decode? (bytes : List UInt8) : Option String := String.fromUTF8? ⟨bytes.toArray⟩

/-- The lines of an input, each through its newline byte; only the last may be without one. -/
def lines : List UInt8 → List (List UInt8)
  | [] => []
  | byte :: rest =>
    if byte = 10 then [byte] :: lines rest
    else
      match lines rest with
      | [] => [[byte]]
      | line :: others => (byte :: line) :: others

/-- Why the system does not give or take data. -/
inductive SystemError where
  | notFound
  | notDirectory
  | isDirectory
  | noSpace
  | nameTooLong
  | notText
deriving DecidableEq, Repr

def SystemError.text : SystemError → String
  | notFound => "No such file or directory (os error 2)"
  | notDirectory => "Not a directory (os error 20)"
  | isDirectory => "Is a directory (os error 21)"
  | noSpace => "No space left on device (os error 28)"
  | nameTooLong => "File name too long (os error 36)"
  | notText => "stream did not contain valid UTF-8"

/-- A file with its bytes, or a directory. -/
inductive Node where
  | file (bytes : List UInt8)
  | directory
deriving DecidableEq

/-- The nodes below the working directory, by the names on the way to them. -/
abbrev FileTree := List (List String × Node)

namespace FileTree

/-- The node at a place; a place on the way to another one is a directory. -/
def find? (tree : FileTree) (place : List String) : Option Node :=
  match tree.lookup place with
  | some node => some node
  | none =>
    if place = [] ∨ tree.any (fun entry => place.isPrefixOf entry.1) then some .directory else none

/-- A path is shorter than this many bytes. -/
def pathLimit : Nat := 4096

/-- A name on a path has at most this many bytes. -/
def nameLimit : Nat := 255

/-- Follows names from a node. The place is `none` outside of the tree, where nothing is known. -/
def follow (tree : FileTree) : List String → Option (List String) → Node → Except SystemError Node
  | [], _, node => .ok node
  | _ :: _, _, .file _ => .error .notDirectory
  | name :: rest, place, .directory =>
    if name = "" ∨ name = "." then follow tree rest place .directory
    else if name = ".." then
      follow tree rest (place.bind fun p => if p = [] then none else some p.dropLast) .directory
    else if nameLimit < name.utf8ByteSize then .error .nameTooLong
    else
      match place.bind fun p => (tree.find? (p ++ [name])).map fun node => (p ++ [name], node) with
      | some (next, node) => follow tree rest (some next) node
      | none => .error .notFound

/-- The text of the file at a path. A path that starts with a slash starts outside of the tree.
The length of the path is looked at before any name on it. -/
def read (tree : FileTree) (path : String) : Except SystemError String := do
  if path = "" then throw .notFound
  if pathLimit ≤ path.utf8ByteSize then throw .nameTooLong
  let start := if path.front = '/' then none else some []
  match ← follow tree (path.splitOn "/") start .directory with
  | .directory => throw .isDirectory
  | .file bytes =>
    match decode? bytes with
    | some text => return text
    | none => throw .notText

end FileTree
end BlockScript.CommandLine
