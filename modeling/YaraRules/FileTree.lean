import YaraRules.Signature
import YaraRules.Text.Utf8

/-! The files that a source can include. Paths are resolved from a working
directory that holds the files; nothing else can be read. -/

namespace YaraRules

/-- Pieces of a path between its slashes. -/
def pathPieces (path : String) : List String :=
  (Signature.pieces '/' path.toList).map String.ofList

/-- Names of directories and of the file that a path leads through. -/
def pathNames (path : String) : List String :=
  (pathPieces path).filter fun piece => piece != "" && piece != "."

/-- Every file below the working directory, by the names that lead to it. -/
structure FileTree where
  files : List (List String × Bytes) := []
deriving Inhabited

namespace FileTree

/-- Why a path cannot be read. -/
inductive Fault where
  | missing
  | notDirectory
  | directory
  | nameTooLong
  /-- The path holds a NUL character. -/
  | nul
deriving DecidableEq, Inhabited

def Fault.message : Fault → String
  | missing => "No such file or directory (os error 2)"
  | notDirectory => "Not a directory (os error 20)"
  | directory => "Is a directory (os error 21)"
  | nameTooLong => "File name too long (os error 36)"
  | nul => "file name contained an unexpected NUL byte"

/-- What a path leads to. -/
inductive Place where
  /-- A file or directory below the working directory, by the names that lead to it. -/
  | inside (names : List String)
  /-- A directory outside of the working directory, of which nothing more is known. -/
  | outside
deriving DecidableEq, Inhabited

def ofPaths (files : List (String × Bytes)) : FileTree :=
  ⟨files.map fun (path, content) => (pathNames path, content)⟩

def file? (tree : FileTree) (names : List String) : Option Bytes := tree.files.lookup names

/-- True if the names lead to a directory that holds a file at any depth. -/
def isDirectory (tree : FileTree) (names : List String) : Bool :=
  names.isEmpty || tree.files.any fun (other, _) =>
    names.isPrefixOf other && names.length < other.length

/-- The longest name that a file or directory can have, in bytes. -/
def maxNameLength : Nat := 255

/-- The longest path by which a file can be read, in bytes. -/
def maxPathLength : Nat := 4095

/-- The place that one more piece of a path leads to. -/
def enter (tree : FileTree) (place : Place) (piece : String) : Except Fault Place :=
  match place with
  | .outside =>
    if piece == "" || piece == "." || piece == ".." then .ok .outside
    else if maxNameLength < piece.utf8ByteSize then .error .nameTooLong
    else .error .missing
  | .inside names =>
    if (tree.file? names).isSome then .error .notDirectory
    else if piece == "" || piece == "." then .ok place
    else if piece == ".." then
      .ok (if names.isEmpty then .outside else .inside names.dropLast)
    else if maxNameLength < piece.utf8ByteSize then .error .nameTooLong
    else
      let names := names ++ [piece]
      if (tree.file? names).isSome || tree.isDirectory names then .ok (.inside names)
      else .error .missing

/-- The one name of what a path leads to, whatever detours the path takes. -/
def locate (tree : FileTree) (path : String) : Except Fault Place :=
  if path.toList.contains '\x00' then .error .nul
  else if path == "" then .error .missing
  else
    let start := if path.toList.head? == some '/' then Place.outside else .inside []
    (pathPieces path).foldlM tree.enter start

/-- Content of the file at a place. -/
def contentAt (tree : FileTree) : Place → Except Fault Bytes
  | .inside names =>
    match tree.file? names with
    | some content => .ok content
    | none => .error .directory
  | .outside => .error .directory

/-- Content of the file at a path. A path can be located at any length, since its detours
do not count, but a file is read only by a path of limited length. -/
def read (tree : FileTree) (path : String) : Except Fault Bytes :=
  if path.toList.contains '\x00' then .error .nul
  else if maxPathLength < path.utf8ByteSize then .error .nameTooLong
  else do tree.contentAt (← tree.locate path)

end FileTree

def dropIdle (pieces : List String) : List String :=
  (pieces.reverse.dropWhile fun piece => piece == "" || piece == ".").reverse

/-- Directory of the file at a path, empty if the path is a bare name. Pieces that
lead nowhere are dropped at the end only, and never the first one. -/
def pathParent (path : String) : String :=
  match (pathPieces path).dropLast with
  | [] => ""
  | first :: rest =>
    let directory := "/".intercalate (first :: dropIdle rest)
    if directory == "" then "/" else directory

/-- A path that is meant from a directory on. -/
def pathJoin (directory path : String) : String :=
  if path.toList.head? == some '/' || directory == "" then path
  else if directory.toList.getLast? == some '/' then directory ++ path
  else directory ++ "/" ++ path

end YaraRules
