import Ckl.Store
import Ckl.Text.Lines

/-!
# Files

What stands at a path, and paths themselves. A path is followed step by step: every step but the last
one must lead to a directory, empty steps and single points stay where they are, and double points go
back. A module is searched in directories, in order; anything but a file there is passed over.
-/

namespace Ckl

/-- What stands at a path. -/
inductive Lookup where
  | file (content : ByteArray)
  | directory
  | missing
  /-- A step before the last one leads to a file. -/
  | blocked
  /-- The path has not been looked up yet. -/
  | unknown

/-- What stands at each path. -/
abbrev Files := String → Lookup

/-- The text of bytes. -/
def textOf (content : ByteArray) : Except ReadProblem String :=
  match String.fromUTF8? content with
  | some text => .ok text
  | none => .error .notText

/-- The lines of bytes. -/
def inputLines (content : ByteArray) : List InputLine :=
  (Text.linesOf 10 13 content.toList).map fun line => textOf ⟨line.toArray⟩

namespace Files

/-- Reads the text of a file, which may have to be looked up first. -/
def read? (files : Files) (path : String) : Option (Except ReadProblem String) :=
  match files path with
  | .file content => some (textOf content)
  | .directory => some (.error .isDirectory)
  | .missing => some (.error .notFound)
  | .blocked => some (.error .notDirectory)
  | .unknown => none

/-- A path inside a directory; an absolute path stands for itself. -/
def join (directory path : String) : String :=
  if directory.isEmpty || path.startsWith "/" then path
  else if directory.endsWith "/" then directory ++ path
  else directory ++ "/" ++ path

/-- The directory of a file. -/
def parent (path : String) : String :=
  let isSlash (c : Char) : Bool := c == '/'
  let reversed := path.toList.reverse.dropWhile isSlash
  let rest := reversed.dropWhile fun c => !isSlash c
  let directory := String.ofList (rest.dropWhile isSlash).reverse
  if !directory.isEmpty then directory else if rest.isEmpty then "." else "/"

/-- Finds the file of a module in directories. -/
def resolve (files : Files) (directories : List String) (file : String) : Resolution :=
  match directories with
  | [] => .missing
  | directory :: rest =>
    let path := join directory file
    match files path with
    | .file content =>
      match textOf content with
      | .ok text => .found text
      | .error problem => .unreadable problem
    | .unknown => .unknown path
    | _ => resolve files rest file

end Files

/-! ## Trees of files -/

/-- Files by the steps that lead to them. -/
abbrev FileTree := List (List String × ByteArray)

namespace FileTree

/-- The steps of a path. -/
def steps (path : String) : List String :=
  (path.splitOn "/").filter fun step => step != "" && step != "."

/-- The tree of files at paths. -/
def ofPaths (files : List (String × ByteArray)) : FileTree :=
  files.map fun file => (steps file.1, file.2)

/-- What stands where some steps lead, which are given from the last one. -/
def entry (tree : FileTree) (reversed : List String) : Lookup :=
  let place := reversed.reverse
  match tree.find? fun file => file.1 == place with
  | some file => .file file.2
  | none =>
    if place.isEmpty || tree.any fun file => place.isPrefixOf file.1 then .directory else .missing

/-- Follows steps from a place. -/
def follow (tree : FileTree) (reversed : List String) : List String → Lookup
  | [] => tree.entry reversed
  | step :: rest =>
    match tree.entry reversed with
    | .directory =>
      if step = "" ∨ step = "." then follow tree reversed rest
      else if step = ".." then
        match reversed with
        | [] => .missing
        | _ :: outer => follow tree outer rest
      else follow tree (step :: reversed) rest
    | .file _ => .blocked
    | _ => .missing

/-- What stands at each path; paths start in the directory that holds the tree. -/
def lookup (tree : FileTree) : Files := fun path =>
  if path.isEmpty || path.startsWith "/" then .missing else tree.follow [] (path.splitOn "/")

end FileTree

end Ckl
