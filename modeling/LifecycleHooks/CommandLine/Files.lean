/-!
# Source files

A source is named by a path and read as bytes.  Paths are written without doubled
slashes and without components that stay in place; the empty path is the current
directory.  A directory held in memory can stand in for the file system.
-/

namespace LifecycleHooks.CommandLine

/-- Why a file cannot be read. -/
inductive ReadFailure where
  | notFound
  | isDirectory
  | notDirectory
  | nameTooLong
  | permissionDenied
  | other (reason : String)
deriving DecidableEq, Repr

/-- The words for a failure. -/
def ReadFailure.reason : ReadFailure → String
  | .notFound => "No such file or directory"
  | .isDirectory => "Is a directory"
  | .notDirectory => "Not a directory"
  | .nameTooLong => "File name too long"
  | .permissionDenied => "Permission denied"
  | .other reason => reason

/-- A path: how many slashes it starts with, and its components. -/
structure FilePath where
  root : Nat
  components : List String
deriving DecidableEq, Repr

namespace FilePath

/-- The root of a path: exactly two slashes at its front are kept, more count as
one. -/
def rootOf (characters : List Char) : Nat :=
  match (characters.takeWhile (· = '/')).length with
  | 0 => 0
  | 2 => 2
  | _ => 1

/-- Read a path.  Empty components and single dots are left out. -/
def ofString (written : String) : FilePath :=
  let components := (written.toList.splitOn '/').map String.ofList
  ⟨rootOf written.toList, components.filter fun component => component ≠ "" ∧ component ≠ "."⟩

/-- Write a path. -/
def toString (path : FilePath) : String :=
  if path.root = 0 ∧ path.components.isEmpty then
    "."
  else
    String.ofList (List.replicate path.root '/') ++ "/".intercalate path.components

end FilePath

/-- A directory held in memory: its files, by the components of their paths. -/
structure FileTree where
  files : List (List String × List UInt8)

namespace FileTree

/-- Whether components name a directory: the tree itself, or what lies above a
file. -/
def isDirectory (tree : FileTree) (components : List String) : Bool :=
  components.isEmpty ||
    tree.files.any fun (path, _) => components.isPrefixOf path && components ≠ path

/-- The longest name that a file can have, in bytes. -/
def nameLimit : Nat := 255

/-- The longest path that can be opened, in bytes. -/
def pathLimit : Nat := 4095

/-- Why nothing can be read outside of the tree, where there are no files and no
directories but those above the tree. -/
def failureOutside : List String → ReadFailure
  | [] => .isDirectory
  | component :: rest =>
      if component = ".." then failureOutside rest
      else if nameLimit < component.utf8ByteSize then .nameTooLong
      else .notFound

/-- Follow components from a directory, and read the file that they lead to. -/
def readFrom (tree : FileTree) : (here : List String) → List String →
    Except ReadFailure (List UInt8)
  | here, [] =>
      if tree.isDirectory here then
        .error .isDirectory
      else
        match tree.files.lookup here with
        | some bytes => .ok bytes
        | none => .error .notFound
  | here, component :: rest =>
      if tree.isDirectory here then
        if component ≠ ".." then
          if nameLimit < component.utf8ByteSize then
            .error .nameTooLong
          else
            tree.readFrom (here ++ [component]) rest
        else if here.isEmpty then
          .error (failureOutside rest)
        else
          tree.readFrom here.dropLast rest
      else if (tree.files.lookup here).isSome then
        .error .notDirectory
      else
        .error .notFound

/-- Read a file.  Paths with a root lead outside of the tree. -/
def read (tree : FileTree) (path : FilePath) : Except ReadFailure (List UInt8) :=
  if pathLimit < path.toString.utf8ByteSize then
    .error .nameTooLong
  else if path.root = 0 then
    tree.readFrom [] path.components
  else
    .error (failureOutside path.components)

end FileTree
end LifecycleHooks.CommandLine
