/-! # Files by path

A tree of files, and where a path in it leads. A path is relative to the working directory unless it starts with a
slash. Its components are followed one by one, each from a directory: an empty component and a dot stay there, two
dots lead to the directory above. -/

namespace ManagedCode

/-- Why there is no text under a path. -/
inductive FileError where
  | notFound
  | notADirectory
  | isADirectory
  | nameTooLong
  | zeroInPath
  | notUnicode
  | other (detail : String)
  deriving DecidableEq, Repr

def FileError.message : FileError → String
  | .notFound => "No such file or directory (os error 2)"
  | .notADirectory => "Not a directory (os error 20)"
  | .isADirectory => "Is a directory (os error 21)"
  | .nameTooLong => "File name too long (os error 36)"
  | .zeroInPath => "file name contained an unexpected NUL byte"
  | .notUnicode => "stream did not contain valid UTF-8"
  | .other detail => detail

/-- A place in the tree, by the names that lead there from the root. -/
abbrev Place := List String

/-- Files by their places. A directory exists if it is the working directory, or something lies in it. -/
structure FileTree where
  files : List (Place × String)
  workingDirectory : Place
  deriving DecidableEq, Repr

namespace FileTree

/-- What is found at a place. -/
inductive Node where
  | file (text : String)
  | directory
  deriving DecidableEq, Repr

def isDirectory (tree : FileTree) (place : Place) : Bool :=
  place.isPrefixOf tree.workingDirectory || tree.files.any fun (file, _) => place.isPrefixOf file

def node? (tree : FileTree) (place : Place) : Option Node :=
  match tree.files.lookup place with
  | some text => some (.file text)
  | none => if tree.isDirectory place then some .directory else none

/-- The longest name, and the longest path, in bytes. -/
def nameLimit : Nat := 255

def pathLimit : Nat := 4095

/-- Follows one component of a path. -/
def follow (tree : FileTree) (place : Place) (component : String) : Except FileError Place :=
  match tree.node? place with
  | none => .error .notFound
  | some (.file _) => .error .notADirectory
  | some .directory =>
      if component = "" ∨ component = "." then .ok place
      else if component = ".." then .ok place.dropLast
      else if nameLimit < component.utf8ByteSize then .error .nameTooLong
      else if (tree.node? (place ++ [component])).isSome then .ok (place ++ [component])
      else .error .notFound

/-- The place that a path leads to. -/
def locate (tree : FileTree) (path : String) : Except FileError Place :=
  let start := if path.startsWith "/" then [] else tree.workingDirectory
  (path.splitOn "/").foldlM tree.follow start

/-- The text of the file that a path leads to. -/
def text (tree : FileTree) (path : String) : Except FileError String :=
  if path.toList.contains '\x00' then .error .zeroInPath
  else if path.isEmpty then .error .notFound
  else if pathLimit < path.utf8ByteSize then .error .nameTooLong
  else do
    let place ← tree.locate path
    match tree.node? place with
    | some (.file text) => .ok text
    | some .directory => .error .isADirectory
    | none => .error .notFound

/-- The place of a name below the working directory. -/
def placeOf (tree : FileTree) (name : String) : Place :=
  tree.workingDirectory ++ name.splitOn "/"

/-- Adds a file below the working directory. -/
def addFile (tree : FileTree) (name text : String) : FileTree :=
  { tree with files := (tree.placeOf name, text) :: tree.files }

end FileTree
end ManagedCode
