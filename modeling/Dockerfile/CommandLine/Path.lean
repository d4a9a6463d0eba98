import Dockerfile.Text.Decimal

/-!
# Paths

Paths of slash-separated names, relative to a working directory, and their form as a URI: the
cleaned absolute path with every byte written in percent notation that has no plain place in one.
-/

namespace Dockerfile

namespace Path

def names (path : Bytes) : List Bytes :=
  path.splitOn Byte.slash

def isAbsolute (path : Bytes) : Bool :=
  path.head? == some Byte.slash

/-- Follow a name without looking at any directory. -/
def follow (path : List Bytes) (name : Bytes) : List Bytes :=
  if name.isEmpty || name == utf8 "." then path
  else if name == utf8 ".." then path.dropLast
  else path ++ [name]

def absolute (directory : List Bytes) (path : Bytes) : List Bytes :=
  (names path).foldl follow (if isAbsolute path then [] else directory)

def isPlain (b : UInt8) : Bool :=
  Byte.isLetter b || Byte.isDigit b || (utf8 "-_.~$&+,/:;=@").contains b

def percent (b : UInt8) : Bytes :=
  0x25 :: (hexDigits 2 b.toNat).map Byte.toUpper

def uri (directory : List Bytes) (path : Bytes) : Bytes :=
  utf8 "file:///" ++
    (Bytes.join [Byte.slash] (absolute directory path)).flatMap fun b =>
      if isPlain b then [b] else percent b

inductive Failure where
  | missing
  | notDirectory
  | nameTooLong
  | invalid
  | isDirectory
  | other (reason : Bytes)
  deriving DecidableEq, Repr

def Failure.text (failure : Failure) (name : Bytes) : Bytes :=
  match failure with
  | .missing => utf8 "open " ++ name ++ utf8 ": no such file or directory"
  | .notDirectory => utf8 "open " ++ name ++ utf8 ": not a directory"
  | .nameTooLong => utf8 "open " ++ name ++ utf8 ": file name too long"
  | .invalid => utf8 "open " ++ name ++ utf8 ": invalid argument"
  | .isDirectory => utf8 "read " ++ name ++ utf8 ": is a directory"
  | .other reason => reason

end Path

/-- Directories and files under their absolute paths. -/
structure FileTree where
  directories : List (List Bytes)
  files : List (List Bytes × Bytes)

namespace FileTree

def lineage (path : List Bytes) : List (List Bytes) :=
  (List.range (path.length + 1)).map path.take

/-- The tree of directories and files that are given relative to a directory.  Of several files of
one path the last counts. -/
def ofNames (directory : List Bytes) (directories : List Bytes) (files : List (Bytes × Bytes)) :
    FileTree where
  directories := lineage directory ++
    (directories.flatMap fun name => lineage (Path.absolute directory name))
  files := files.reverse.map fun (name, content) => (Path.absolute directory name, content)

inductive Node where
  | directory
  | file (content : Bytes)

def node? (tree : FileTree) (path : List Bytes) : Option Node :=
  if path.isEmpty || tree.directories.contains path then some .directory
  else (tree.files.lookup path).map .file

def step (tree : FileTree) (path : List Bytes) (name : Bytes) : Except Path.Failure (List Bytes) :=
  match tree.node? path with
  | some .directory =>
      if 255 < name.length then .error .nameTooLong
      else
        let next := Path.follow path name
        match tree.node? next with
        | some _ => .ok next
        | none => .error .missing
  | some (.file _) => .error .notDirectory
  | none => .error .missing

def read (tree : FileTree) (directory : List Bytes) (path : Bytes) : Except Path.Failure Bytes :=
  if path.contains 0 then .error .invalid
  else if path.isEmpty then .error .missing
  else if 4096 ≤ path.length then .error .nameTooLong
  else do
    let target ← (Path.names path).foldlM tree.step
      (if Path.isAbsolute path then [] else directory)
    match tree.node? target with
    | some (.file content) => .ok content
    | _ => .error .isDirectory

end FileTree

end Dockerfile
