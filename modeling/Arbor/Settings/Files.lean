import Arbor.Settings.Basic
import Arbor.Text.Utf8

set_option autoImplicit false

/-! # Settings files

Files and directories are known by their place: the names on the way from the root directory. A
path is followed name by name, and what is gone on from has to be a directory. When a file is
written the directories on the way to it are made first, and stay when the writing fails. The
settings file for a directory is the nearest one: it is searched for in the directory and then, from
parent to parent of its path, in the directories around it, and in each of them under four names in
order. -/

namespace Arbor

/-- A place in the file system: the names from the root directory on. -/
abbrev Place := List Text

/-- What exists, and the directory from which relative paths start. The directories around
    something that exists exist as well. -/
structure FileSystem where
  contents : Fields Place Settings.Content
  workingDirectory : Place

namespace FileSystem

/-- What is at a place. The root and the working directory are always there. -/
def content? (fs : FileSystem) (place : Place) : Option Settings.Content :=
  if place.isPrefixOf fs.workingDirectory then some .directory
  else Fields.get? fs.contents place

def isThere (fs : FileSystem) (place : Place) : Bool := (fs.content? place).isSome

def isDirectory (fs : FileSystem) (place : Place) : Bool :=
  match fs.content? place with
  | some .directory => true
  | _ => false

/-- The place where a path starts. -/
def start (fs : FileSystem) (path : Text) : Place :=
  if path.startsWith "/" then [] else fs.workingDirectory

/-- One name further from a place. -/
def step (place : Place) (name : Text) : Place :=
  if name = "" ∨ name = "." then place
  else if name = ".." then place.dropLast
  else place ++ [name]

/-- The place that a path names, whatever exists. -/
def normalized (fs : FileSystem) (path : Text) : Place :=
  (path.split '/').foldl step (fs.start path)

/-- The greatest number of bytes that a name may have. -/
def maxNameBytes : Nat := 255

/-- The place that a name leads to from a directory. Nothing needs to be there. -/
def enter (fs : FileSystem) (place : Place) (name : Text) : Except Fault Place :=
  if name.points.contains '\x00' then .error .badFileName
  else if !fs.isDirectory place then .error .notADirectory
  else if maxNameBytes < (Utf8.encode name).length then .error .nameTooLong
  else .ok (step place name)

/-- The place that a path leads to. -/
def resolve (fs : FileSystem) (path : Text) : Except Fault Place :=
  (path.split '/').foldlM fs.enter (fs.start path)

/-- Put a content at a place. -/
def put (fs : FileSystem) (place : Place) (content : Settings.Content) : FileSystem :=
  { fs with contents := Fields.set fs.contents place content }

/-- Add a directory unless something is there. -/
def withDirectory (fs : FileSystem) (place : Place) : FileSystem :=
  if fs.isThere place then fs else fs.put place .directory

/-- Add a content and the directories around it. -/
def withContent (fs : FileSystem) (place : Place) (content : Settings.Content) : FileSystem :=
  (((List.range place.length).map place.take).foldl withDirectory fs).put place content

end FileSystem

/-! ## Paths

Paths are told from their texts alone. A path may start with two slashes, which then stand for its root; more
slashes are one. -/

namespace Path

/-- The path with a root and the names of a place. -/
def ofPlace (root : Text) (place : Place) : Text := root ++ Text.join "/" place

/-- A path seen from a directory. A path that starts with a slash is seen from the root. -/
def joined (directory path : Text) : Text :=
  if path.startsWith "/" then path
  else if directory.isEmpty || directory.endsWith "/" then directory ++ path
  else directory ++ "/" ++ path

/-- The root of a path that starts with a slash. -/
def root (path : Text) : Text :=
  if path.startsWith "//" && !path.startsWith "///" then "//" else "/"

/-- A path that starts with a slash, without doubled slashes, `.` and `..`. -/
def normal (path : Text) : Text := ofPlace (root path) ((path.split '/').foldl FileSystem.step [])

/-- A path as it is seen from the root. -/
def absolute (workingDirectory path : Text) : Text := normal (joined workingDirectory path)

def isSlash (c : CodePoint) : Bool := c = '/'

/-- The directory around what is at a path: the path up to its last slash, without slashes at the end unless there
    is nothing else. -/
def parent (path : Text) : Text :=
  let head := path.points.reverse.dropWhile (!isSlash ·)
  let bare := head.dropWhile isSlash
  ⟨(if bare.isEmpty then head else bare).reverse⟩

theorem parent_begins (path : Text) : (parent path).points <+: path.points := by
  have hhead : path.points.reverse.dropWhile (!isSlash ·) <:+ path.points.reverse := List.dropWhile_suffix _
  rw [← List.reverse_suffix, parent]
  simp only [List.reverse_reverse]
  split
  · exact hhead
  · exact (List.dropWhile_suffix _).trans hhead

/-- A path that is not its own parent is longer than its parent. -/
theorem length_parent_lt {path : Text} (h : parent path ≠ path) : (parent path).length < path.length := by
  have hbegins := parent_begins path
  refine Nat.lt_of_not_le fun hle => h ?_
  exact congrArg Text.mk (hbegins.eq_of_length_le hle)

end Path

/-- An action on the file system. What has been made stays made when it fails. -/
abbrev FileM := EStateM Fault FileSystem

namespace FileM

/-- The place one name further. A directory is made there unless something is there. -/
def makeDirectory (place : Place) (name : Text) : FileM Place := do
  let target ← MonadExcept.ofExcept ((← get).enter place name)
  modify (·.withDirectory target)
  return target

/-- The directory that names lead to, where all directories that are missing are made. -/
def makeDirectories (place : Place) : List Text → FileM Place
  | [] => do if (← get).isDirectory place then return place else throw .alreadyExists
  | name :: rest => do makeDirectories (← makeDirectory place name) rest

/-- Write a content to the file at a path and make the directories on the way. -/
def write (path : Text) (content : Settings.Content) : FileM Unit := do
  let names := path.split '/'
  let directory ← makeDirectories ((← get).start path) (names.dropLast.filter (!·.isEmpty))
  let target ← MonadExcept.ofExcept ((← get).enter directory (names.getLast?.getD ""))
  if (← get).isDirectory target then throw .isADirectory
  modify (·.put target content)

end FileM

namespace Settings

/-- Read the settings from the file at a path. Without a path, or if nothing is there, the settings
    are the defaults. -/
def load (fs : FileSystem) (path? : Option Text) : Except Fault (Settings × List Warning) :=
  match path? with
  | none => .ok (default, [])
  | some path =>
    match (if path.isEmpty then none else (fs.resolve path).toOption).bind fs.content? with
    | none => .ok (default, [])
    | some content => ofContent path content

/-- Write settings to the file at a path. The result is the text of the file, which is left empty if
    the settings have none. -/
def save (s : Settings) (path : Text) : FileM Text :=
  match s.toText with
  | .ok text => do
    FileM.write path (.data s.toValue)
    return text
  | .error f => do
    FileM.write path (.data .null)
    throw f

/-! ## Finding a settings file -/

/-- The names of settings files, the preferred one first. -/
def fileNames : List Text := [".jswalker.yml", ".jswalker.yaml", "jswalker.yml", "jswalker.yaml"]

/-- The path of the settings file of a directory, without those around it. -/
def findIn? (there : Text → Bool) (directory : Text) : Option Text :=
  (fileNames.map (Path.joined directory)).find? there

/-- The path of the nearest settings file for a directory. The directory that is its own parent is the last
    one. -/
def findFrom? (there : Text → Bool) (directory : Text) : Option Text :=
  match findIn? there directory with
  | some path => some path
  | none =>
    if Path.parent directory = directory then none
    else findFrom? there (Path.parent directory)
termination_by directory.length
decreasing_by exact Path.length_parent_lt ‹_›

/-- The path of the nearest settings file for the directory at a path, where `there` tells of each path whether
    anything is there. -/
def findPath? (there : Text → Bool) (workingDirectory path : Text) : Option Text :=
  findFrom? there (Path.absolute workingDirectory path)

/-- The nearest settings file for the directory at a path. -/
def find? (fs : FileSystem) (path : Text) : Option Place :=
  (findPath? (fun candidate => fs.isThere (fs.normalized candidate))
    (Path.ofPlace "/" fs.workingDirectory) path).map fs.normalized

end Settings

end Arbor
