/-!
# Directories

A folder with the files and folders inside it, and places in it written like `logs/main.log`. No name is longer than
255 bytes and no place longer than 4095.

- `Directory.hasFile`: whether there is a file at a place;
- `Directory.openFile`: a file to write to, with the folders around it.
-/

namespace Aggregate

/-- The files and folders inside a folder, each as the names that lead to it. -/
structure Directory where
  files : List (List String)
  folders : List (List String)
  deriving Repr

namespace Directory

/-- The folder with nothing in it. -/
def empty : Directory := ⟨[], []⟩

/-- Whether a name can be that of a file or folder. -/
def isName (name : String) : Bool := name.utf8ByteSize ≤ 255 && !name.toList.contains '\x00'

/-- Whether a place is not too long. -/
def isShort (place : String) : Bool := place.utf8ByteSize < 4096

/-- Whether a part of a place leads nowhere. -/
def isIdle (part : String) : Bool := part == "" || part == "."

/-- The names that lead to a place. -/
def names (place : String) : List String :=
  (place.splitOn "/").filter (!isIdle ·)

/-- The place of the folder around a place, as far as it is written. -/
def around (place : String) : String :=
  let inside := ((place.splitOn "/").reverse.dropWhile isIdle).drop 1
  "/".intercalate (inside.dropWhile isIdle).reverse

/-- Whether a place is written like that of a folder. -/
def isFolderText (place : String) : Bool :=
  match (place.splitOn "/").getLast? with
  | some name => isIdle name || name == ".."
  | none => true

/-- Whether there is a folder behind some names; the folder itself is one. -/
def hasFolder (d : Directory) (place : List String) : Bool := place.isEmpty || d.folders.contains place

/-- The directory with a folder. -/
def addFolder (d : Directory) (place : List String) : Directory :=
  if d.hasFolder place then d else { d with folders := d.folders ++ [place] }

/-- The directory with a file. -/
def addFile (d : Directory) (place : List String) : Directory :=
  if d.files.contains place then d else { d with files := d.files ++ [place] }

/-- Where names lead from a base folder, if there is something; `..` leads one folder up. -/
def find? (d : Directory) (base : List String) : List String → Option (List String)
  | [] => some base
  | ".." :: rest => find? d base.dropLast rest
  | name :: rest =>
    let next := base ++ [name]
    if d.hasFolder next then find? d next rest
    else if rest.isEmpty && d.files.contains next then some next
    else none

/-- Whether there is a file at a place. -/
def hasFile (d : Directory) (place : String) : Bool :=
  isShort place && !isFolderText place && (d.find? [] (names place)).any d.files.contains

/-- Makes the folders that names lead through from a folder, unless there is a file in the way or a name cannot be
used. -/
def makeFolders (d : Directory) (base : List String) : List String → Option (Directory × List String)
  | [] => some (d, base)
  | ".." :: rest => makeFolders d base.dropLast rest
  | name :: rest =>
    let next := base ++ [name]
    if d.files.contains next || !isName name then none else makeFolders (d.addFolder next) next rest

/-- Why a file cannot be opened. -/
inductive OpenError where
  /-- The folders around it cannot be made. -/
  | folder
  /-- It is no file, or its place is no place for one. -/
  | file
  deriving DecidableEq, Repr

/-- Opens a file to write to, which is made if it is missing, as are the folders around it. Folders stay even if the
file cannot be opened. -/
def openFile (d : Directory) (place : String) : Except OpenError Unit × Directory :=
  match (names place).getLast? with
  | none => (.error .file, d)
  | some name =>
    match d.makeFolders [] (names place).dropLast with
    | none => (.error .folder, d)
    | some (made, folder) =>
      let target := folder ++ [name]
      if !isShort (around place) then (.error .folder, d)
      else if isFolderText place || made.hasFolder target || !isName name || !isShort place then (.error .file, made)
      else (.ok (), made.addFile target)

end Directory

end Aggregate
