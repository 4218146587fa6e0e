import LogicAsm.Document

/-!
# File stores

The files of a directory by name, as bytes.  A file is read as UTF-8, and its line ends are unified;
a text is written as it is.

## Paths

A path leads to a file part by part, from slash to slash.  An empty part and `.` stay where they
are, `..` goes up, and any other part goes on to a file or a directory of that name.  Only the last
part may be a file.  The store knows nothing of what is above it: up there is a directory, and no
name in it leads on.
-/

namespace LogicAsm

/-- Files by name, in the order of their creation. -/
abbrev FileStore := List (String × Text.Bytes)

namespace FileStore

/-! ### Paths -/

/-- The most bytes that one part of a path may have. -/
def maxPart : Nat := 255

def maxPath : Nat := 4095

/-- Whether a part of a path leads nowhere else. -/
def stays (part : Text) : Bool := part == [] || part == ['.']

/-- The parts of a file's name that lead to it. -/
def partsOf (name : String) : List Text := (Text.cut '/' name.toList).filter fun part => !stays part

/-- Follow the parts of a path from a directory of the store, or from above the store. -/
def follow (files : FileStore) (place : Option (List Text)) :
    List Text → Except PathProblem String
  | [] => .error .directory
  | part :: rest =>
    if stays part then follow files place rest
    else if part = ['.', '.'] then
      let above := place.bind fun parts => if parts = [] then none else some parts.dropLast
      follow files above rest
    else if maxPart < (Text.Utf8.encode part).length then .error .nameTooLong
    else
      match place with
      | none => .error .missing
      | some parts =>
        let next := parts ++ [part]
        match files.find? fun file => partsOf file.1 == next with
        | some file => if rest = [] then .ok file.1 else .error .notDirectory
        | none =>
          if files.any fun file => next.isPrefixOf (partsOf file.1) then
            follow files (some next) rest
          else .error .missing

def followPath (files : FileStore) (path : Text) : Except PathProblem String :=
  if maxPath < (Text.Utf8.encode path).length then .error .nameTooLong
  else
    match path with
    | [] => .error .missing
    | '/' :: _ => follow files none (Text.cut '/' path)
    | _ => follow files (some []) (Text.cut '/' path)

/-- The name of the file that a path leads to; a name leads to its own file. -/
def resolve (files : FileStore) (path : String) : Except Fault String :=
  if (files.lookup path).isSome then .ok path
  else if path.toList.contains (Char.ofNat 0) then .error .nullInPath
  else
    match followPath files path.toList with
    | .ok name => .ok name
    | .error problem => .error (.noFile problem path.toList)

/-! ### Contents -/

/-- The text of bytes, with line ends unified. -/
def textOf (bytes : Text.Bytes) : Except Fault Text :=
  match Text.Utf8.decode bytes with
  | .ok t => .ok t.unifyNewlines
  | .error fault => .error (.notUtf8 fault)

def bytesOf (files : FileStore) (path : String) : Except Fault Text.Bytes :=
  (files.resolve path).map fun name => (files.lookup name).getD []

def read (files : FileStore) (path : String) : Except Fault Text := files.bytesOf path >>= textOf

/-- The store with a text as the contents of a file, in the place of what it held. -/
def write (files : FileStore) (path : String) (t : Text) : FileStore :=
  let bytes := Text.Utf8.encode t
  match files.resolve path with
  | .ok name => files.map fun file => if file.1 = name then (name, bytes) else file
  | .error _ => files ++ [(path, bytes)]

def document (files : FileStore) (path : String) : Except Fault Document :=
  (files.read path).map (Document.ofText path)

end FileStore

end LogicAsm
