import ShiftReduce.Text.Words

/-!
# Directories and hosts

The files of a directory, read and written by path. A path is walked part by part: every part but the
last has to lead into a directory, and a slash at the end asks for a directory as well. The directory has
no directories inside of it, so a name can only be the last part; there are directories around it, and a
file in one of those goes by the way to it.

A host is what a command needs of its surroundings: to read and write files and to print. A `Session` is a host
in memory: a directory, and the text printed so far.
-/

namespace ShiftReduce

/-- Why a file cannot be read or written. -/
inductive FileError
  | notFound
  | isDirectory
  | notDirectory
  | nameTooLong
  /-- the bytes are no text -/
  | notText
  | other (message : String)
deriving DecidableEq

def FileError.message : FileError → String
  | notFound => "No such file or directory (os error 2)"
  | isDirectory => "Is a directory (os error 21)"
  | notDirectory => "Not a directory (os error 20)"
  | nameTooLong => "File name too long (os error 36)"
  | notText => "stream did not contain valid UTF-8"
  | other message => message

def textOf? (bytes : List UInt8) : Except FileError String :=
  match String.fromUTF8? ⟨bytes.toArray⟩ with
  | some text => .ok text
  | none => .error .notText

/-- A part of a path, between slashes. -/
inductive PathPart
  /-- one dot: no way to go -/
  | stay
  /-- two dots: the way to the directory above -/
  | up
  | name (name : String)
deriving DecidableEq

namespace PathPart

/-- The part with this text; three dots are a name like any other. -/
def of : List Char → PathPart
  | ['.'] => stay
  | ['.', '.'] => up
  | part => name (String.ofList part)

end PathPart

/-- Where a path leads. -/
inductive Place
  /-- a directory that exists -/
  | directory
  /-- the file `name` in the directory at `base`, if it exists; `slashed` when a slash follows -/
  | file (base name : String) (slashed : Bool)
deriving DecidableEq

/-- The files of a directory by name, and those around it by the way to them, as in `../name`. -/
structure Directory where
  files : List (String × List UInt8)
deriving DecidableEq

namespace Directory

/-- The longest name of a file, in bytes. -/
def nameLimit : Nat := 255

def pathLimit : Nat := 4095

/-- The way to the directory above the one at `base`; nothing is above the root. -/
def above (base : String) : String :=
  if base = "/" then base else base ++ "../"

variable (d : Directory)

/-- The bytes of the file `name` in the directory at `base`. -/
def find (base name : String) : Except FileError (List UInt8) :=
  if name.utf8ByteSize > nameLimit then .error .nameTooLong
  else match d.files.lookup (base ++ name) with
    | some bytes => .ok bytes
    | none => .error .notFound

/-- Where the parts of a path lead from the directory at `base`. A name before the last part leads
nowhere: what it names is missing or a file. -/
def walk (slashed : Bool) (base : String) : List PathPart → Except FileError Place
  | [] => .ok .directory
  | .stay :: parts => walk slashed base parts
  | .up :: parts => walk slashed (above base) parts
  | [.name name] => .ok (.file base name slashed)
  | .name name :: _ =>
    match d.find base name with
    | .ok _ => .error .notDirectory
    | .error why => .error why

/-- Where a path leads. Slashes in a row are one; a slash in front starts at the root. -/
def locate (path : String) : Except FileError Place :=
  let pieces := Text.pieces (· = '/') path.toList
  if path.isEmpty then .error .notFound
  else if path.utf8ByteSize > pathLimit then .error .nameTooLong
  else d.walk (pieces.getLast? = some []) (if pieces.head? = some [] then "/" else "")
    ((pieces.filter (· ≠ [])).map .of)

def read (path : String) : Except FileError (List UInt8) :=
  match d.locate path with
  | .error why => .error why
  | .ok .directory => .error .isDirectory
  | .ok (.file base name slashed) =>
    match d.find base name with
    | .ok bytes => if slashed then .error .notDirectory else .ok bytes
    | .error why => .error why

/-- The directory with new bytes in the file that goes by `key`. -/
def put (key : String) (bytes : List UInt8) : Directory :=
  if d.files.any (·.1 == key) then
    ⟨d.files.map fun f => if f.1 == key then (key, bytes) else f⟩
  else ⟨d.files ++ [(key, bytes)]⟩

/-- The directory with new bytes in the file at a path, which is made if it is missing. -/
def write (path : String) (bytes : List UInt8) : Except FileError Directory :=
  match d.locate path with
  | .error why => .error why
  | .ok .directory => .error .isDirectory
  | .ok (.file base name slashed) =>
    if slashed then .error .isDirectory
    else if name.utf8ByteSize > nameLimit then .error .nameTooLong
    else .ok (d.put (base ++ name) bytes)

end Directory

structure Host (m : Type → Type) where
  read : String → m (Except FileError (List UInt8))
  write : String → List UInt8 → m (Except FileError Unit)
  print : String → m Unit

/-- A directory and the text printed so far. -/
structure Session where
  directory : Directory
  printed : String := ""
deriving DecidableEq

def Session.host : Host (StateM Session) where
  read path := return (← get).directory.read path
  write path bytes := do
    let s ← get
    match s.directory.write path bytes with
    | .ok directory =>
      set { s with directory }
      return .ok ()
    | .error e => return .error e
  print text := modify fun s => { s with printed := s.printed ++ text }

end ShiftReduce
