import TildeMarkup.Byte
import TildeMarkup.Store.Path

/-!
# Stores of files

Files and directories below one directory, as far as a run can see and change them. A file is
reached by resolving a path part by part, so that double dots lead back from directories that are
there. Every write is stamped with a time of its own.
-/

namespace TildeMarkup

/-- A file: what it holds, and when it was last written. Times are only compared, and may have any
unit. -/
structure File where
  content : Bytes
  modified : Int
  deriving DecidableEq, Repr

/-- Where a file or a directory is: the names on the way to it. Names of two dots in front lead out
of the store. -/
abbrev Location := List String

/-- Files and directories. A location may be listed twice, and then the first entry counts. -/
structure Store where
  files : List (Location × File)
  directories : List Location
  /-- The time of the next write. -/
  clock : Int
  deriving Repr

/-- Why a file cannot be read or written, as far as the two are told apart. -/
inductive StoreFault where
  | notFound
  | isDirectory
  | notDirectory
  deriving DecidableEq, Repr

/-- What a path leads to. -/
inductive Target where
  | file (location : Location) (file : File)
  | directory (location : Location)
  /-- Nothing, but a file can be made there. -/
  | vacant (location : Location)
  deriving Repr

namespace Store

/-- The store without files and directories, but for the one directory that it stands for. -/
def empty (clock : Int) : Store := ⟨[], [], clock⟩

/-- The file at a location, which has been resolved before. -/
def file? (store : Store) (location : Location) : Option File :=
  store.files.lookup location

/-- There is a directory at a location. Outside the store only the directories above it are
known. -/
def isDirectory (store : Store) (location : Location) : Bool :=
  location.all (· == "..") || store.directories.contains location

/-- The location one part further on from a directory. -/
def advance (location : Location) (part : String) : Location :=
  if part == ".." && !location.all (· == "..") then location.dropLast else location ++ [part]

/-- Follows the parts of a path from a directory on. -/
def follow (store : Store) (location : Location) : List String → Except StoreFault Target
  | [] => .ok (.directory location)
  | part :: rest =>
    let next := advance location part
    if store.isDirectory next then store.follow next rest
    else
      -- What is no directory may only be the last part of the path.
      match store.file? next, rest with
      | some file, [] => .ok (.file next file)
      | some _, _ :: _ => .error .notDirectory
      | none, [] => .ok (.vacant next)
      | none, _ :: _ => .error .notFound

/-- What a path leads to. Nothing is known of absolute paths, so they lead nowhere. -/
def resolve (store : Store) (path : Path) : Except StoreFault Target :=
  if path.root.isEmpty then store.follow [] path.parts else .error .notFound

/-- The file that a path leads to. -/
def fileAt? (store : Store) (path : Path) : Option File :=
  match store.resolve path with
  | .ok (.file _ file) => some file
  | _ => none

/-- The content of the file that a path leads to. -/
def read (store : Store) (path : Path) : Except StoreFault Bytes :=
  match store.resolve path with
  | .ok (.file _ file) => .ok file.content
  | .ok (.directory _) => .error .isDirectory
  | .ok (.vacant _) => .error .notFound
  | .error fault => .error fault

/-- Replaces or adds the file at a location. All other files stay, in their order. -/
def put (store : Store) (location : Location) (file : File) : Store :=
  let changed :=
    if (store.file? location).isSome then
      store.files.map fun entry => if entry.1 = location then (location, file) else entry
    else store.files ++ [(location, file)]
  { store with files := changed }

/-- Puts some content at a location, stamped with the time. -/
def stamp (store : Store) (location : Location) (content : Bytes) : Store :=
  { store.put location ⟨content, store.clock⟩ with clock := store.clock + 1 }

/-- Writes the file that a path leads to, which need not be there yet. -/
def write (store : Store) (path : Path) (content : Bytes) : Except StoreFault Store :=
  match store.resolve path with
  | .ok (.file location _) => .ok (store.stamp location content)
  | .ok (.vacant location) => .ok (store.stamp location content)
  | .ok (.directory _) => .error .isDirectory
  | .error fault => .error fault

/-- The time of what a path leads to, if there is anything. A directory is as new as can be. -/
def modified? (store : Store) (path : Path) : Option Int :=
  match store.resolve path with
  | .ok (.file _ file) => some file.modified
  | .ok (.directory _) => some store.clock
  | _ => none

/-! ### Changes from outside -/

/-- Makes a file, and the directories that it lies in. Those that are there stay as they are. -/
def create (store : Store) (location : Location) (content : Bytes) : Store :=
  -- From the top down, so that each one lies in what has been made before.
  let above := (List.range location.length).map fun n => location.take n
  let missing := above.filter fun directory => !store.isDirectory directory
  { store with directories := store.directories ++ missing }.stamp location content

/-- Takes a file away. The directories around it stay, even if nothing is left in them. -/
def remove (store : Store) (location : Location) : Store :=
  { store with files := store.files.filter fun entry => entry.1 != location }

/-- Sets the time of a file, and leaves its content alone. Without a file nothing is done. -/
def touch (store : Store) (location : Location) (time : Int) : Store :=
  match store.file? location with
  | some file => store.put location { file with modified := time }
  | none => store

/-- The files inside the store whose content is not what it was before. -/
def changedFiles (before after : Store) : List (Location × Bytes) :=
  let inside := after.files.filter fun entry => entry.1.head? != some ".."
  let changed := inside.filter fun entry =>
    (before.file? entry.1).map File.content != some entry.2.content
  changed.map fun entry => (entry.1, entry.2.content)

end Store

end TildeMarkup
