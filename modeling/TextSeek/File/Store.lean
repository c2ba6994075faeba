import TextSeek.File.Path
import TextSeek.Reader

/-!
# Files under names

A `FileStore` holds the bytes of files. A name leads to a file; a file that is
overwritten or resized stays the same file, and one whose name is removed can
still be read by those who hold it open. Files stand in directories: in the
working directory, or around it.

A `HeldReader` is a reader together with the file that it holds open. It sees
the bytes that the file has when it reads them.

**Results.**
* `content?_write_new`: what is written under a new name is found under it.
* `find?_remove`: a removed name leads nowhere.
-/
namespace TextSeek

/-- The directory at which path texts without a slash in front begin. -/
def workingDirectory : Path := ["work", "tmp"]

/-- The directories that there are: the root, the usual ones in it and the
working directory. -/
def usualDirectories : List Path :=
  [] :: workingDirectory ::
    ["bin", "boot", "dev", "etc", "home", "lib", "media", "mnt", "opt", "proc", "root", "run",
      "sbin", "srv", "sys", "tmp", "usr", "var"].map ([·])

/-- A file that is always empty. -/
def nullDevice : Path := ["null", "dev"]

/-- Files and their names. -/
structure FileStore where
  /-- The bytes of each file. -/
  contents : List (List UInt8) := [[]]
  /-- Names, with the number of the file that each leads to. -/
  names : List (Path × Nat) := [(nullDevice, 0)]
  directories : List Path := usualDirectories
  deriving DecidableEq, Repr

namespace FileStore

def find? (store : FileStore) (name : Path) : Option Nat := store.names.lookup name

def bytes (store : FileStore) (file : Nat) : List UInt8 := store.contents.getD file []

def content? (store : FileStore) (name : Path) : Option (List UInt8) :=
  (store.find? name).map store.bytes

def place? (store : FileStore) (path : Path) : Option Place :=
  match store.find? path with
  | some file => some (.file file)
  | none => if path ∈ store.directories then some (.directory path) else none

def look (store : FileStore) (text : String) : Except IoError Node :=
  match Path.locate store.place? workingDirectory text with
  | .error error => .error error
  | .ok (.directory _) => .ok .directory
  | .ok (.file file) => .ok (.file (store.bytes file))

/-- Writes a file anew; a name that leads nowhere gets a new file. -/
def write (store : FileStore) (name : Path) (content : List UInt8) : FileStore :=
  match store.find? name with
  | some file => { store with contents := store.contents.set file content }
  | none =>
    { store with
      contents := store.contents ++ [content]
      names := (name, store.contents.length) :: store.names }

def resize (store : FileStore) (name : Path) (size : Nat) : Except IoError FileStore :=
  match store.find? name with
  | none => .error .noSuchFile
  | some file =>
    let kept := (store.bytes file).take size
    .ok { store with
      contents := store.contents.set file (kept ++ List.replicate (size - kept.length) 0) }

def remove (store : FileStore) (name : Path) : Except IoError FileStore :=
  match store.find? name with
  | none => .error .noSuchFile
  | some _ => .ok { store with names := store.names.filter fun n => n.1 != name }

theorem find?_remove {store next : FileStore} {name : Path}
    (h : store.remove name = .ok next) : next.find? name = none := by
  unfold remove at h
  split at h
  · cases h
  · cases h
    simp only [find?, List.lookup_eq_none_iff, List.mem_filter, bne_iff_ne, ne_eq]
    intro p hp
    have := hp.2
    simpa [eq_comm] using this

theorem content?_write_new {store : FileStore} {name : Path} (content : List UInt8)
    (h : store.find? name = none) : (store.write name content).content? name = some content := by
  simp only [find?] at h
  simp [content?, write, find?, bytes, h]

end FileStore

/-- A reader and the file that it holds open. -/
structure HeldReader where
  /-- The number of the file. -/
  file : Nat
  reader : TextReader

namespace HeldReader

def run {α : Type} (h : HeldReader) (store : FileStore) (operation : TextReader → α × TextReader) :
    α × HeldReader :=
  let (outcome, next) := operation (h.reader.withContent (store.bytes h.file))
  (outcome, { h with reader := next })

end HeldReader
end TextSeek
