import WsServer.Foundations.DepthFirst
import WsServer.Foundations.NormalForms
import WsServer.Foundations.Rows

/-!
# The directory crawler of `DirectoryCrawler.cpp`

A crawler keeps the directories it has been pointed at, and lists the entries of each of them into a
vector of rows. The methods catch `filesystem_error` and report it; `what` is the text that such an
error has, which the library chooses.

What a system call fails with for a reason that does not lie in the tree is an argument
(`Surroundings`), and so is what the iteration of a directory reads and where it stops
(`Iteration`). For the methods that look at the source directory alone or at everything below it, a
`Disk` says in which order a directory is read, and where the reading throws.
-/

set_option autoImplicit false
set_option relaxedAutoImplicit false

namespace WsServer.Crawler

open Foundations

/-! ### The library -/

/-- `std::errc`. -/
inductive Errc
  | noSuchFileOrDirectory
  | notADirectory
  | tooManySymbolicLinkLevels
  | invalidArgument
  | other (code : ℤ)
  deriving DecidableEq

/-- `std::filesystem::filesystem_error`. -/
structure FilesystemError where
  whatArg : String
  path1 : Path
  code : Errc
  deriving DecidableEq

/-- What a call works in: the file system, and the system calls that fail. -/
structure Surroundings where
  fs : FileSystem UInt8
  existsFault : Option Errc
  isDirectoryFault : Option Errc
  currentPathFault : Option Errc

/-- `std::filesystem::status`; none for what is not there. -/
def status (fs : FileSystem UInt8) (fault : Option Errc) (p : Path) :
    Except FilesystemError (Option Node) :=
  match fault with
  | some code => .error ⟨"status", p, code⟩
  | none =>
    match fs.resolve .target p with
    | .ok l => .ok (fs.nodes l)
    | .error .loop => .error ⟨"status", p, .tooManySymbolicLinkLevels⟩
    | .error _ => .ok none

/-- `std::filesystem::absolute`. -/
def absolute (w : Surroundings) (p : Path) : Except FilesystemError Path :=
  if p.isEmpty then .error ⟨"cannot make absolute path", p, .invalidArgument⟩
  else if p.absolute then .ok p
  else
    match w.currentPathFault with
    | some code => .error ⟨"cannot make absolute path", p, code⟩
    | none => .ok ⟨true, w.fs.workingDirectory ++ p.names⟩

/-! ### Registering directories -/

/-- `dirPathStr` contains no NUL: the system would take the path to end there. -/
def validatedDirectoryPath (w : Surroundings) (dirPathStr : String) :
    Except FilesystemError Path := do
  let candidate := Path.ofText dirPathStr
  if (← status w.fs w.existsFault candidate) = none then
    throw ⟨"Directory does not exist!", candidate, .noSuchFileOrDirectory⟩
  if (← status w.fs w.isDirectoryFault candidate) ≠ some .directory then
    throw ⟨"Path is not a directory!", candidate, .notADirectory⟩
  return (← absolute w candidate).lexicallyNormal

def containsPath (paths : List Path) (candidate : Path) : Bool := decide (candidate ∈ paths)

structure DirectoryCrawler where
  sourceDirectory : Path
  sourceDirectoryList : List Path
  lastError : String := "No Error Set"
  deriving DecidableEq

/-- `EXIT_SUCCESS` and `EXIT_FAILURE`. -/
inductive ExitCode
  | success
  | failure
  deriving DecidableEq

namespace DirectoryCrawler

/-- The constructor. -/
def construct (w : Surroundings) (dirPathStr : String) :
    Except FilesystemError DirectoryCrawler := do
  let sourceDirectory ← validatedDirectoryPath w dirPathStr
  return { sourceDirectory, sourceDirectoryList := [sourceDirectory] }

variable (what : FilesystemError → String)

def changeDirectory (w : Surroundings) (self : DirectoryCrawler) (dirPathStr : String) :
    DirectoryCrawler × ExitCode :=
  match validatedDirectoryPath w dirPathStr with
  | .ok path =>
    let self := { self with sourceDirectory := path }
    let self :=
      if containsPath self.sourceDirectoryList self.sourceDirectory then self
      else { self with
        sourceDirectoryList := self.sourceDirectoryList ++ [self.sourceDirectory] }
    ({ self with lastError := "No Error Set" }, .success)
  | .error e => ({ self with lastError := what e }, .failure)

def newDirectory (w : Surroundings) (self : DirectoryCrawler) (dirPathStr : String) :
    DirectoryCrawler × ExitCode :=
  match validatedDirectoryPath w dirPathStr with
  | .ok newPath =>
    let self :=
      if containsPath self.sourceDirectoryList newPath then self
      else { self with sourceDirectoryList := self.sourceDirectoryList ++ [newPath] }
    ({ self with sourceDirectory := newPath, lastError := "No Error Set" }, .success)
  | .error e => ({ self with lastError := what e }, .failure)

end DirectoryCrawler

/-! ### Listing directories -/

section Crawl

variable {Entry : Type}

/-- What the iteration of a directory comes to: its entries in the order in which they are read, and
after how many of them it throws. -/
structure Iteration (Entry : Type) where
  entries : List Entry
  failure : Option (ℕ × FilesystemError)

namespace Iteration

/-- The entries that are read. -/
def read (iteration : Iteration Entry) : List Entry :=
  match iteration.failure with
  | none => iteration.entries
  | some (count, _) => iteration.entries.take count

end Iteration

/-- The loop of `crawl` from the directory `i` on, with the exception that ends it. -/
def crawlLoop (iterate : Path → Iteration Entry) :
    ℕ → List Path → List (List Entry) → List (List Entry) × Option FilesystemError
  | _, [], rows => (rows, none)
  | i, dir :: dirs, rows =>
    let rows := rows.modify i (· ++ (iterate dir).read)
    match (iterate dir).failure with
    | some (_, e) => (rows, some e)
    | none => crawlLoop iterate (i + 1) dirs rows

/-- `crawl(std::vector<std::vector<directory_entry>>&)`. -/
def DirectoryCrawler.crawl (what : FilesystemError → String) (iterate : Path → Iteration Entry)
    (self : DirectoryCrawler) (rows : List (List Entry)) :
    DirectoryCrawler × List (List Entry) × ExitCode :=
  let dirs := self.sourceDirectoryList
  let rows := if rows.length < dirs.length then Rows.resize rows dirs.length else rows
  match crawlLoop iterate 0 dirs rows with
  | (rows, none) => ({ self with lastError := "No Error Set" }, rows, .success)
  | (rows, some e) => ({ self with lastError := what e }, rows, .failure)

end Crawl

/-! ### Reading directories -/

/-- `EACCES`. -/
def Errc.permissionDenied : Errc := .other 13

/-- `std::filesystem::directory_entry`, with where the entry lies. -/
structure DirectoryEntry where
  path : Path
  location : Location
  deriving DecidableEq

namespace DirectoryEntry

/-- The entry `name` of a directory. -/
def child (e : DirectoryEntry) (name : String) : DirectoryEntry :=
  ⟨{ e.path with names := Path.appendName e.path.names name }, e.location ++ [name]⟩

end DirectoryEntry

/-- The file system with the order in which the names of a directory are read, and after how many of
them opening or reading it throws. -/
structure Disk extends Surroundings where
  names : Location → List String
  stops : Location → Option (ℕ × FilesystemError)
  height : ℕ
  nodup_names : ∀ l, (names l).Nodup
  mem_names_iff : ∀ l name, name ∈ names l ↔ fs.nodes (l ++ [name]) ≠ none
  isFilename : ∀ l, ∀ name ∈ names l, Path.IsFilename name
  length_le : ∀ l, fs.nodes l ≠ none → l.length ≤ height

namespace Disk

variable (d : Disk)

/-- What the iteration of an open directory comes to. -/
def iteration (e : DirectoryEntry) : Iteration DirectoryEntry :=
  ⟨(d.names e.location).map e.child, d.stops e.location⟩

/-- Opening a directory for an iteration. -/
def openDirectory (whatArg : String) (p : Path) : Iteration DirectoryEntry :=
  let refused (code : Errc) : Iteration DirectoryEntry := ⟨[], some (0, ⟨whatArg, p, code⟩)⟩
  match d.fs.resolve .target p with
  | .ok l => if d.fs.nodes l = some .directory then d.iteration ⟨p, l⟩ else refused .notADirectory
  | .error .noent => refused .noSuchFileOrDirectory
  | .error .notdir => refused .notADirectory
  | .error .loop => refused .tooManySymbolicLinkLevels

end Disk

/-- `skip_permission_denied`: the iteration ends where permission is denied. -/
def Iteration.skipPermissionDenied {Entry : Type} (iteration : Iteration Entry) :
    DepthFirst.Listing Entry FilesystemError :=
  ⟨iteration.read, (iteration.failure.map Prod.snd).filter
    fun e ↦ decide (e.code ≠ Errc.permissionDenied)⟩

namespace Disk

variable (d : Disk)

/-- What `recursive_directory_iterator` finds below an entry; it does not follow links. -/
def descend (e : DirectoryEntry) : DepthFirst.Listing DirectoryEntry FilesystemError :=
  if d.fs.nodes e.location = some .directory then (d.iteration e).skipPermissionDenied
  else ⟨[], none⟩

/-- What `recursive_directory_iterator` finds where it begins. -/
def descendFrom (p : Path) : DepthFirst.Listing DirectoryEntry FilesystemError :=
  (d.openDirectory "recursive directory iterator cannot open directory" p).skipPermissionDenied

/-- `std::filesystem::recursive_directory_iterator`, to its end. -/
def recursiveDirectoryIterator (fuel : ℕ) (p : Path) :
    Option (List DirectoryEntry × Option FilesystemError) :=
  DepthFirst.walk d.descend fuel [d.descendFrom p] []

end Disk

namespace DirectoryCrawler

variable (what : FilesystemError → String) (d : Disk) (self : DirectoryCrawler)

/-- The end of a method: without an exception, or in the handler. -/
def finish : Option FilesystemError → DirectoryCrawler × ExitCode
  | none => ({ self with lastError := "No Error Set" }, .success)
  | some e => ({ self with lastError := what e }, .failure)

def crawlRecursively (fuel : ℕ) (out : List String) :
    Option (List String × DirectoryCrawler × ExitCode) :=
  (d.recursiveDirectoryIterator fuel self.sourceDirectory).map fun (entries, failure) ↦
    (out ++ entries.map fun e ↦ e.path.string, self.finish what failure)

end DirectoryCrawler

end WsServer.Crawler
