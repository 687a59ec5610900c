import CdnwSh.Library.FileStore
import CdnwSh.Listing
import CdnwSh.Machine

/-! What the file system is for: a tree of names, files as byte strings, directories that
callers hold as they read them, and descriptors. Blocks, bitmaps and counters are not in it.
`FileSystem.Step` says for each command what it does and answers. -/
namespace CdnwSh

open FileStore

/-- A directory as it was read. -/
structure Snapshot where
  dir : Iptr
  shows : List DirEntry

structure FileSystem where
  node : Nodes
  files : Files Iptr UInt8
  dirs : Handle → Option Snapshot
  host : Host

def recordsOf (node : Nodes) (i : Iptr) : List DirEntry :=
  match node i with
  | some (.dir p es) => records i p es
  | _ => []

def named (node : Nodes) (i : Iptr) (tok : Name) : Option DirEntry :=
  (recordsOf node i).find? fun e => e.name = tok

/-- Where a walk ends, and whether that is the end of the path: at the first name that is
missing it stays where it is. -/
def descend (node : Nodes) : Iptr → List Name → Iptr × Bool
  | i, [] => (i, true)
  | i, tok :: rest =>
    match named node i tok with
    | some e => descend node e.inode rest
    | none => (i, false)

/-- Only a first name that is missing makes a path lead nowhere. -/
def arrives (node : Nodes) (i : Iptr) : List Name → Option (Iptr × Bool)
  | [] => some (i, true)
  | tok :: rest => (named node i tok).map fun e => descend node e.inode rest

/-- The directory and the name of a new directory. Names before the last one that are missing
are passed over. -/
def newPlace (node : Nodes) : Iptr → List Name → Option (Iptr × Name)
  | _, [] => none
  | i, tok :: rest =>
    match named node i tok with
    | some e => if rest = [] then none else newPlace node e.inode rest
    | none => if rest = [] then some (i, tok) else newPlace node i rest

/-- The first number that is not in use. -/
structure FreshId (node : Nodes) (i : Iptr) : Prop where
  free : node i = none
  least : ∀ j : Iptr, j.toNat < i.toNat → node j ≠ none

structure FreshFd (t : Files Iptr UInt8) (n : Nat) : Prop where
  free : t.fds n = none
  least : ∀ m, m < n → t.fds m ≠ none

def newEntry (i : Iptr) (type : UInt8) (name : Name) : DirEntry := ⟨i, entryLenOf name.length, type, name⟩

/-- The bytes of an imported file: all of them, or none when the host does not deliver all or
has no memory for them. -/
def imported (host : Host) (hName : Name) (bytes : List UInt8) : List UInt8 :=
  if min (host.readable hName) bytes.length = bytes.length ∧ CacheGranted host.heap bytes.length
  then bytes else []

/-- The host has no memory for the bytes of a descriptor that is to show `n` of them. -/
def Host.Refuses (host : Host) (d : Descriptor Iptr UInt8) (n : Nat) : Prop :=
  d.view.length < (UInt32.ofNat n).toNat ∧ ¬ CacheGranted host.heap n

namespace FileSystem

def start (fs : FileSystem) (path : Name) : Option Iptr :=
  if path.head? = some slash then some 0 else (fs.dirs .cwd).map (·.dir)

def hold (fs : FileSystem) (h : Handle) (i : Iptr) : FileSystem :=
  { fs with dirs := Function.update fs.dirs h (some ⟨i, recordsOf fs.node i⟩) }

def enter (fs : FileSystem) (i : Iptr) (e : DirEntry) : FileSystem :=
  match fs.node i with
  | some (.dir p es) => { fs with
      node := NameTree.insert scheme fs.node i p es e (newNode i e)
      files := fs.files.fill e.inode [] }
  | _ => fs

def leave (fs : FileSystem) (i : Iptr) (e : DirEntry) : FileSystem :=
  match fs.node i with
  | some (.dir p es) => { fs with node := NameTree.erase scheme fs.node i p es e }
  | _ => fs

def withFiles (fs : FileSystem) (files : Files Iptr UInt8) : FileSystem := { fs with files := files }

def create (fs : FileSystem) (h : Handle) (i : Iptr) (n : Iptr) (name : Name) : FileSystem :=
  (fs.enter i (newEntry n ITYPE_FILE name)).hold h i

def new (host : Host) : FileSystem where
  node := rootNodes
  files := ⟨fun _ => [], fun _ => none⟩
  dirs := Function.update (fun _ => none) .cwd (some ⟨0, recordsOf rootNodes 0⟩)
  host := host

inductive Step (fs : FileSystem) : Op → Reply → FileSystem → Prop where
  | mount : Step fs .mount ⟨0, []⟩ ((fs.withFiles ⟨fs.files.content, fun _ => none⟩).hold .cwd 0)
  | umount : fs.dirs .cwd = some here → Step fs .umount ⟨0, []⟩ { fs with dirs := Function.update fs.dirs .cwd none }
  | mkdirFails : fs.dirs .cwd = some here → newPlace fs.node here.dir (strtok path) = none →
      Step fs (.mkdir path) ⟨-1, []⟩ fs
  | mkdir : fs.dirs .cwd = some here → newPlace fs.node here.dir (strtok path) = some (i, name) →
      FreshId fs.node n →
      Step fs (.mkdir path) ⟨0, []⟩ (fs.enter i (newEntry n ITYPE_DIR name))
  | rmdirFull : fs.start (parentPath path) = some i →
      arrives fs.node i (walkToks (parentPath path)) = some (j, true) →
      named fs.node j path = some e → fs.node e.inode = some (.dir q (f :: rest)) →
      Step fs (.rmdir path) ⟨-1, []⟩ fs
  | rmdirNothing : fs.start (parentPath path) = some i →
      arrives fs.node i (walkToks (parentPath path)) = some (j, true) →
      named fs.node j path = none → Step fs (.rmdir path) ⟨0, []⟩ fs
  | rmdir : fs.start (parentPath path) = some i →
      arrives fs.node i (walkToks (parentPath path)) = some (j, true) →
      named fs.node j path = some e → fs.node e.inode = some (.dir j []) →
      Step fs (.rmdir path) ⟨0, []⟩ (fs.leave j e)
  | cdFails : fs.start path = some i → arrives fs.node i (walkToks path) = none →
      Step fs (.cd path) ⟨-1, []⟩ fs
  | cd : fs.dirs .cwd = some here → fs.start path = some i → arrives fs.node i (walkToks path) = some (j, whole) →
      Step fs (.cd path) ⟨0, []⟩ (fs.hold .cwd j)
  | lsFails : fs.start path = some i → arrives fs.node i (walkToks path) = none →
      Step fs (.ls path) ⟨-1, []⟩ fs
  | ls : fs.start path = some i → arrives fs.node i (walkToks path) = some (j, whole) →
      Step fs (.ls path) ⟨0, if whole then lsText (recordsOf fs.node j) else []⟩ fs
  | opendirFails : fs.start path = some i → arrives fs.node i (walkToks path) = none →
      Step fs (.opendir k path) ⟨-1, []⟩ fs
  | opendir : fs.start path = some i → arrives fs.node i (walkToks path) = some (j, whole) →
      Step fs (.opendir k path) ⟨0, []⟩ (fs.hold (.held k) j)
  | closedir : Step fs (.closedir k) ⟨0, []⟩ { fs with dirs := Function.update fs.dirs (.held k) none }
  | creatFails : fs.dirs h = some held → held.shows.find? (fun e => e.name = name) = some e →
      Step fs (.creat h name) ⟨-1, []⟩ fs
  | creat : fs.dirs h = some held → held.shows.find? (fun e => e.name = name) = none →
      FreshId fs.node n → Step fs (.creat h name) ⟨0, []⟩ (fs.create h held.dir n name)
  | openFails : fs.dirs h = some held → held.shows.find? (fun e => e.name = name) = none →
      mode ≠ FD_WRITE → Step fs (.openFile h name mode) ⟨-1, []⟩ fs
  | openFound : fs.dirs h = some held → held.shows.find? (fun e => e.name = name) = some e →
      FreshFd fs.files k → Step fs (.openFile h name mode) ⟨k, []⟩
        (fs.withFiles (fs.files.opened k e.inode (mode = FD_WRITE)))
  | openNew : fs.dirs h = some held → held.shows.find? (fun e => e.name = name) = none →
      FreshId fs.node n → FreshFd fs.files k → Step fs (.openFile h name FD_WRITE) ⟨k, []⟩
        ((fs.create h held.dir n name).withFiles ((fs.create h held.dir n name).files.opened k n true))
  | closeFails {n : Nat} : fd = n → fs.files.fds n = none → Step fs (.close fd) ⟨-1, []⟩ fs
  | close {n : Nat} : fd = n → fs.files.fds n ≠ none →
      Step fs (.close fd) ⟨0, []⟩ (fs.withFiles (fs.files.setFd n none))
  | readFails {n : Nat} : fd = n → (∀ d, fs.files.fds n = some d → d.writes = true) →
      Step fs (.read fd bytes) ⟨0, []⟩ fs
  | read {n : Nat} : fd = n → fs.files.fds n = some d → d.writes = false →
      out = d.ahead (min bytes (d.view.length - d.cursor - 1)) →
      Step fs (.read fd bytes) ⟨out.length, out⟩
        (fs.withFiles (fs.files.setFd n (some (d.move (d.cursor + out.length)))))
  | writeFails {n : Nat} : fd = n → (∀ d, fs.files.fds n = some d → d.writes = false) →
      Step fs (.write fd buf) ⟨0, []⟩ fs
  | writeRefused {n : Nat} : fd = n → fs.files.fds n = some d → d.writes = true →
      fs.host.Refuses d (d.cursor + buf.length) → Step fs (.write fd buf) ⟨0, []⟩ fs
  | write {n : Nat} : fd = n → fs.files.fds n = some d → d.writes = true →
      ¬ fs.host.Refuses d (d.cursor + buf.length) →
      Step fs (.write fd buf) ⟨buf.length, []⟩ (fs.withFiles (fs.files.written n d buf))
  | seekClosed {n : Nat} : fd = n → fs.files.fds n = none → Step fs (.seek fd offset) ⟨0, []⟩ fs
  | seekRefused {n : Nat} : fd = n → fs.files.fds n = some d →
      fs.host.Refuses d (d.cursor + offset.toNat) → Step fs (.seek fd offset) ⟨-1, []⟩ fs
  | seek {n : Nat} : fd = n → fs.files.fds n = some d → d.cursor + offset.toNat ≤ d.view.length →
      Step fs (.seek fd offset) ⟨0, []⟩ (fs.withFiles (fs.files.setFd n (some (d.move offset.toNat))))
  | seekGrows {n : Nat} : fd = n → fs.files.fds n = some d → d.writes = true →
      ¬ fs.host.Refuses d (d.cursor + offset.toNat) →
      d.view.length + junk.length = d.cursor + offset.toNat → junk ≠ [] →
      Step fs (.seek fd offset) ⟨0, []⟩
        (fs.withFiles (fs.files.grown n d (List.replicate junk.length 0) offset.toNat junk))
  | catFails : fs.dirs .cwd = some here → named fs.node here.dir name = none →
      Step fs (.cat name) ⟨-1, []⟩ fs
  | cat : fs.dirs .cwd = some here → named fs.node here.dir name = some e → FreshFd fs.files k →
      out = (fs.files.content e.inode).take ((fs.files.content e.inode).length - 1) →
      Step fs (.cat name) ⟨0, out⟩
        (fs.withFiles (fs.files.setFd k (some ⟨e.inode, false, fs.files.content e.inode, out.length⟩)))
  | importFile : fs.dirs .cwd = some here → FreshId fs.node n → fs.host.files hName = some bytes →
      Step fs (.importFile hName gName) ⟨if imported fs.host hName bytes = [] then -1 else 0, []⟩
        ((fs.enter here.dir (newEntry n ITYPE_FILE gName)).withFiles
          (fs.files.fill n (imported fs.host hName bytes)))
  | exportFile : Step fs (.exportFile gName hName) ⟨-1, []⟩ { fs with host := fs.host.put hName [] }

/-- No seek grows a file. -/
def Settled (fs : FileSystem) : Op → Prop
  | .seek fd offset => ∀ (n : Nat) d, fd = n → fs.files.fds n = some d →
      d.cursor + offset.toNat ≤ d.view.length ∨ fs.host.Refuses d (d.cursor + offset.toNat)
  | _ => True

end FileSystem

theorem FreshId.unique (one : FreshId node i) (two : FreshId node j) : i = j := by
  rcases Nat.lt_trichotomy i.toNat j.toNat with less | same | more
  · exact absurd one.free (two.least i less)
  · exact UInt32.toNat_inj.mp same
  · exact absurd two.free (one.least j more)

theorem FreshFd.unique (one : FreshFd t m) (two : FreshFd t n) : m = n := by
  rcases Nat.lt_trichotomy m n with less | same | more
  · exact absurd one.free (two.least m less)
  · exact same
  · exact absurd two.free (one.least n more)

theorem Host.Refuses.past {host : Host} {d : Descriptor Iptr UInt8} (refuses : host.Refuses d n) :
    d.view.length < n := by
  have := refuses.1
  rw [UInt32.toNat_ofNat'] at this
  omega

namespace FileSystem

variable {fs a b : FileSystem}

/-- Unless a seek grows a file, a command has one outcome. -/
theorem Step.unique (one : Step fs op r a) (two : Step fs op r' b) (settled : Settled fs op) :
    r = r' ∧ a = b := by
  -- Two rules for one command either exclude each other or read the same state.
  cases one <;> cases two
  all_goals first
    | exact ⟨rfl, rfl⟩
    | grind [FreshId.unique, FreshFd.unique, Settled, → Host.Refuses.past]

end FileSystem
end CdnwSh
