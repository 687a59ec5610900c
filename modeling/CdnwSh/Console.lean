import CdnwSh.FileSystem
import CdnwSh.Library.Preorder
import CdnwSh.ShellRuns

/-! What the shell is for: command lines on a `FileSystem` that `mkfs` makes, each with the
text it answers. `Console.Step` says for every line what it does. -/
namespace CdnwSh

open NameTree

/-- `path` is what `pwd` prints, `client` that the console is connected to a server. -/
structure Console where
  volume : FileSystem
  mounted : Bool
  path : Name
  running : Bool
  client : Bool

namespace ShCmd

def onVolume : ShCmd → Bool
  | connect | exit | help | mkfs => false
  | _ => true

def argc : ShCmd → Nat → Bool
  | openFile, n | read, n | write, n | seek, n | importFile, n | exportFile, n | connect, n => n = 2
  | close, n | mkdir, n | rmdir, n | rm, n | cat, n | cd, n => n = 1
  | ls, n => n ≤ 1
  | pwd, n | tree, n => n = 0
  | _, _ => true

/-- The command on the file system. `export` imports. -/
def op (cmd : ShCmd) (argv : List Name) : Option Op :=
  match cmd with
  | openFile => (openMode (arg argv 1)).map fun mode => .openFile .cwd (arg argv 0) mode
  | close => some (.close (toInt16 (strtol (arg argv 0))))
  | read => some (.read (toInt16 (strtol (arg argv 0))) (toSize (strtol (arg argv 1))))
  | write => some (.write (toInt16 (strtol (arg argv 0))) (arg argv 1))
  | seek => some (.seek (toInt16 (strtol (arg argv 0))) (toUInt32 (toInt16 (strtol (arg argv 1)))))
  | mkdir => some (.mkdir (arg argv 0))
  | rmdir => some (.rmdir (arg argv 0))
  | cat => some (.cat (arg argv 0))
  | cd => some (.cd (arg argv 0))
  | ls => some (.ls (arg argv 0))
  | importFile | exportFile => some (.importFile (arg argv 0) (arg argv 1))
  | _ => none

/-- Whether the text of an answer says that the command failed. A descriptor has eight bits
there. -/
def fails (cmd : ShCmd) (r : Reply) : Bool :=
  match cmd with
  | openFile => toInt8 r.code < 0
  | read => r.bytes = []
  | write => r.code = 0
  | _ => r.code < 0

def success (cmd : ShCmd) (r : Reply) : Name :=
  match cmd with
  | openFile => text "SUCCESS, fd = " ++ decimal r.code
  | close => text "File closed."
  | write => text "Write successful."
  | seek => text "Seek successful."
  | mkdir => text "Directory created."
  | rmdir => text "Directory removed."
  | cd => text "Directory changed."
  | importFile => text "File imported."
  | exportFile => text "File exported."
  | _ => cstr r.bytes

def answer (cmd : ShCmd) (r : Reply) : Name := if cmd.fails r then mesgErr SH_ERR_UNK else cmd.success r

/-- What a command hands out, with its final NUL, has room in the block it is put in. -/
def Fits (cmd : ShCmd) (argv : List Name) (r : Reply) : Prop :=
  match cmd with
  | read => r.bytes = [] ∨ r.bytes.length < toSize (strtol (arg argv 1))
  | cat | ls => r.bytes.length < 4096
  | _ => True

end ShCmd

def FileSystem.size (fs : FileSystem) (i : Iptr) : Nat :=
  match fs.node i with
  | some (.dir p es) => ((records i p es).map DirEntry.entryLen).sum
  | _ => (fs.files.content i).length

def TreeText.entryLine (t : TreeText) (fs : FileSystem) (times : Iptr → UInt64)
    (item : Item Iptr DirEntry) : Name :=
  let e := item.2.2
  (t.indent item.2.1 (UInt8.ofNat item.1)).getD [] ++ e.name ++ (text "  " ++
    (if e.fileType = ITYPE_FILE then text "F" else text "D") ++ text "  " ++
    decimal (fs.size e.inode) ++ text "  " ++ t.ctime (times e.inode))

namespace Console

def new (host : Host) : Console := ⟨.new host, false, [], true, false⟩

/-- The path of the last `cd` that did not fail. -/
def pathAfter (path : Name) (op : Op) (r : Reply) : Name :=
  match op with
  | .cd new => if r.code < 0 then path else new
  | _ => path

def after (c : Console) (op : Op) (r : Reply) (fs : FileSystem) : Console :=
  { c with volume := fs, path := pathAfter c.path op r }

/-- A tree was listed. On the way through its subdirectories the working directory is left
and entered again with "..". -/
def toured (c : Console) (i : Iptr) (es : List DirEntry) : Console :=
  if ∃ e ∈ es, e.fileType = ITYPE_DIR then { c with volume := c.volume.hold .cwd i, path := dotDot }
  else c

/-- What a command with its arguments answers and does. -/
inductive Does (net : Net) (t : TreeText) (c : Console) : ShCmd → List Name → Name → Console → Prop where
  | unmounted : c.mounted = false → cmd.onVolume = true →
      Does net t c cmd argv (mesgErr SH_ERR_NOVFS) c
  | usage : c.mounted = true → cmd.onVolume = true → cmd.argc argv.length = false →
      Does net t c cmd argv cmd.usage c
  | command : c.mounted = true → cmd.argc argv.length = true → cmd.op argv = some op →
      FileSystem.Step c.volume op r fs → cmd.Fits argv r →
      Does net t c cmd argv (cmd.answer r) (c.after op r fs)
  | badMode : c.mounted = true → argv.length = 2 → openMode (arg argv 1) = none →
      Does net t c .openFile argv (mesgErr SH_ERR_UNK) c
  | pwd : c.mounted = true → argv = [] → c.path.length < 256 → Does net t c .pwd argv (cstr c.path) c
  | rm : c.mounted = true → argv.length = 1 → Does net t c .rm argv (text "File removed.") c
  | tree : c.mounted = true → argv = [] → c.volume.dirs .cwd = some here →
      c.volume.node here.dir = some (.dir p es) → Preorder scheme c.volume.node 0 here.dir es items →
      items.flatMap (t.entryLine c.volume times) = shown → shown.length < 4096 →
      Does net t c .tree argv (cstr shown) (c.toured here.dir es)
  | mkfs : c.mounted = false →
      Does net t c .mkfs argv (mesgStr STR_SUCCESS_MKFS) { c with mounted := true, path := [slash] }
  | help : Does net t c .help [] (ShCmd.help.usage ++ [newline] ++ mesgStr STR_CMDS) c
  | helpUnknown : ShCmd.find word = none →
      Does net t c .help (word :: argv) (mesgErr SH_ERR_BADCMD) c
  | exit : c.client = false → Does net t c .exit argv (mesgStr STR_EXIT) { c with running := false }
  | leave : c.client = true → Does net t c .exit argv
      (if toInt8 net.closed < 0 then mesgErr SH_ERR_RCLOSE ++ [newline] ++ net.strerror
        else mesgStr STR_SUCCESS_REXIT) { c with client := false }
  | connectUsage : argv.length ≠ 2 → Does net t c .connect argv ShCmd.connect.usage c
  | refused : argv.length = 2 → net.connects (arg argv 0) (arg argv 1) = .refused →
      Does net t c .connect argv
        (mesgErr SH_ERR_RCONNECT ++ arg argv 0 ++ [newline] ++ net.strerror) c
  | connected : argv.length = 2 → net.connects (arg argv 0) (arg argv 1) = .connected cfd →
      Does net t c .connect argv (text "Connected to server: " ++ arg argv 0) { c with client := true }

inductive Step (net : Net) (t : TreeText) (c : Console) : Name → Option Name → Console → Prop where
  | nothing : scanLine line = some sc → commandOf sc = none → Step net t c line none c
  | unknown : scanLine line = some sc → commandOf sc = some word → ShCmd.find word = none →
      Step net t c line (some (mesgErr SH_ERR_BADCMD)) c
  | call : parsed line = some (cmd, argv) → Does net t c cmd argv out c' →
      Step net t c line (some out) c'

end Console
end CdnwSh
