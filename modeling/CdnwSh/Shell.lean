import CdnwSh.Session
import CdnwSh.CommandLine
import CdnwSh.Tree

/-! The shell of `shell.c`: a handler for each command, `run_cmd` and `clean_svr`, over
the file system and the fields of `shell_server` and `shell_client` they read. -/
namespace CdnwSh

/-- What `rconnect` meets: a name that `getaddrinfo` does not find leaves its result unset. -/
inductive Connecting where
  | unknown
  | refused
  | connected (cfd : Int)

/-- The network as the shell's own connection sees it. `closed` is what `close` returns. -/
structure Net where
  connects : Name → Name → Connecting
  closed : Int
  strerror : Name

/-- `attached` is the flag of `blockdev.c`, `vfs` says that `shell_server.vfs` is
`VFS_STATUS_ON`, `running` that `shell_server.status` is `SVR_STATUS_RUN`, and `client`
that `shell_client.status` is `CLIENT_STATUS_OPEN`. -/
structure Shell where
  fs : Fs
  attached : Bool
  vfs : Bool
  running : Bool
  client : Bool
  cfd : Int
  net : Net
  treeText : TreeText

/-- A call ends, or calls `err` and with it ends the process, or is undefined. -/
inductive Outcome (α : Type) where
  | done (value : α)
  | exited
  | undefined

namespace Outcome

def bind (x : Outcome α) (f : α → Outcome β) : Outcome β :=
  match x with
  | done a => f a
  | exited => exited
  | undefined => undefined

def ofOption : Option α → Outcome α
  | some a => done a
  | none => undefined

def value : Outcome α → Option α
  | done a => some a
  | _ => none

theorem value_eq_some {x : Outcome α} (run : x.value = some a) : x = done a := by
  cases x with
  | done b => cases run; rfl
  | exited => cases run
  | undefined => cases run

theorem bind_eq_done {x : Outcome α} {f : α → Outcome β} (run : x.bind f = done b) :
    ∃ a, x = done a ∧ f a = done b := by
  cases x with
  | done a => exact ⟨a, rfl, run⟩
  | exited => cases run
  | undefined => cases run

theorem ofOption_eq_done {x : Option α} (run : ofOption x = done a) : x = some a := by
  cases x with
  | some b => cases run; rfl
  | none => cases run

end Outcome

/-- A handler's reply. It is the text up to its first NUL, or the whole allocation when
that holds none. -/
abbrev Handler := List Name → Shell → Outcome (Name × Shell)

def mesgStr (idx : Nat) : Name := strTable.getD idx []
def mesgErr (err : Int) : Name := (errStr err).getD []

/-- `chk_vfs`, the count of arguments and then the command itself, whose failure is
`none`. -/
def checked (cmd : ShCmd) (counts : Nat → Bool) (argv : List Name) (sh : Shell)
    (body : Option (Option Name × Fs)) : Outcome (Name × Shell) :=
  if sh.vfs = false then .done (mesgErr SH_ERR_NOVFS, sh)
  else if counts argv.length = false then .done (cmd.usage, sh)
  else .ofOption do
    let (reply, fs) ← body
    return (reply.getD (mesgErr SH_ERR_UNK), { sh with fs := fs })

def arg (argv : List Name) (i : Nat) : Name := argv.getD i []

def report (result : Option (Int × Fs)) (reply : Name) : Option (Option Name × Fs) := do
  let (code, fs) ← result
  return (if code < 0 then none else some reply, fs)

/-- A text that a command stores in a block of `size` bytes, with its final NUL. -/
def stored (size : Nat) (code : Int) (out : List UInt8) (fs : Fs) : Option (Option Name × Fs) :=
  if size < out.length + 1 then none
  else some (if code < 0 then none else some (cstr out), fs)

section
variable [InodeLayout]

def openMode (word : Name) : Option UInt8 :=
  let letter : List UInt8 → Option UInt8
    | 114 :: _ => some FD_READ
    | 119 :: _ => some FD_WRITE
    | _ => none
  match word with
  | 39 :: rest | 34 :: rest => letter rest
  | word => letter word

/-- `sh_err` has eight bits, so a descriptor above 127 is reported as an error. -/
def shOpen : Handler := fun argv sh => checked .openFile (· = 2) argv sh <|
  match openMode (arg argv 1) with
  | none => some (none, sh.fs)
  | some mode => do
    let dir ← sh.fs.cwd
    let (fd, dir, fs) ← cnopen dir (arg argv 0) mode sh.fs
    let reply := if toInt8 fd < 0 then none else some (text "SUCCESS, fd = " ++ decimal fd)
    return (reply, { fs with cwd := some dir })

def shClose : Handler := fun argv sh => checked .close (· = 1) argv sh <|
  report (cnclose (toInt16 (strtol (arg argv 0))) sh.fs) (text "File closed.")

/-- The bytes are stored in a block of as many bytes as were asked for, if there is one, and
are used as a string. -/
def shRead : Handler := fun argv sh => checked .read (· = 2) argv sh <| do
  let bytes := toSize (strtol (arg argv 1))
  let (read, fs) ← cnread bytes (toInt16 (strtol (arg argv 0))) sh.fs
  if read = [] then return (none, fs)
  else if sh.fs.host.heap.grants bytes = false then none
  else stored bytes 0 read fs

def shWrite : Handler := fun argv sh => checked .write (· = 2) argv sh <| do
  let (written, fs) ← cnwrite (arg argv 1) (toInt16 (strtol (arg argv 0))) sh.fs
  return (if written = 0 then none else some (text "Write successful."), fs)

/-- The offset is cut to 16 bits before it is extended again. -/
def shSeek : Handler := fun argv sh => checked .seek (· = 2) argv sh <|
  report (cnseek (toInt16 (strtol (arg argv 0))) (toUInt32 (toInt16 (strtol (arg argv 1)))) sh.fs)
    (text "Seek successful.")

def shMkdir : Handler := fun argv sh => checked .mkdir (· = 1) argv sh <|
  report (cnmkdir (arg argv 0) sh.fs) (text "Directory created.")

def shRmdir : Handler := fun argv sh => checked .rmdir (· = 1) argv sh <|
  report (cnrmdir (arg argv 0) sh.fs) (text "Directory removed.")

/-- The call of `cnrm` is commented out. -/
def shRm : Handler := fun argv sh => checked .rm (· = 1) argv sh <|
  some (some (text "File removed."), sh.fs)

def shCat : Handler := fun argv sh => checked .cat (· = 1) argv sh <| do
  let (code, out, fs) ← cncat (arg argv 0) sh.fs
  stored 4096 code out fs

def shCd : Handler := fun argv sh => checked .cd (· = 1) argv sh <|
  report (cncd (arg argv 0) sh.fs) (text "Directory changed.")

def shLs : Handler := fun argv sh => checked .ls (· ≤ 1) argv sh <| do
  let (code, out) ← cnls (arg argv 0) sh.fs
  stored 4096 code out sh.fs

def shPwd : Handler := fun argv sh => checked .pwd (· = 0) argv sh <|
  stored 256 0 (cnpwd sh.fs) sh.fs

def shTree : Handler := fun argv sh => checked .tree (· = 0) argv sh <| do
  let (code, out, fs) ← cntree sh.treeText sh.fs
  stored 4096 code out fs

def shImport : Handler := fun argv sh => checked .importFile (· = 2) argv sh <|
  report (cnimport (arg argv 0) (arg argv 1) sh.fs) (text "File imported.")

/-- The handler calls `cnimport`. -/
def shExport : Handler := fun argv sh => checked .exportFile (· = 2) argv sh <|
  report (cnimport (arg argv 0) (arg argv 1) sh.fs) (text "File exported.")

/-- A second call ends the process. -/
def blockdevAttach (sh : Shell) : Outcome Shell :=
  if sh.attached then .exited
  else .done { sh with
    attached := true
    fs := { sh.fs with vol := { sh.fs.vol with disk := sh.fs.vol.disk.attached } } }

def blockdevDetach (sh : Shell) : Outcome Shell :=
  if sh.attached then .done { sh with attached := false } else .exited

/-- The arguments are not looked at, and neither `cnmkfs` nor `cnmount` reports an error. -/
def shMkfs : Handler := fun _ sh => (blockdevAttach sh).bind fun sh => .ofOption do
  let (_, fs) ← cnmkfs sh.fs
  let (_, fs) ← cnmount fs
  return (mesgStr STR_SUCCESS_MKFS, { sh with fs := fs, vfs := true })

def rclose (sh : Shell) : Shell := { sh with client := false, cfd := -1 }

def shExit : Handler := fun _ sh =>
  if sh.client then
    if toInt8 sh.net.closed < 0 then
      .done (mesgErr SH_ERR_RCLOSE ++ [newline] ++ sh.net.strerror, rclose sh)
    else .done (mesgStr STR_SUCCESS_REXIT, rclose sh)
  else .done (mesgStr STR_EXIT, { sh with running := false })

def shConnect : Handler := fun argv sh =>
  if argv.length ≠ 2 then .done (ShCmd.connect.usage, sh)
  else match sh.net.connects (arg argv 0) (arg argv 1) with
    | .unknown => .undefined
    | .refused => .done (mesgErr SH_ERR_RCONNECT ++ arg argv 0 ++ [newline] ++ sh.net.strerror, sh)
    | .connected cfd =>
      .done (text "Connected to server: " ++ arg argv 0, { sh with client := true, cfd := cfd })

/-- The block for a command's help text has no room for its NUL. -/
def shHelp : Handler := fun argv sh =>
  match argv with
  | [] => .done (ShCmd.help.usage ++ [newline] ++ mesgStr STR_CMDS, sh)
  | word :: _ =>
    match ShCmd.find word with
    | some cmd => .ofOption do
      let (reply, fs) ← stored cmd.usage.length 0 cmd.usage sh.fs
      return (reply.getD [], { sh with fs := fs })
    | none => .done (mesgErr SH_ERR_BADCMD, sh)

def ShCmd.handler : ShCmd → Handler
  | cat => shCat
  | cd => shCd
  | close => shClose
  | connect => shConnect
  | exit => shExit
  | exportFile => shExport
  | help => shHelp
  | importFile => shImport
  | ls => shLs
  | mkdir => shMkdir
  | mkfs => shMkfs
  | openFile => shOpen
  | pwd => shPwd
  | read => shRead
  | rm => shRm
  | rmdir => shRmdir
  | seek => shSeek
  | tree => shTree
  | write => shWrite

def commandOf (sc : Scan) : Option Name := sc.cmdTok.filter fun word =>
  match word with
  | [] => false
  | c :: _ => c ≠ newline ∧ c ≠ carriageReturn ∧ c ≠ space

/-- A null result is `none`. -/
def runCmd (cmdstr : Name) (sh : Shell) : Outcome (Option Name × Shell) :=
  (Outcome.ofOption (scanLine cmdstr)).bind fun sc =>
    match commandOf sc with
    | none => .done (none, sh)
    | some word =>
      match ShCmd.find word with
      | none => .done (some (mesgErr SH_ERR_BADCMD), sh)
      | some cmd => (cmd.handler sc.cmdArgv sh).bind fun (reply, sh) => .done (some reply, sh)

def cleanSvr (sh : Shell) : Outcome Shell :=
  let sh := if sh.client then rclose sh else sh
  (Outcome.ofOption (cnumount sh.fs)).bind fun (_, fs) => blockdevDetach { sh with fs := fs }

end

/-- `main` up to the run loop: the globals, over the file of the device. -/
def Shell.started (disk : Disk) (host : Host) (net : Net) (treeText : TreeText) : Shell where
  fs := Fs.started disk host
  attached := false
  vfs := false
  running := true
  client := false
  cfd := -1
  net := net
  treeText := treeText

end CdnwSh
