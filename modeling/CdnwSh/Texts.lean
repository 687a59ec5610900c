import CdnwSh.State

/-! The text tables of `shell.c`: messages, error strings and the commands with their
help texts, and how numbers are read and printed. -/
namespace CdnwSh

/-- The bytes of an ASCII string literal. -/
def text (s : String) : Name := s.toList.map fun c => UInt8.ofNat c.toNat

/-- "%d" and "%u". -/
def decimal (n : Int) : Name := text (toString n)

def strTable : List Name := [
  text "\ncdnw-shell> ",
  text "Available commands: cat cd close connect exit export help import ls mkdir mkfs open read rm rmdir seek tree write",
  text "Exiting...",
  text "5560",
  text "\nremote-cdnw> ",
  text "Virtual file system initialized and mounted.",
  text "SUCCESS, fd = ",
  text "",
  text "Write successful.",
  text "Seek successful.",
  text "File closed.",
  text "Directory created.",
  text "Directory removed.",
  text "Directory changed.",
  text "",
  text "",
  text "",
  text "File imported.",
  text "File exported.",
  text "Connected to server: ",
  text "Connection to server closed"]

def STR_CMDS : Nat := 1
def STR_EXIT : Nat := 2
def STR_SUCCESS_MKFS : Nat := 5
def STR_SUCCESS_REXIT : Nat := 20

def errStrings : List Name := [
  text "SUCCESS",
  text "ERROR: unknown problem",
  text "ERROR: file or folder not found",
  text "ERROR: end of file",
  text "ERROR: ",
  text "ERROR: insufficient diskspace to complete this operation",
  text "ERROR: insufficient inodes to complete this operation",
  text "ERROR: invalid virtual file system, unable to mount",
  text "ERROR: invalid operation, no virtual file system has been mounted",
  text "ERROR: invalid parameters, unable to run this command",
  text "ERROR: command not found",
  text "ERROR: socket - unable to run poll()",
  text "ERROR: unable to receive command, network error on recv()",
  text "ERROR: unable to allocate network socket",
  text "ERROR: unable to bind to socket",
  text "ERROR: problem connecting to server ",
  text "ERROR: problem disconnecting from server, assuming connection closed ",
  text "ERROR: problem listening on the bound port ",
  text "ERROR: unable to receive results, network error on recv()"]

def SH_ERR_UNK : Int := -1
def SH_ERR_NOVFS : Int := -8
def SH_ERR_BADCMD : Int := -10
def SH_ERR_RECV : Int := -12
def SH_ERR_RCONNECT : Int := -15
def SH_ERR_RCLOSE : Int := -16

/-- The index that `err_str(x)` forms. -/
def errIndex (x : Int) : Int := x * (-1)

def ErrInTable (x : Int) : Prop := 0 ≤ errIndex x ∧ errIndex x < errStrings.length

instance : Decidable (ErrInTable x) := inferInstanceAs (Decidable (_ ∧ _))

/-- Undefined outside the table. -/
def errStr (x : Int) : Option Name :=
  if 0 ≤ errIndex x then errStrings[(errIndex x).toNat]? else none

inductive ShCmd where
  | cat | cd | close | connect | exit | exportFile | help | importFile | ls | mkdir | mkfs | openFile
  | pwd | read | rm | rmdir | seek | tree | write
  deriving DecidableEq

namespace ShCmd

/-- `sh_cmds` in the order in which it is searched. -/
def all : List ShCmd := [cat, cd, close, connect, exit, exportFile, help, importFile, ls, mkdir, mkfs,
  openFile, pwd, read, rm, rmdir, seek, tree, write]

def name : ShCmd → Name
  | cat => text "cat"
  | cd => text "cd"
  | close => text "close"
  | connect => text "connect"
  | exit => text "exit"
  | exportFile => text "export"
  | help => text "help"
  | importFile => text "import"
  | ls => text "ls"
  | mkdir => text "mkdir"
  | mkfs => text "mkfs"
  | openFile => text "open"
  | pwd => text "pwd"
  | read => text "read"
  | rm => text "rm"
  | rmdir => text "rmdir"
  | seek => text "seek"
  | tree => text "tree"
  | write => text "write"

def usage : ShCmd → Name
  | cat => text "Usage: cat <filename>"
  | cd => text "Usage: cd <dir_name>"
  | close => text "Usage: close <fd>\nfd = file descriptor"
  | connect => text "Usage: connect <server_ip/name> <server_port>"
  | exit => text "Usage: exit\nIf used at a remote server prompt, EXIT will disconnect the client connection.\nIf used at a local prompt, EXIT will close the shell and stop the client or server"
  | exportFile => text "Usage: export <internal_filename> <external_filename>"
  | help => text "Usage: 'help [<cmd>]' or '<cmd> --help'"
  | importFile => text "Usage: import <external_filename> <internal_filename>"
  | ls => text "Usage: ls"
  | mkdir => text "Usage: mkdir <dir_name>"
  | mkfs => text "Usage: mkfs\n Check and mount the virtual file system"
  | openFile => text "Usage: open <filename> <R/W>\nOPEN initializes access to a file for reading or writing.\nIn the second parameter, 1 = read and 2 = write"
  | pwd => text "Usage: pwd"
  | read => text "Usage: read <fd> <num_of_bytes>"
  | rm => text "Usage: rm <filename>"
  | rmdir => text "Usage: rmdir <dir name>"
  | seek => text "Usage: seek <fd> <byte_offset>\nA negative byte offset will move back instead of forward in the file"
  | tree => text "Usage: tree"
  | write => text "Usage: write <fd> <string>"

/-- The search that `run_cmd` and `sh_help` make. -/
def find (word : Name) : Option ShCmd := all.find? fun c => c.name = word

theorem find_eq (found : find word = some c) : c.name = word := by
  have := List.find?_some found
  exact of_decide_eq_true this

end ShCmd

def isSpace (c : UInt8) : Bool := c = 32 || (9 ≤ c.toNat && c.toNat ≤ 13)
def isDigit (c : UInt8) : Bool := 48 ≤ c.toNat && c.toNat ≤ 57

/-- The decimal number a text starts with, 0 when it does not start with a digit. -/
def digits (t : Name) : Nat := (t.takeWhile isDigit).foldl (fun n c => 10 * n + (c.toNat - 48)) 0

/-- `strtol(t, NULL, 10)` with its two saturated ends. -/
def strtol (t : Name) : Int :=
  let t := t.dropWhile isSpace
  let value : Int := match t with
    | 45 :: rest => -(digits rest : Int)
    | 43 :: rest => digits rest
    | _ => digits t
  max (-2 ^ 63) (min value (2 ^ 63 - 1))

def toInt16 (n : Int) : Int := n.bmod 65536

/-- `(size_t) n`. -/
def toSize (n : Int) : Nat := (n % 2 ^ 64).toNat

/-- `(uint32_t) n`. -/
def toUInt32 (n : Int) : UInt32 := UInt32.ofNat (n % 2 ^ 32).toNat

end CdnwSh
