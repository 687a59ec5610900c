import CdnwSh.Shell
import CdnwSh.Globals
import CdnwSh.Library.PartialRun

/-! The shell as a machine: one command line after the other, as long as the process goes
on. `checked_done` and `Shell.step_cases` say once what a handler and a line can do. -/
namespace CdnwSh

variable [InodeLayout]

/-- A command line at the prompt. The process ends or is undefined where it is `none`. -/
def Shell.step (sh : Shell) (line : Name) : Option (Option Name × Shell) := (runCmd line sh).value

/-- The command a line calls, with its arguments. -/
def parsed (line : Name) : Option (ShCmd × List Name) := do
  let sc ← scanLine line
  let word ← commandOf sc
  let cmd ← ShCmd.find word
  return (cmd, sc.cmdArgv)

omit [InodeLayout] in
theorem ofOption_bind_done {x : Option α} {f : α → Outcome β} (run : (Outcome.ofOption x).bind f = .done b) :
    ∃ a, x = some a ∧ f a = .done b := by
  obtain ⟨a, first, next⟩ := Outcome.bind_eq_done run
  exact ⟨a, Outcome.ofOption_eq_done first, next⟩

/-- A line calls no command and changes nothing, or is a call of a handler. -/
theorem Shell.step_cases {sh sh' : Shell} (run : sh.step line = some (reply, sh')) :
    (parsed line = none ∧ sh' = sh) ∨
    ∃ cmd argv out, parsed line = some (cmd, argv) ∧ cmd.handler argv sh = .done (out, sh') := by
  obtain ⟨sc, scanned, run⟩ := ofOption_bind_done (Outcome.value_eq_some run)
  rw [parsed, scanned]
  dsimp only at run
  cases looked : commandOf sc with
  | none =>
    rw [looked] at run
    cases run
    exact .inl ⟨by simp [looked], rfl⟩
  | some word =>
    rw [looked] at run
    dsimp only at run
    cases found : ShCmd.find word with
    | none =>
      rw [found] at run
      cases run
      exact .inl ⟨by simp [looked, found], rfl⟩
    | some cmd =>
      rw [found] at run
      obtain ⟨⟨out, after⟩, handled, run⟩ := Outcome.bind_eq_done run
      cases run
      exact .inr ⟨cmd, sc.cmdArgv, out, by simp [looked, found], handled⟩

omit [InodeLayout] in
theorem checked_done {sh sh' : Shell} (run : checked cmd counts argv sh body = .done (out, sh')) :
    sh' = sh ∨ ∃ reply fs, sh.vfs = true ∧ counts argv.length = true ∧ body = some (reply, fs) ∧
      sh' = { sh with fs := fs } := by
  rw [checked] at run
  split at run
  · cases run
    exact .inl rfl
  next on =>
    split at run
    · cases run
      exact .inl rfl
    next counted =>
      obtain ⟨⟨reply, fs⟩, ran, run⟩ := Option.bind_eq_some_iff.mp (Outcome.ofOption_eq_done run)
      cases run
      exact .inr ⟨reply, fs, by simpa using on, by simpa using counted, ran, rfl⟩

omit [InodeLayout] in
theorem report_some (run : report result answer = some (reply, fs)) : ∃ code, result = some (code, fs) := by
  obtain ⟨⟨code, fs'⟩, same, run⟩ := Option.bind_eq_some_iff.mp run
  cases run
  exact ⟨code, same⟩

omit [InodeLayout] in
theorem stored_some (run : stored size code out s = some (reply, fs)) : fs = s := by
  rw [stored] at run
  split at run
  · cases run
  · cases run
    rfl

omit [InodeLayout] in
/-- The help text of a command never gets out. -/
theorem shHelp_done (run : shHelp argv sh = .done (out, sh')) : sh' = sh ∧
    (argv = [] ∧ out = ShCmd.help.usage ++ [newline] ++ mesgStr STR_CMDS ∨
      ∃ word rest, argv = word :: rest ∧ ShCmd.find word = none ∧ out = mesgErr SH_ERR_BADCMD) := by
  rw [shHelp.eq_def] at run
  split at run
  · cases run
    exact ⟨rfl, .inl ⟨rfl, rfl⟩⟩
  next word rest =>
    split at run
    next cmd _ =>
      rw [stored, if_pos (Nat.lt_succ_self _)] at run
      cases run
    next unknown =>
      cases run
      exact ⟨rfl, .inr ⟨word, rest, rfl, unknown, rfl⟩⟩

/-- The call of `fs.c` that a command makes with its arguments, and the globals it leaves. -/
def FsCall (sh : Shell) (argv : List Name) (s' : Fs) : ShCmd → Prop
  | .cat => ∃ code out, cncat (arg argv 0) sh.fs = some (code, out, s')
  | .cd => ∃ code, cncd (arg argv 0) sh.fs = some (code, s')
  | .close => ∃ code, cnclose (toInt16 (strtol (arg argv 0))) sh.fs = some (code, s')
  | .importFile | .exportFile =>
    argv.length = 2 ∧ ∃ code, cnimport (arg argv 0) (arg argv 1) sh.fs = some (code, s')
  | .ls | .pwd | .rm => s' = sh.fs
  | .mkdir => ∃ code, cnmkdir (arg argv 0) sh.fs = some (code, s')
  | .rmdir => ∃ code, cnrmdir (arg argv 0) sh.fs = some (code, s')
  | .openFile => openMode (arg argv 1) = none ∧ s' = sh.fs ∨ ∃ mode dir fd dir' fs,
      openMode (arg argv 1) = some mode ∧ sh.fs.cwd = some dir ∧
      cnopen dir (arg argv 0) mode sh.fs = some (fd, dir', fs) ∧ s' = { fs with cwd := some dir' }
  | .read => ∃ out, cnread (toSize (strtol (arg argv 1))) (toInt16 (strtol (arg argv 0))) sh.fs =
      some (out, s')
  | .seek => argv.length = 2 ∧ ∃ code, cnseek (toInt16 (strtol (arg argv 0)))
      (toUInt32 (toInt16 (strtol (arg argv 1)))) sh.fs = some (code, s')
  | .tree => ∃ code out, cntree sh.treeText sh.fs = some (code, out, s')
  | .write => ∃ written, cnwrite (arg argv 1) (toInt16 (strtol (arg argv 0))) sh.fs = some (written, s')
  | .connect | .exit | .help | .mkfs => False

structure Idle (sh sh' : Shell) : Prop where
  fs : sh'.fs = sh.fs
  attached : sh'.attached = sh.attached
  vfs : sh'.vfs = sh.vfs

/-- What a command can do besides `mkfs`: nothing to the file system, or one call on a
mounted one. -/
def HandlerDone (sh : Shell) (argv : List Name) (sh' : Shell) (cmd : ShCmd) : Prop :=
  Idle sh sh' ∨ ∃ fs, sh.vfs = true ∧ FsCall sh argv fs cmd ∧ sh' = { sh with fs := fs }

section
variable {sh sh' : Shell}

omit [InodeLayout] in
theorem Idle.refl (sh : Shell) : Idle sh sh := ⟨rfl, rfl, rfl⟩

theorem checked_call {cmd : ShCmd} (run : checked cmd' counts argv sh body = .done (out, sh'))
    (calls : ∀ reply fs, counts argv.length = true → body = some (reply, fs) → FsCall sh argv fs cmd) :
    HandlerDone sh argv sh' cmd := by
  rcases checked_done run with rfl | ⟨reply, fs, on, counted, ran, rfl⟩
  · exact .inl (.refl _)
  · exact .inr ⟨fs, on, calls reply fs counted ran, rfl⟩

theorem handler_cases {cmd : ShCmd} (other : cmd ≠ .mkfs)
    (run : cmd.handler argv sh = .done (out, sh')) : HandlerDone sh argv sh' cmd := by
  cases cmd with
  | mkfs => exact absurd rfl other
  | cat =>
    rw [ShCmd.handler, shCat] at run
    refine checked_call run fun reply fs _ body => ?_
    obtain ⟨⟨code, bytes, fs'⟩, ran, body⟩ := Option.bind_eq_some_iff.mp body
    rw [stored_some body]
    exact ⟨code, bytes, ran⟩
  | cd =>
    rw [ShCmd.handler, shCd] at run
    exact checked_call run fun reply fs _ body => report_some body
  | close =>
    rw [ShCmd.handler, shClose] at run
    exact checked_call run fun reply fs _ body => report_some body
  | importFile =>
    rw [ShCmd.handler, shImport] at run
    exact checked_call run fun reply fs counted body => ⟨of_decide_eq_true counted, report_some body⟩
  | exportFile =>
    rw [ShCmd.handler, shExport] at run
    exact checked_call run fun reply fs counted body => ⟨of_decide_eq_true counted, report_some body⟩
  | ls =>
    rw [ShCmd.handler, shLs] at run
    refine checked_call run fun reply fs _ body => ?_
    obtain ⟨⟨code, listed⟩, _, body⟩ := Option.bind_eq_some_iff.mp body
    exact stored_some body
  | pwd =>
    rw [ShCmd.handler, shPwd] at run
    exact checked_call run fun reply fs _ body => stored_some body
  | rm =>
    rw [ShCmd.handler, shRm] at run
    refine checked_call run fun reply fs _ body => ?_
    cases body
    rfl
  | mkdir =>
    rw [ShCmd.handler, shMkdir] at run
    exact checked_call run fun reply fs _ body => report_some body
  | rmdir =>
    rw [ShCmd.handler, shRmdir] at run
    exact checked_call run fun reply fs _ body => report_some body
  | openFile =>
    rw [ShCmd.handler, shOpen] at run
    refine checked_call run fun reply fs _ body => ?_
    cases letter : openMode (arg argv 1) with
    | none =>
      rw [letter] at body
      cases body
      exact .inl ⟨letter, rfl⟩
    | some mode =>
      rw [letter] at body
      obtain ⟨dir, home, body⟩ := Option.bind_eq_some_iff.mp body
      obtain ⟨⟨fd, dir', fs'⟩, opens, body⟩ := Option.bind_eq_some_iff.mp body
      cases body
      exact .inr ⟨mode, dir, fd, dir', fs', letter, home, opens, rfl⟩
  | read =>
    rw [ShCmd.handler, shRead] at run
    refine checked_call run fun reply fs _ body => ?_
    obtain ⟨⟨bytes, fs'⟩, ran, body⟩ := Option.bind_eq_some_iff.mp body
    dsimp only at body
    split at body
    · cases body
      exact ⟨bytes, ran⟩
    · split at body
      · cases body
      · rw [stored_some body]
        exact ⟨bytes, ran⟩
  | seek =>
    rw [ShCmd.handler, shSeek] at run
    exact checked_call run fun reply fs counted body => ⟨of_decide_eq_true counted, report_some body⟩
  | tree =>
    rw [ShCmd.handler, shTree] at run
    refine checked_call run fun reply fs _ body => ?_
    obtain ⟨⟨code, listed, fs'⟩, ran, body⟩ := Option.bind_eq_some_iff.mp body
    rw [stored_some body]
    exact ⟨code, listed, ran⟩
  | write =>
    rw [ShCmd.handler, shWrite] at run
    refine checked_call run fun reply fs _ body => ?_
    obtain ⟨⟨written, fs'⟩, ran, body⟩ := Option.bind_eq_some_iff.mp body
    cases body
    exact ⟨written, ran⟩
  | connect =>
    rw [ShCmd.handler, shConnect] at run
    split at run
    · cases run
      exact .inl (.refl _)
    · split at run
      · cases run
      · cases run
        exact .inl (.refl _)
      · cases run
        exact .inl ⟨rfl, rfl, rfl⟩
  | exit =>
    rw [ShCmd.handler, shExit] at run
    split at run
    · split at run
      · cases run
        exact .inl ⟨rfl, rfl, rfl⟩
      · cases run
        exact .inl ⟨rfl, rfl, rfl⟩
    · cases run
      exact .inl ⟨rfl, rfl, rfl⟩
  | help =>
    rw [(shHelp_done run).1]
    exact .inl (.refl _)

end

def mkfsLine : Name := [109, 107, 102, 115, 10]

end CdnwSh
