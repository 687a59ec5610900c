import CdnwSh.ShellRuns

/-! The commands that only look: `cat`, `cd`, `ls`, `pwd`, `read`, `tree`, `help`, `export`
and `open`, `seek` and `close` for reading. They leave the volume as it is, but for `export`,
whose handler calls `cnimport`, and a `seek` past the end of the file. -/
namespace CdnwSh

open PartialRun

def Shell.fdArg (sh : Shell) (argv : List Name) : Option FdEntry :=
  (fdSlot (toInt16 (strtol (arg argv 0)))).map sh.fs.fdTbl

def OnReadFd (sh : Shell) (argv : List Name) : Prop :=
  ∀ fde, sh.fdArg argv = some fde → fde.state = FD_READ

/-- The commands that promise to change nothing. -/
def LooksOnly (sh : Shell) (argv : List Name) : ShCmd → Prop
  | .cat | .cd | .ls | .pwd | .read | .tree | .help | .exportFile => True
  | .openFile => openMode (arg argv 1) ≠ some FD_WRITE
  | .seek | .close => OnReadFd sh argv
  | _ => False

/-- The seek stays within the size that the descriptor knows. -/
def SeekInside (sh : Shell) (argv : List Name) : Prop :=
  ∀ fde, sh.fdArg argv = some fde →
    ¬ fde.inode.size < fde.cursor + toUInt32 (toInt16 (strtol (arg argv 1)))

/-- Not an `export` that gets to its call, and no seek past the end. -/
def Harmless (sh : Shell) (argv : List Name) : ShCmd → Prop
  | .exportFile => sh.vfs = false ∨ argv.length ≠ 2
  | .seek => sh.vfs = false ∨ argv.length ≠ 2 ∨ SeekInside sh argv
  | _ => True

section
variable [InodeLayout]

variable {sh sh' : Shell}

theorem LooksOnly.vol {cmd : ShCmd} (looks : LooksOnly sh argv cmd) (harmless : Harmless sh argv cmd)
    (run : cmd.handler argv sh = .done (out, sh')) : sh'.fs.vol = sh.fs.vol := by
  have other : cmd ≠ .mkfs := by
    rintro rfl
    exact looks
  rcases handler_cases other run with idle | ⟨fs, on, called, rfl⟩
  · rw [idle.fs]
  cases cmd with
  | cat =>
    obtain ⟨code, bytes, ran⟩ := called
    exact cncat_vol ran
  | cd =>
    obtain ⟨code, ran⟩ := called
    exact (cncd_only ran).vol
  | ls => rw [called]
  | pwd => rw [called]
  | read =>
    obtain ⟨bytes, ran⟩ := called
    exact cnread_vol ran
  | tree =>
    obtain ⟨code, listed, ran⟩ := called
    exact (cntree_only ran).vol
  | help => exact absurd called id
  | exportFile =>
    rcases harmless with off | count
    · rw [on] at off
      cases off
    · exact absurd called.1 count
  | openFile =>
    rcases called with ⟨_, rfl⟩ | ⟨mode, dir, fd, dir', fs', letter, _, opens, rfl⟩
    · rfl
    · have reads : mode ≠ FD_WRITE := by
        rintro rfl
        exact looks letter
      have kept := cnopen_vol reads opens
      exact kept
  | close =>
    obtain ⟨code, ran⟩ := called
    exact cnclose_vol ran
  | seek =>
    obtain ⟨two, code, ran⟩ := called
    rcases harmless with off | count | inside
    · rw [on] at off
      cases off
    · exact absurd two count
    · exact cnseek_vol (fun n slot => inside _ (by rw [Shell.fdArg, slot]; rfl)) ran
  | _ => exact absurd looks id

def LooksOnlyLine (sh : Shell) (line : Name) : Prop :=
  ∃ cmd argv, parsed line = some (cmd, argv) ∧ LooksOnly sh argv cmd

def HarmlessLine (sh : Shell) (line : Name) : Prop :=
  ∀ cmd argv, parsed line = some (cmd, argv) → LooksOnly sh argv cmd → Harmless sh argv cmd

theorem looksOnly_step (harmless : HarmlessLine sh line) (looks : LooksOnlyLine sh line)
    (run : sh.step line = some (reply, sh')) : sh'.fs.vol = sh.fs.vol := by
  rcases Shell.step_cases run with ⟨_, rfl⟩ | ⟨cmd, argv, out, called, handled⟩
  · rfl
  · obtain ⟨cmd', argv', called', looks⟩ := looks
    rw [called] at called'
    cases called'
    exact looks.vol (harmless cmd argv called looks) handled

/-- In every run of the shell, whatever the other lines do, the lines that only look leave
the disk, the counters and the bitmaps as they were. -/
theorem read_only_commands (steps : Steps Shell.step HarmlessLine sh trace sh') :
    ∀ before line reply after, trace = before ++ (line, reply) :: after → ∃ m m',
      Steps Shell.step HarmlessLine sh before m ∧ m.step line = some (reply, m') ∧
      (LooksOnlyLine m line → m'.fs.vol = m.fs.vol) := by
  rintro before line reply after rfl
  obtain ⟨m, first, others⟩ := steps.split
  cases others with
  | @cons _ _ _ m' _ _ harmless moved _ =>
    exact ⟨m, m', first, moved, fun looks => looksOnly_step harmless looks moved⟩

end

section Lp64
attribute [local instance] lp64

/-- The shell with a fresh file system and a host on which every file holds one byte. -/
def oneByteShell : Shell :=
  Shell.started (fun _ => Block.zero) ⟨fun _ => some [7], fun _ => 1, fun _ => some 1, .full⟩
    ⟨fun _ _ => .refused, 0, []⟩ ⟨fun _ => [], fun _ => []⟩

def listLine : Name := [108, 115, 10]
def exportLine : Name := [101, 120, 112, 111, 114, 116, 32, 104, 32, 103, 10]

theorem oneByteShell_mkfs : (oneByteShell.step mkfsLine).isSome := by decide +kernel

def madeShell : Shell := ((oneByteShell.step mkfsLine).get oneByteShell_mkfs).2

theorem madeShell_eq : ∃ reply, oneByteShell.step mkfsLine = some (reply, madeShell) :=
  ⟨_, (Option.some_get oneByteShell_mkfs).symm⟩

theorem read_only_commands_ls : ∃ reply sh, madeShell.step listLine = some (reply, sh) ∧
    sh.fs.vol = madeShell.fs.vol := by
  have defined : (madeShell.step listLine).isSome := by decide +kernel
  obtain ⟨⟨reply, sh⟩, listed⟩ := Option.isSome_iff_exists.mp defined
  have called : parsed listLine = some (.ls, []) := by decide +kernel
  have harmless : HarmlessLine madeShell listLine := by
    intro cmd argv called' _
    rw [called] at called'
    cases called'
    trivial
  obtain ⟨m, m', first, moved, kept⟩ :=
    read_only_commands (.single harmless listed) [] listLine reply [] rfl
  cases first
  cases listed.symm.trans moved
  exact ⟨reply, sh, listed, kept ⟨.ls, [], called, trivial⟩⟩

/-- After mkfs an export takes an inode, for the host file it imports. -/
theorem read_only_commands_export : (∃ reply, oneByteShell.step mkfsLine = some (reply, madeShell)) ∧
    ∃ reply sh, madeShell.step exportLine = some (reply, sh) ∧ LooksOnlyLine madeShell exportLine ∧
      sh.fs.vol ≠ madeShell.fs.vol := by
  have defined : (madeShell.step exportLine).isSome := by decide +kernel
  have before : freeInodeCount madeShell.fs.vol.superblkCache = 6399 := by decide +kernel
  have after : (madeShell.step exportLine).map (fun out => freeInodeCount out.2.fs.vol.superblkCache) =
      some 6398 := by
    decide +kernel
  obtain ⟨⟨reply, sh⟩, run⟩ := Option.isSome_iff_exists.mp defined
  refine ⟨madeShell_eq, reply, sh, run, ⟨.exportFile, [[104], [103]], by decide +kernel, trivial⟩,
    fun same => ?_⟩
  rw [run, Option.map_some, same, before] at after
  exact absurd after (by decide)

end Lp64

end CdnwSh
