import CdnwSh.ShellRuns
import CdnwSh.Server
import CdnwSh.Mount

/-! The life of a volume: `mkfs` attaches the device and mounts, `clean_svr` unmounts and
detaches. Both find what they need exactly when `mkfs` runs once before the exit. -/
namespace CdnwSh

open PartialRun

section
variable [InodeLayout]

def Server.runs (sv : Server) : Event → Option Name
  | .stdin line => if sv.shell.client = true ∧ startsExit line = false then none else some line
  | .ready fd accepted recv =>
    if fd = (onListen fd accepted sv).clientfd ∧ errorBranch (recvCmd recv) = none ∧
        startsExit (cstr (recvCmd recv)) = false then some (cstr (recvCmd recv)) else none

def callsMkfs (line : Name) : Bool := (parsed line).map Prod.fst = some .mkfs

def mkfsRuns (trace : List (Event × List Act)) : Nat :=
  ((trace.flatMap Prod.snd).filterMap Act.line).countP callsMkfs

/-- The device is attached, and superblock pointer and `cwd` are set. -/
structure Mounted (sh : Shell) : Prop where
  attached : sh.attached = true
  superblk : sh.fs.superblk = true
  cwd : sh.fs.cwd ≠ none

/-- The exit that leaves the loop of `run`, which tests the status once for all events of a
turn; here every event is a turn of its own. -/
def EndsRun (sv : Server) (e : Event) (sv' : Server) : Prop :=
  ∃ acts, sv.step e = some (acts, sv') ∧ sv'.shell.running = false

/-- `blockdev_attach` is called on a detached device, and `clean_svr` finds a mounted volume
and comes to its end. -/
def LifeSafe (sv : Server) (e : Event) : Prop :=
  (∀ line, sv.runs e = some line → callsMkfs line = true → sv.shell.attached = false) ∧
  ∀ sv', EndsRun sv e sv' → Mounted sv'.shell ∧ ∃ sh, cleanSvr sv'.shell = .done sh

/-- `mkfs` runs for the first time, the exit finds that it ran once. -/
def OneMkfs (trace : List (Event × List Act)) (sv : Server) (e : Event) : Prop :=
  (∀ line, sv.runs e = some line → callsMkfs line = true → mkfsRuns trace = 0) ∧
  ∀ sv', EndsRun sv e sv' → mkfsRuns trace = 1

structure Blank (sh : Shell) : Prop where
  attached : sh.attached = false
  vfs : sh.vfs = false
  superblk : sh.fs.superblk = false

structure Live (sh : Shell) : Prop where
  mounted : Mounted sh
  vfs : sh.vfs = true

/-- The globals that a mounted file system needs stay set. -/
def Stays (s s' : Fs) : Prop :=
  s'.superblk = s.superblk ∧ (s.cwd ≠ none → s'.cwd ≠ none) ∧ s'.cwdClosed = s.cwdClosed

section
variable {s s' : Fs} {sh sh' : Shell}

omit [InodeLayout] in
theorem Stays.refl (s : Fs) : Stays s s := ⟨rfl, id, rfl⟩

omit [InodeLayout] in
theorem Stays.trans (first : Stays s s') (second : Stays s' s'') : Stays s s'' :=
  ⟨second.1.trans first.1, fun there => second.2.1 (first.2.1 there), second.2.2.trans first.2.2⟩

omit [InodeLayout] in
theorem OnlyFiles.stays (only : OnlyFiles s s') : Stays s s' := by
  rw [only]
  exact .refl s

theorem cncd_stays (run : cncd name s = some (code, s')) : Stays s s' := by
  rcases cncd_cases run with ⟨_, rfl, _⟩ | ⟨h, _, _, rfl⟩
  · exact .refl _
  · exact ⟨rfl, fun _ => by simp, rfl⟩

theorem cntree_stays (run : cntree t s = some (code, out, s')) : Stays s s' :=
  cntree_related Stays.refl (fun _ _ _ => Stays.trans) (fun _ _ _ _ => cncd_stays) run

theorem FsCall.stays {cmd : ShCmd} (called : FsCall sh argv s' cmd) : Stays sh.fs s' := by
  cases cmd with
  | cat =>
    obtain ⟨code, bytes, ran⟩ := called
    exact (cncat_files ran).stays
  | cd =>
    obtain ⟨code, ran⟩ := called
    exact cncd_stays ran
  | close =>
    obtain ⟨code, ran⟩ := called
    exact (cnclose_files ran).stays
  | importFile =>
    obtain ⟨_, code, ran⟩ := called
    exact (cnimport_files ran).stays
  | exportFile =>
    obtain ⟨_, code, ran⟩ := called
    exact (cnimport_files ran).stays
  | ls => exact called ▸ .refl _
  | pwd => exact called ▸ .refl _
  | rm => exact called ▸ .refl _
  | mkdir =>
    obtain ⟨code, ran⟩ := called
    exact (cnmkdir_only ran).files.stays
  | rmdir =>
    obtain ⟨code, ran⟩ := called
    exact (cnrmdir_only ran).files.stays
  | openFile =>
    rcases called with ⟨_, rfl⟩ | ⟨mode, dir, fd, dir', fs, _, _, opens, rfl⟩
    · exact .refl _
    · have kept := (cnopen_files opens).stays
      exact ⟨kept.1, fun _ => by simp, kept.2.2⟩
  | read =>
    obtain ⟨bytes, ran⟩ := called
    exact (cnread_used ran).files.stays
  | seek =>
    obtain ⟨_, code, ran⟩ := called
    exact (cnseek_used ran).files.stays
  | tree =>
    obtain ⟨code, listed, ran⟩ := called
    exact cntree_stays ran
  | write =>
    obtain ⟨written, ran⟩ := called
    exact (cnwrite_used ran).files.stays
  | _ => exact absurd called id

/-- Only `mkfs` brings a volume to life, and no other command ends its life. -/
theorem handler_life {cmd : ShCmd} (other : cmd ≠ .mkfs) (run : cmd.handler argv sh = .done (out, sh')) :
    (Blank sh → Blank sh') ∧ (Live sh → Live sh') := by
  rcases handler_cases other run with idle | ⟨fs, on, called, rfl⟩
  · refine ⟨fun blank => ⟨?_, ?_, ?_⟩, fun live => ⟨⟨?_, ?_, ?_⟩, ?_⟩⟩
    · rw [idle.attached, blank.attached]
    · rw [idle.vfs, blank.vfs]
    · rw [idle.fs, blank.superblk]
    · rw [idle.attached, live.mounted.attached]
    · rw [idle.fs, live.mounted.superblk]
    · rw [idle.fs]
      exact live.mounted.cwd
    · rw [idle.vfs, live.vfs]
  · obtain ⟨superblk, cwd, _⟩ := called.stays
    refine ⟨fun blank => ?_, fun live => ⟨⟨live.mounted.attached, ?_, cwd live.mounted.cwd⟩, live.vfs⟩⟩
    · rw [blank.vfs] at on
      cases on
    · exact superblk.trans live.mounted.superblk

theorem cnopendir_root (run : cnopendir s [slash] = some r) : r ≠ none := by
  rw [cnopendir, if_neg (by decide)] at run
  obtain ⟨dir, _, run⟩ := Option.bind_eq_some_iff.mp run
  rw [if_pos rfl] at run
  cases run
  simp

theorem shMkfs_life (run : shMkfs argv sh = .done (out, sh')) :
    sh.attached = false ∧ Live sh' ∧ sh'.running = sh.running := by
  obtain ⟨sh₁, attaches, run⟩ := Outcome.bind_eq_done run
  rw [blockdevAttach] at attaches
  split at attaches
  · cases attaches
  next detached =>
    cases attaches
    obtain ⟨⟨code, fs₁⟩, makes, run⟩ := Option.bind_eq_some_iff.mp (Outcome.ofOption_eq_done run)
    obtain ⟨⟨code', fs₂⟩, mounts, run⟩ := Option.bind_eq_some_iff.mp run
    cases run
    obtain ⟨_, sb, cwd, _, _, superblk, _, here, s₀, _, opens⟩ := cnmount_eq mounts
    exact ⟨by simpa using detached, ⟨⟨rfl, superblk, here ▸ cnopendir_root opens⟩, rfl⟩, rfl⟩

def Stage (sh : Shell) (count : Nat) : Prop := count = 0 ∧ Blank sh ∨ count = 1 ∧ Live sh

omit [InodeLayout] in
theorem Stage.attached (stage : Stage sh n) : sh.attached = false ↔ n = 0 := by
  rcases stage with ⟨rfl, blank⟩ | ⟨rfl, live⟩
  · simp [blank.attached]
  · simp [live.mounted.attached]

theorem shell_stage (stage : Stage sh n) (run : sh.step line = some (reply, sh')) :
    Stage sh' (n + if callsMkfs line then 1 else 0) ∧
      (callsMkfs line = true → sh'.running = sh.running) := by
  rcases Shell.step_cases run with ⟨called, rfl⟩ | ⟨cmd, argv, out, called, handled⟩
  · have other : callsMkfs line = false := by rw [callsMkfs, called]; rfl
    rw [other]
    exact ⟨stage, fun none => by cases none⟩
  · by_cases makes : cmd = .mkfs
    · subst makes
      rw [ShCmd.handler] at handled
      have here : callsMkfs line = true := by rw [callsMkfs, called]; rfl
      obtain ⟨detached, live, running⟩ := shMkfs_life handled
      rw [here, stage.attached.mp detached]
      exact ⟨.inr ⟨rfl, live⟩, fun _ => running⟩
    · have other : callsMkfs line = false := by
        rw [callsMkfs, called]
        simpa using makes
      obtain ⟨blank, live⟩ := handler_life makes handled
      rw [other]
      refine ⟨?_, fun none => by cases none⟩
      rcases stage with ⟨rfl, before⟩ | ⟨rfl, before⟩
      · exact .inl ⟨rfl, blank before⟩
      · exact .inr ⟨rfl, live before⟩

end

variable {sv sv' : Server}

omit [InodeLayout] in
theorem onListen_shell : (onListen fd accepted sv).shell = sv.shell := by
  rw [onListen]
  split
  · rw [acceptClient]
    split <;> rfl
  · rfl

omit [InodeLayout] in
theorem Quiet.lines (quiet : Quiet acts) : acts.filterMap Act.line = [] :=
  List.filterMap_eq_nil_iff.mpr quiet

/-- What an event runs on the shell, and that the trace shows it. -/
def ShellRan (sv : Server) (e : Event) (acts : List Act) (sv' : Server) : Prop :=
  (sv.runs e = none ∧ acts.filterMap Act.line = [] ∧ sv'.shell = sv.shell) ∨
  ∃ line reply, sv.runs e = some line ∧ acts.filterMap Act.line = [line] ∧
    sv.shell.step line = some (reply, sv'.shell)

theorem server_runs (run : sv.step e = some (acts, sv')) : ShellRan sv e acts sv' := by
  have handled := Outcome.value_eq_some run
  cases e with
  | stdin line =>
    rw [Server.handle] at handled
    rcases onStdin_cases handled with
      ⟨client, other, rfl, rfl⟩ | ⟨passes, reply, shell, first, ran, quiet, rfl, rfl⟩
    · exact .inl ⟨if_pos ⟨client, other⟩, rfl, rfl⟩
    · refine .inr ⟨line, reply, if_neg ?_, ?_, ?_⟩
      · rintro ⟨client, other⟩
        rw [passes client] at other
        cases other
      · rw [List.filterMap_append, quiet.lines]
        rfl
      · rw [Shell.step, ran]
        rfl
  | ready fd accepted recv =>
    rw [Server.handle] at handled
    rcases onReady_cases handled with ⟨other, rfl, quiet⟩ | ⟨client, first, more, rfl, quiet, runs⟩
    · exact .inl ⟨if_neg fun here => other here.1, quiet.lines, onListen_shell⟩
    · rw [ShellRan, List.filterMap_append, quiet.lines, List.append_nil]
      rcases onClient_cases runs with ⟨code, errno, error, rfl, rfl⟩ | ⟨_, exits, rfl, rfl⟩ |
        ⟨reply, shell, fine, _, stays, ran, rfl, rfl⟩
      · refine .inl ⟨if_neg fun here => ?_, rfl, onListen_shell⟩
        rw [error] at here
        cases here.2.1
      · refine .inl ⟨if_neg fun here => ?_, rfl, onListen_shell⟩
        rw [exits] at here
        cases here.2.2
      · refine .inr ⟨_, reply, if_pos ⟨client, fine, stays⟩, rfl, ?_⟩
        rw [onListen_shell] at ran
        rw [Shell.step, ran]
        rfl

/-- An event takes a volume from one stage to the next. -/
theorem server_stage (stage : Stage sv.shell n) (run : sv.step e = some (acts, sv')) :
    Stage sv'.shell (n + mkfsRuns [(e, acts)]) ∧
      (mkfsRuns [(e, acts)] ≠ 0 → sv'.shell.running = sv.shell.running) := by
  have count : mkfsRuns [(e, acts)] = (acts.filterMap Act.line).countP callsMkfs := by
    simp [mkfsRuns]
  rw [count]
  rcases server_runs run with ⟨_, lines, same⟩ | ⟨line, reply, _, lines, ran⟩
  · rw [lines, same]
    exact ⟨stage, fun some => absurd rfl some⟩
  · obtain ⟨after, running⟩ := shell_stage stage ran
    rw [lines, List.countP_singleton]
    refine ⟨after, fun some => running ?_⟩
    by_contra other
    exact some (if_neg other)

def Running (sv : Server) (_ : Event) : Prop := sv.shell.running = true

theorem server_run_stage (steps : Steps Server.step Running sv trace sv')
    (stage : Stage sv.shell n) : Stage sv'.shell (n + mkfsRuns trace) := by
  induction steps generalizing n with
  | nil => exact stage
  | @cons sv e acts m trace sv' _ moved _ ih =>
    have split : mkfsRuns ((e, acts) :: trace) = mkfsRuns [(e, acts)] + mkfsRuns trace := by
      simp [mkfsRuns]
    rw [split, ← Nat.add_assoc]
    exact ih (server_stage stage moved).1

omit [InodeLayout] in
theorem Mounted.cleans {sh : Shell} (mounted : Mounted sh) : ∃ sh', cleanSvr sh = .done sh' := by
  obtain ⟨cwd, here⟩ := Option.ne_none_iff_exists'.mp mounted.cwd
  have after (sh : Shell) (superblk : sh.fs.superblk = true) (here : sh.fs.cwd = some cwd)
      (attached : sh.attached = true) :
      ∃ sh', ((Outcome.ofOption (cnumount sh.fs)).bind fun result =>
        blockdevDetach { sh with fs := result.2 }) = .done sh' := by
    rw [cnumount_some here superblk]
    exact ⟨_, if_pos attached⟩
  rw [cleanSvr]
  split
  · exact after (rclose sh) mounted.superblk here mounted.attached
  · exact after sh mounted.superblk here mounted.attached

omit [InodeLayout] in
theorem Stage.mounted (stage : Stage sh n) : Mounted sh ↔ n = 1 := by
  rcases stage with ⟨rfl, blank⟩ | ⟨rfl, live⟩
  · refine ⟨fun mounted => ?_, fun one => by cases one⟩
    have attached := mounted.attached
    rw [blank.attached] at attached
    cases attached
  · exact ⟨fun _ => rfl, fun _ => live.mounted⟩

theorem EndsRun.stage (stage : Stage sv.shell n) (on : sv.shell.running = true)
    (ends : EndsRun sv e sv') : Stage sv'.shell n := by
  obtain ⟨acts, run, off⟩ := ends
  obtain ⟨after, running⟩ := server_stage stage run
  have none : mkfsRuns [(e, acts)] = 0 := by
    by_contra some
    rw [running some, on] at off
    cases off
  rwa [none] at after

/-- In every run of the server from the start of the process, at every next event: the
device is attached only while it is detached and the exit finds a mounted volume, exactly
when `mkfs` runs once. -/
theorem life_cycle (steps : Steps Server.step Running
      ⟨Shell.started disk host net treeText, svrfd, -1, false⟩ trace sv)
    (on : sv.shell.running = true) (e : Event) : LifeSafe sv e ↔ OneMkfs trace sv e := by
  have start : Stage (Shell.started disk host net treeText) 0 := .inl ⟨rfl, rfl, rfl, rfl⟩
  have stage := server_run_stage steps start
  rw [Nat.zero_add] at stage
  constructor
  · rintro ⟨detached, ended⟩
    refine ⟨fun line runs makes => stage.attached.mp (detached line runs makes), fun sv' ends => ?_⟩
    exact (ends.stage stage on).mounted.mp (ended sv' ends).1
  · rintro ⟨first, once⟩
    refine ⟨fun line runs makes => stage.attached.mpr (first line runs makes), fun sv' ends => ?_⟩
    have mounted := (ends.stage stage on).mounted.mpr (once sv' ends)
    exact ⟨mounted, mounted.cleans⟩

end

section Lp64
attribute [local instance] lp64

def exitLine : Name := [101, 120, 105, 116, 10]

theorem mkfs_defined : (idleServer.step (.stdin mkfsLine)).isSome := by decide +kernel

def mountedServer : Server := ((idleServer.step (.stdin mkfsLine)).get mkfs_defined).2

theorem mountedServer_eq : ∃ acts, idleServer.step (.stdin mkfsLine) = some (acts, mountedServer) ∧
    mkfsRuns [(.stdin mkfsLine, acts)] = 1 :=
  ⟨_, (Option.some_get mkfs_defined).symm, by decide +kernel⟩

/-- One `mkfs` and the exit. -/
theorem life_cycle_once : LifeSafe mountedServer (.stdin exitLine) := by
  obtain ⟨acts, run, once⟩ := mountedServer_eq
  refine (life_cycle (.single (show Running idleServer (.stdin mkfsLine) from rfl) run)
    (by decide +kernel) (.stdin exitLine)).mpr ⟨fun line runs makes => ?_, fun _ _ => once⟩
  have quiet : mountedServer.runs (.stdin exitLine) = some exitLine := by decide +kernel
  rw [quiet] at runs
  cases runs
  exact absurd makes (by decide +kernel)

/-- An exit before any `mkfs` finds no superblock, a second `mkfs` an attached device. -/
theorem life_cycle_broken : ¬ LifeSafe idleServer (.stdin exitLine) ∧
    (∃ acts, idleServer.step (.stdin mkfsLine) = some (acts, mountedServer)) ∧
    ¬ LifeSafe mountedServer (.stdin mkfsLine) := by
  refine ⟨fun safe => ?_, ?_, fun safe => ?_⟩
  · obtain ⟨_, ended⟩ := safe
    obtain ⟨mounted, _⟩ := ended _ ⟨_, rfl, rfl⟩
    cases mounted.superblk
  · obtain ⟨acts, run, _⟩ := mountedServer_eq
    exact ⟨acts, run⟩
  · obtain ⟨detached, _⟩ := safe
    have attached : mountedServer.shell.attached = true := by decide +kernel
    rw [detached mkfsLine (by decide +kernel) (by decide +kernel)] at attached
    cases attached

end Lp64

end CdnwSh
