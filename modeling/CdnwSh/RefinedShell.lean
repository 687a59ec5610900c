import CdnwSh.Console
import CdnwSh.LifeCycle
import CdnwSh.Restart
import CdnwSh.TreeWalk
import CdnwSh.WorkingDirectory

/-! The shell is a `Console`: every line answers and does what the console says, and so does
every run of the server, whoever its lines come from. -/
namespace CdnwSh

open NameTree PartialRun Simulation

section
variable [InodeLayout]

def Shell.session (sh : Shell) : Session := ⟨sh.fs, fun _ => none⟩

/-- The file system of a console that is mounted is on the volume. -/
structure Displays (net : Net) (t : TreeText) (sh : Shell) (c : Console) : Prop where
  vfs : sh.vfs = c.mounted
  attached : sh.attached = c.mounted
  blank : c.mounted = false → c.volume = .new sh.fs.host
  volume : c.mounted = true → ∃ own, Follows sh.session own c.volume
  path : c.mounted = true → sh.fs.cwdStr = c.path
  running : sh.running = c.running
  client : sh.client = c.client
  net : sh.net = net
  treeText : sh.treeText = t

section
variable {sh sh' : Shell} {c : Console} {cmd : ShCmd} {t : TreeText} {net : Net} {own : Owner}

theorem Displays.checked {body : Option (Option Name × Fs)} (displays : Displays net t sh c)
    (onVolume : cmd.onVolume = true) (run : checked cmd cmd.argc argv sh body = .done (out, sh'))
    (does : ∀ reply fs, c.mounted = true → cmd.argc argv.length = true → body = some (reply, fs) →
      ∃ c', Console.Does net t c cmd argv (reply.getD (mesgErr SH_ERR_UNK)) c' ∧
        Displays net t { sh with fs := fs } c') :
    ∃ c', Console.Does net t c cmd argv out c' ∧ Displays net t sh' c' := by
  unfold CdnwSh.checked at run
  split at run
  next off =>
    cases run
    exact ⟨c, .unmounted (displays.vfs.symm.trans off) onVolume, displays⟩
  next on =>
    have mounted : c.mounted = true := displays.vfs.symm.trans (by simpa using on)
    split at run
    next few =>
      cases run
      exact ⟨c, .usage mounted onVolume few, displays⟩
    next enough =>
      obtain ⟨⟨reply, fs⟩, ran, run⟩ := Option.bind_eq_some_iff.mp (Outcome.ofOption_eq_done run)
      cases run
      exact does reply fs mounted (by simpa using enough) ran

def BodyRuns (sh : Shell) (cmd : ShCmd) (argv : List Name) (op : Op)
    (body : Option (Option Name × Fs)) : Prop :=
  ∀ reply fs, body = some (reply, fs) → ∃ r, sh.session.step op = some (r, ⟨fs, fun _ => none⟩) ∧
    cmd.Fits argv r ∧ reply.getD (mesgErr SH_ERR_UNK) = cmd.answer r

theorem report_runs {result : Option (Int × Fs)} {op : Op}
    (step : sh.session.step op = sh.session.global result)
    (fits : ∀ r, cmd.Fits argv r) (fails : ∀ r, cmd.fails r = decide (r.code < 0))
    (success : ∀ r, cmd.success r = answer) : BodyRuns sh cmd argv op (report result answer) := by
  intro reply fs run
  obtain ⟨⟨code, fs⟩, ran, run⟩ := Option.bind_eq_some_iff.mp run
  cases run
  refine ⟨⟨code, []⟩, by rw [step, ran]; rfl, fits _, ?_⟩
  rw [ShCmd.answer, fails, success]
  by_cases failed : code < 0 <;> simp [failed]

theorem bytes_runs {result : Option (Option Name × Fs)} {op : Op}
    (step : ∀ reply fs, result = some (reply, fs) → ∃ r, sh.session.step op = some (r, ⟨fs, fun _ => none⟩) ∧
      cmd.Fits argv r ∧ reply = if cmd.fails r then none else some (cmd.success r)) :
    BodyRuns sh cmd argv op result := by
  intro reply fs run
  obtain ⟨r, ran, fits, rfl⟩ := step reply fs run
  refine ⟨r, ran, fits, ?_⟩
  rw [ShCmd.answer]
  split <;> rfl

omit [InodeLayout] in
/-- What is stored has room for its NUL. -/
theorem stored_eq {size : Nat} {s s' : Fs} (run : stored size code out s = some (reply, s')) :
    out.length < size ∧ reply = (if code < 0 then none else some (cstr out)) ∧ s' = s := by
  rw [stored] at run
  split at run
  · cases run
  next room =>
    cases run
    exact ⟨Nat.lt_of_succ_le (Nat.le_of_not_lt room), rfl, rfl⟩

omit [InodeLayout] in
theorem shRead_body {bytes : Nat} {read : List UInt8} {granted : Bool} {s s' : Fs}
    (run : (if read = [] then some (none, s) else if granted = false then none
      else stored bytes 0 read s) = some (reply, s')) :
    read = [] ∧ reply = none ∧ s' = s ∨
      read ≠ [] ∧ read.length < bytes ∧ reply = some (cstr read) ∧ s' = s := by
  split at run
  next nothing =>
    cases run
    exact .inl ⟨nothing, rfl, rfl⟩
  next something =>
    split at run
    · cases run
    · obtain ⟨small, rfl, rfl⟩ := stored_eq run
      exact .inr ⟨something, small, if_neg (by decide), rfl⟩

theorem handler_checked (sh : Shell) {op : Op} (is : cmd.op argv = some op) :
    ∃ body, cmd.handler argv sh = checked cmd cmd.argc argv sh body ∧
      BodyRuns sh cmd argv op body := by
  cases cmd with
  | connect | exit | help | mkfs | pwd | rm | tree => cases is
  | close | seek | mkdir | rmdir | cd | importFile | exportFile =>
    cases is
    exact ⟨_, rfl, report_runs rfl (fun _ => trivial) (fun _ => rfl) fun _ => rfl⟩
  | openFile =>
    obtain ⟨mode, known, rfl⟩ := Option.map_eq_some_iff.mp is
    refine ⟨_, rfl, bytes_runs fun reply fs run => ?_⟩
    rw [known] at run
    obtain ⟨dir, here, run⟩ := Option.bind_eq_some_iff.mp run
    obtain ⟨⟨fd, dir', fs'⟩, opens, run⟩ := Option.bind_eq_some_iff.mp run
    cases run
    refine ⟨⟨fd, []⟩, ?_, trivial, ?_⟩
    · change (sh.fs.cwd.bind fun d => _) = _
      rw [here, Option.bind_some]
      change (cnopen _ _ _ sh.fs).bind _ = _
      rw [opens]
      rfl
    · by_cases failed : toInt8 fd < 0 <;> simp [ShCmd.fails, ShCmd.success, failed]
  | read =>
    cases is
    refine ⟨_, rfl, bytes_runs fun reply fs run => ?_⟩
    obtain ⟨⟨read, fs'⟩, reads, run⟩ := Option.bind_eq_some_iff.mp run
    dsimp only at run
    refine ⟨⟨read.length, read⟩, ?_, ?_⟩
    · obtain rfl : fs' = fs := by
        rcases shRead_body run with ⟨_, _, rfl⟩ | ⟨_, _, _, rfl⟩ <;> rfl
      change (cnread _ _ sh.fs).bind _ = _
      rw [reads]
      rfl
    · rcases shRead_body run with ⟨failed, rfl, _⟩ | ⟨some, small, rfl, _⟩
      · exact ⟨.inl failed, by simp [ShCmd.fails, failed]⟩
      · exact ⟨.inr small, by simp [ShCmd.fails, ShCmd.success, some]⟩
  | write =>
    cases is
    refine ⟨_, rfl, bytes_runs fun reply fs run => ?_⟩
    obtain ⟨⟨written, fs'⟩, writes, run⟩ := Option.bind_eq_some_iff.mp run
    cases run
    refine ⟨⟨written, []⟩, ?_, trivial, ?_⟩
    · change (cnwrite _ _ sh.fs).bind _ = _
      rw [writes]
      rfl
    · by_cases failed : written = 0 <;> simp [ShCmd.fails, ShCmd.success, failed]
  | cat =>
    cases is
    refine ⟨_, rfl, bytes_runs fun reply fs run => ?_⟩
    obtain ⟨⟨code, out, fs'⟩, cats, run⟩ := Option.bind_eq_some_iff.mp run
    obtain ⟨small, rfl, rfl⟩ := stored_eq run
    refine ⟨⟨code, out⟩, ?_, small, ?_⟩
    · change (cncat _ sh.fs).bind _ = _
      rw [cats]
      rfl
    · by_cases failed : code < 0 <;> simp [ShCmd.fails, ShCmd.success, failed]
  | ls =>
    cases is
    refine ⟨_, rfl, bytes_runs fun reply fs run => ?_⟩
    obtain ⟨⟨code, out⟩, lists, run⟩ := Option.bind_eq_some_iff.mp run
    obtain ⟨small, rfl, rfl⟩ := stored_eq run
    refine ⟨⟨code, out⟩, ?_, small, ?_⟩
    · change (cnls _ sh.fs).bind _ = _
      rw [lists]
      rfl
    · by_cases failed : code < 0 <;> simp [ShCmd.fails, ShCmd.success, failed]

/-- Only `cd` changes the path. -/
theorem path_step {op : Op} {s' : Session} (is : cmd.op argv = some op)
    (run : sh.session.step op = some (r, s')) :
    s'.fs.cwdStr = Console.pathAfter sh.fs.cwdStr op r := by
  have kept {s : Fs} (only : OnlyFiles sh.fs s) : s.cwdStr = sh.fs.cwdStr := by rw [only]
  cases cmd with
  | connect | exit | help | mkfs | pwd | rm | tree => cases is
  | close =>
    cases is
    exact kept (cnclose_files (Session.global_eq run).1)
  | seek =>
    cases is
    exact kept (cnseek_used (Session.global_eq run).1).files
  | mkdir =>
    cases is
    exact kept (cnmkdir_only (Session.global_eq run).1).files
  | rmdir =>
    cases is
    exact kept (cnrmdir_only (Session.global_eq run).1).files
  | importFile | exportFile =>
    cases is
    exact kept (cnimport_files (Session.global_eq run).1)
  | cd =>
    cases is
    rcases cncd_cases (Session.global_eq run).1 with ⟨failed, same, _⟩ | ⟨h, moved, _, same⟩
    · rw [same, Console.pathAfter, if_pos (by rw [failed]; decide)]
      rfl
    · rw [same, Console.pathAfter, if_neg (by rw [moved]; decide)]
  | openFile =>
    obtain ⟨mode, _, rfl⟩ := Option.map_eq_some_iff.mp is
    obtain ⟨d, d', fs', _, opens, _, rfl⟩ := Session.onDir_eq run
    change fs'.cwdStr = sh.fs.cwdStr
    exact kept (cnopen_files opens)
  | read =>
    cases is
    exact kept (cnread_used (Session.read_eq run).1).files
  | write =>
    cases is
    obtain ⟨⟨written, fs'⟩, writes, run⟩ := Option.bind_eq_some_iff.mp run
    cases run
    exact kept (cnwrite_used writes).files
  | cat =>
    cases is
    obtain ⟨⟨code, out, fs'⟩, cats, run⟩ := Option.bind_eq_some_iff.mp run
    cases run
    exact kept (cncat_files cats)
  | ls =>
    cases is
    obtain ⟨⟨code, out⟩, _, run⟩ := Option.bind_eq_some_iff.mp run
    cases run
    rfl

theorem Displays.command {op : Op} (displays : Displays net t sh c) (is : cmd.op argv = some op)
    (ok : sh.vfs = true → cmd.argc argv.length = true → InLimits sh.session op)
    (run : cmd.handler argv sh = .done (out, sh')) :
    ∃ c', Console.Does net t c cmd argv out c' ∧ Displays net t sh' c' := by
  have onVolume : cmd.onVolume = true := by
    cases cmd <;> first | rfl | cases is
  obtain ⟨body, same, runs⟩ := handler_checked sh is
  rw [same] at run
  refine displays.checked onVolume run fun reply fs mounted enough ran => ?_
  obtain ⟨own, follows⟩ := displays.volume mounted
  obtain ⟨r, steps, fits, texts⟩ := runs reply fs ran
  obtain ⟨own', vol, moved, after⟩ := follows.step (ok (displays.vfs.trans mounted) enough) steps
  rw [texts]
  refine ⟨c.after op r vol, .command mounted enough is moved fits, ?_⟩
  exact { displays with
    blank := fun off => by cases mounted.symm.trans off
    volume := fun _ => ⟨own', after⟩
    path := fun _ => by
      change fs.cwdStr = Console.pathAfter c.path op r
      rw [← displays.path mounted]
      exact path_step is steps }

/-- The way through the subdirectories: nothing is changed when there are none, and otherwise
the directory is entered again with "..". -/
theorem Holds.tours {s s' : Fs} {node : Nodes} {cwd dir : DirPtr} {p : Iptr} {es rest : List DirEntry}
    (holds : Holds s.vol own node) (here : s.cwd = some cwd)
    (found : node cwd.inodeId = some (.dir p es)) (lists : dir.Lists rest)
    (inside : ∀ e ∈ rest, e ∈ records cwd.inodeId p es)
    (run : treedir t fuel indents dir s = some (out, s')) :
    (s' = s ∧ ∀ e ∈ rest, e.fileType = ITYPE_DIR → e.name = dot ∨ e.name = dotDot) ∨
    (∃ e ∈ rest, e.fileType = ITYPE_DIR ∧ e.name ≠ dot ∧ e.name ≠ dotDot) ∧
      ∃ h, Opened s.vol own node cwd.inodeId 0 h ∧ s' = { s with cwdStr := dotDot, cwd := some h } := by
  induction fuel generalizing s cwd dir rest indents out s' with
  | zero => cases run
  | succ fuel ih =>
    rw [treedir] at run
    obtain ⟨indent, _, run⟩ := Option.bind_eq_some_iff.mp run
    cases rest with
    | nil =>
      rw [cnreaddir_end (Nat.le_of_eq (show dir.index.toNat = _ from lists).symm)] at run
      cases run
      exact .inl ⟨rfl, fun e member => absurd member List.not_mem_nil⟩
    | cons e rest =>
      obtain ⟨next, read, _, _, more⟩ := cnreaddir_next lists
      have later : ∀ f ∈ rest, f ∈ records cwd.inodeId p es :=
        fun f member => inside f (List.mem_cons_of_mem _ member)
      have listed := inside e List.mem_cons_self
      rw [read, Option.bind_eq_bind, Option.bind_some] at run
      dsimp only at run
      rw [(holds.records_text found listed).2] at run
      split at run
      next dots =>
        rcases ih holds here found more later run with ⟨same, none⟩ | ⟨⟨f, member, some⟩, back⟩
        · exact .inl ⟨same, List.forall_mem_cons.mpr ⟨fun _ => dots, none⟩⟩
        · exact .inr ⟨⟨f, List.mem_cons_of_mem _ member, some⟩, back⟩
      next proper =>
        rw [not_or] at proper
        have member : e ∈ es := by
          rcases List.mem_cons.mp listed with rfl | listed
          · exact absurd rfl proper.1
          · exact (List.mem_cons.mp listed).resolve_left fun same => proper.2 (by rw [same]; rfl)
        obtain ⟨entryI, _, run⟩ := Option.bind_eq_some_iff.mp run
        split at run
        next isDir =>
          obtain ⟨⟨_, s₁⟩, down, run⟩ := Option.bind_eq_some_iff.mp run
          obtain ⟨inner, opens, run⟩ := Option.bind_eq_some_iff.mp run
          obtain ⟨nextDir, same, run⟩ := Option.bind_eq_some_iff.mp run
          obtain ⟨⟨below, s₂⟩, within, run⟩ := Option.bind_eq_some_iff.mp run
          obtain ⟨⟨_, s₃⟩, up, run⟩ := Option.bind_eq_some_iff.mp run
          obtain ⟨⟨rows, s₄⟩, others, run⟩ := Option.bind_eq_some_iff.mp run
          cases run
          refine .inr ⟨⟨e, List.mem_cons_self, isDir, proper⟩, ?_⟩
          obtain ⟨h₁, only₁, here₁, ends₁⟩ := holds.enterChild here found member isDir down
          obtain ⟨fs, _, sub, _⟩ := holds.child found member isDir
          rw [← ends₁] at sub
          have holds₁ : Holds s₁.vol own node := by rwa [only₁.vol]
          obtain ⟨_, _, sub', _, all⟩ := (holds₁.openDot here₁ sub opens same).lists
          rw [sub] at sub'
          cases sub'
          obtain ⟨h₂, only₂, here₂, ends₂⟩ : ∃ h₂, OnlyCwd s s₂ ∧ s₂.cwd = some h₂ ∧
              h₂.inodeId = h₁.inodeId := by
            rcases treedir_cwd holds₁ here₁ sub all (fun _ => id) within with same | ⟨back, _⟩
            · rw [same]
              exact ⟨h₁, only₁, here₁, rfl⟩
            · obtain ⟨h₂, here₂, ends₂⟩ := back.stands
              exact ⟨h₂, only₁.trans back.only, here₂, ends₂⟩
          rw [← ends₂] at sub
          have holds₂ : Holds s₂.vol own node := by rwa [only₂.vol]
          obtain ⟨h₃, opened, rfl⟩ := holds₂.cdComponent here₂ sub (by decide)
            (show walkToks dotDot = [dotDot] by decide) (holds₂.lookup_dots sub).2 rfl up
          have stands : h₃.inodeId = cwd.inodeId := by
            obtain ⟨_, _, _, ends, _⟩ := opened.lists
            exact ends
          have again : Opened s.vol own node cwd.inodeId 0 h₃ := by rwa [only₂.vol] at opened
          have same₂ : s₂ = { s with cwdStr := s₂.cwdStr, cwd := s₂.cwd } := only₂
          rw [← stands] at found later
          have holds₃ : Holds (Fs.vol { s₂ with cwdStr := dotDot, cwd := some h₃ }) own node := holds₂
          rcases ih holds₃ rfl found more later others with ⟨same, _⟩ | ⟨_, h₄, opened₄, same⟩
          · refine ⟨h₃, again, ?_⟩
            rw [same, same₂]
          · refine ⟨h₄, ?_, by rw [same, same₂]⟩
            rw [stands] at opened₄
            change Opened s₂.vol own node cwd.inodeId 0 h₄ at opened₄
            rwa [only₂.vol] at opened₄
        next isFile =>
          obtain ⟨⟨rows, s₁⟩, others, run⟩ := Option.bind_eq_some_iff.mp run
          cases run
          rcases ih holds here found more later others with ⟨same, none⟩ | ⟨⟨f, member, some⟩, back⟩
          · exact .inl ⟨same, List.forall_mem_cons.mpr ⟨fun isDir => absurd isDir isFile, none⟩⟩
          · exact .inr ⟨⟨f, List.mem_cons_of_mem _ member, some⟩, back⟩

def modifiedAt (d : Disk) (i : Iptr) : UInt64 := ((inodeRead d i).map (·.modified)).getD 0

/-- The line of an entry shows nothing of its inode but the time. -/
theorem Mirrors.line_eq {s : Fs} {fs : FileSystem} {e : DirEntry} {n : Nat} {j : Iptr}
    (mirrors : Mirrors s own fs) (entry : Entry fs.node j e) :
    t.line s.vol.disk (n, j, e) = t.entryLine fs (modifiedAt s.vol.disk) (n, j, e) := by
  have holds := mirrors.sound.holds
  have attributes {st : Inode} (read : inodeRead s.vol.disk e.inode = some st)
      (type : st.type = ITYPE_FILE ↔ e.fileType = ITYPE_FILE) (size : st.size.toNat = fs.size e.inode) :
      t.line s.vol.disk (n, j, e) = t.entryLine fs (modifiedAt s.vol.disk) (n, j, e) := by
    rw [TreeText.line, TreeText.entryLine]
    simp only [read, Option.map_some, Option.getD_some, TreeText.attributes, modifiedAt, type, size]
  rcases (holds.proper j e entry).kind with isDir | isFile
  · obtain ⟨fs', sub⟩ := holds.tree.subdir j e entry (decide_eq_true isDir)
    obtain ⟨st, dir⟩ := holds.dirs _ _ _ sub
    refine attributes dir.read (by rw [dir.type, isDir]) ?_
    rw [FileSystem.size]
    change fs.node e.inode = _ at sub
    rw [sub]
    exact dir.tiles.stop_eq.trans (Nat.zero_add _)
  · have leaf := holds.tree.leaf j e entry (decide_eq_false (by rw [isFile]; decide))
    obtain ⟨st, file⟩ := holds.files _ leaf
    refine attributes file.read (by rw [file.type, isFile]) ?_
    rw [FileSystem.size]
    change fs.node e.inode = _ at leaf
    rw [leaf]
    exact (mirrors.files.size mirrors.sound leaf file.read).symm

theorem Mirrors.lines_eq {s : Fs} {fs : FileSystem} {i p : Iptr} {es : List DirEntry}
    {items : List (Item Iptr DirEntry)} (mirrors : Mirrors s own fs)
    (order : Preorder scheme fs.node 0 i es items) (found : fs.node i = some (.dir p es)) :
    items.flatMap (t.line s.vol.disk) = items.flatMap (t.entryLine fs (modifiedAt s.vol.disk)) :=
  List.flatMap_congr fun item member => by
    obtain ⟨_, _, _, entry⟩ := (order.mem_iff found).mp member
    exact mirrors.line_eq entry

theorem Holds.subdirs {v : Vol} {node : Nodes} {i p : Iptr} {es : List DirEntry} (holds : Holds v own node)
    (found : node i = some (.dir p es)) :
    (∃ e ∈ records i p es, e.fileType = ITYPE_DIR ∧ e.name ≠ dot ∧ e.name ≠ dotDot) ↔
      ∃ e ∈ es, e.fileType = ITYPE_DIR := by
  constructor
  · rintro ⟨e, listed, isDir, notDot, notDotDot⟩
    rcases List.mem_cons.mp listed with rfl | listed
    · exact absurd rfl notDot
    · exact ⟨e, (List.mem_cons.mp listed).resolve_left fun same => notDotDot (by rw [same]; rfl), isDir⟩
  · rintro ⟨e, member, isDir⟩
    have proper := holds.proper i e (.of found member)
    exact ⟨e, List.mem_cons_of_mem _ (List.mem_cons_of_mem _ member), isDir, proper.notDot, proper.notDotDot⟩

theorem Displays.tree (displays : Displays net t sh c) (run : shTree argv sh = .done (out, sh')) :
    ∃ c', Console.Does net t c .tree argv out c' ∧ Displays net t sh' c' := by
  refine displays.checked rfl run fun reply fs mounted enough ran => ?_
  have none : argv = [] := List.length_eq_zero_iff.mp (of_decide_eq_true enough)
  obtain ⟨own, follows⟩ := displays.volume mounted
  have refines := follows.toRefines
  obtain ⟨⟨code, printed, s₁⟩, lists, ran⟩ := Option.bind_eq_some_iff.mp ran
  rw [displays.treeText] at lists
  obtain ⟨opened, opens, tour⟩ := Option.bind_eq_some_iff.mp lists
  obtain ⟨dir, given, tour⟩ := Option.bind_eq_some_iff.mp tour
  obtain ⟨⟨_, s₂⟩, tour, same⟩ := Option.bind_eq_some_iff.mp tour
  cases same
  obtain ⟨cwd, here⟩ : ∃ cwd, sh.fs.cwd = some cwd := by
    cases here : sh.fs.cwd with
    | some cwd => exact ⟨cwd, rfl⟩
    | none =>
      rw [cnopendir, if_neg (by decide), startDir, if_neg (by decide), here] at opens
      cases opens
  have mirrors : Mirrors sh.fs own c.volume := refines.globals
  have holds := mirrors.sound.holds
  obtain ⟨p, es, found⟩ := refines.sound.home cwd here
  obtain ⟨held, shows, shown⟩ := refines.held (h := .cwd) here
  obtain ⟨result, walked, prints⟩ := holds.cntree_walked here found t
  obtain ⟨_, _, found', _, all⟩ := (holds.openDot here found opens given).lists
  rw [found] at found'
  cases found'
  rw [lists] at prints
  cases walked with
  | stuck => cases prints
  | listed _ _ order _ _ _ =>
    cases prints
    obtain ⟨small, rfl, rfl⟩ := stored_eq ran
    have tours := holds.tours here found all (fun _ => id) tour
    rw [holds.subdirs found] at tours
    have stands := shown.dir
    rw [stands] at found order tours
    refine ⟨c.toured held.dir es, ?_, ?_⟩
    · rw [mirrors.lines_eq order found] at small ⊢
      exact .tree mounted none shows found order rfl small
    · rw [Console.toured]
      rcases tours with ⟨same, dots⟩ | ⟨some, h, again, rfl⟩
      · have unchanged : fs = sh.fs := same
        rw [if_neg ?_, unchanged]
        · exact displays
        rw [← holds.subdirs found]
        rintro ⟨e, listed, isDir, notDot, notDotDot⟩
        exact (dots e listed isDir).elim notDot notDotDot
      · rw [if_pos some]
        exact { displays with
          blank := fun off => by cases mounted.symm.trans off
          volume := fun _ => ⟨own, refines.stand found (again.dirShown holds) dotDot,
            fun lost => by cases lost⟩
          path := fun _ => rfl }

omit [InodeLayout] in
theorem blockdevAttach_done (run : blockdevAttach sh = .done sh') : sh.attached = false ∧
    sh' = { sh with attached := true, fs := sh'.fs } ∧ sh'.fs.host = sh.fs.host := by
  unfold blockdevAttach at run
  split at run
  · cases run
  next detached =>
    cases run
    exact ⟨by simpa using detached, rfl, rfl⟩

theorem shMkfs_done (run : shMkfs argv sh = .done (out, sh')) : out = mesgStr STR_SUCCESS_MKFS ∧
    ∃ sh₁, blockdevAttach sh = .done sh₁ ∧ boot sh₁.fs = some sh'.session ∧
      sh' = { sh₁ with fs := sh'.fs, vfs := true } := by
  obtain ⟨sh₁, attaches, run⟩ := Outcome.bind_eq_done run
  obtain ⟨⟨_, s₁⟩, makes, run⟩ := Option.bind_eq_some_iff.mp (Outcome.ofOption_eq_done run)
  obtain ⟨⟨_, s₂⟩, mounts, run⟩ := Option.bind_eq_some_iff.mp run
  cases run
  exact ⟨rfl, sh₁, attaches,
    Option.bind_eq_some_iff.mpr ⟨_, makes, Option.bind_eq_some_iff.mpr ⟨_, mounts, rfl⟩⟩, rfl⟩

theorem boot_path {before : Fs} {s : Session} (run : boot before = some s) : s.fs.cwdStr = [slash] := by
  obtain ⟨⟨_, s₁⟩, _, run⟩ := Option.bind_eq_some_iff.mp run
  obtain ⟨⟨_, s₂⟩, mounts, run⟩ := Option.bind_eq_some_iff.mp run
  cases run
  rw [cnmount_reset] at mounts
  obtain ⟨cwd, _, same⟩ := Option.map_eq_some_iff.mp mounts
  cases same
  rfl

theorem Displays.mkfs (displays : Displays net t sh c) (run : shMkfs argv sh = .done (out, sh')) :
    ∃ c', Console.Does net t c .mkfs argv out c' ∧ Displays net t sh' c' := by
  obtain ⟨rfl, sh₁, attaches, booted, made⟩ := shMkfs_done run
  obtain ⟨detached, same, host⟩ := blockdevAttach_done attaches
  have off : c.mounted = false := displays.attached.symm.trans detached
  refine ⟨_, .mkfs off, ?_⟩
  have path := boot_path booted
  have follows := boot_follows booted
  rw [host, ← displays.blank off] at follows
  rw [made, same]
  exact { displays with
    vfs := rfl
    attached := rfl
    blank := fun on => by cases on
    volume := fun _ => ⟨rootOwner, follows⟩
    path := fun _ => path }

theorem Displays.handler (displays : Displays net t sh c)
    (ok : ∀ op, cmd.op argv = some op → sh.vfs = true → cmd.argc argv.length = true → InLimits sh.session op)
    (run : cmd.handler argv sh = .done (out, sh')) :
    ∃ c', Console.Does net t c cmd argv out c' ∧ Displays net t sh' c' := by
  cases is : cmd.op argv with
  | some op => exact displays.command is (ok op is) run
  | none =>
    cases cmd with
    | close | read | write | seek | mkdir | rmdir | cat | cd | ls | importFile | exportFile => cases is
    | mkfs => exact displays.mkfs run
    | tree => exact displays.tree run
    | openFile =>
      have unknown : openMode (arg argv 1) = Option.none := Option.map_eq_none_iff.mp is
      change shOpen argv sh = _ at run
      rw [shOpen, unknown] at run
      refine displays.checked rfl run fun reply fs mounted enough ran => ?_
      cases ran
      exact ⟨c, .badMode mounted (of_decide_eq_true enough) unknown, displays⟩
    | pwd =>
      refine displays.checked rfl run fun reply fs mounted enough ran => ?_
      obtain ⟨small, rfl, rfl⟩ := stored_eq ran
      change sh.fs.cwdStr.length < 256 at small
      rw [displays.path mounted] at small
      have does : Console.Does net t c .pwd argv (cstr c.path) c :=
        .pwd mounted (List.length_eq_zero_iff.mp (of_decide_eq_true enough)) small
      rw [← displays.path mounted] at does
      exact ⟨c, does, displays⟩
    | rm =>
      refine displays.checked rfl run fun reply fs mounted enough ran => ?_
      cases ran
      exact ⟨c, .rm mounted (of_decide_eq_true enough), displays⟩
    | help =>
      obtain ⟨rfl, ⟨rfl, rfl⟩ | ⟨word, rest, rfl, unknown, rfl⟩⟩ := shHelp_done run
      · exact ⟨c, .help, displays⟩
      · exact ⟨c, .helpUnknown unknown, displays⟩
    | exit =>
      obtain rfl := displays.net
      change shExit argv sh = _ at run
      unfold shExit at run
      split at run
      next connected =>
        have client := displays.client.symm.trans connected
        have does : Console.Does sh.net t c .exit argv _ { c with client := false } := .leave client
        split at run
        next failed =>
          cases run
          rw [if_pos failed] at does
          exact ⟨_, does, { displays with client := rfl }⟩
        next closed =>
          cases run
          rw [if_neg closed] at does
          exact ⟨_, does, { displays with client := rfl }⟩
      next alone =>
        cases run
        exact ⟨_, .exit (displays.client.symm.trans (by simpa using alone)), { displays with running := rfl }⟩
    | connect =>
      obtain rfl := displays.net
      change shConnect argv sh = _ at run
      unfold shConnect at run
      split at run
      next few =>
        cases run
        exact ⟨c, .connectUsage few, displays⟩
      next enough =>
        have two : argv.length = 2 := not_not.mp enough
        split at run
        · cases run
        next refused =>
          cases run
          exact ⟨c, .refused two refused, displays⟩
        next cfd connects =>
          cases run
          exact ⟨_, .connected two connects, { displays with client := rfl }⟩

def Act.answered : Act → Option (Name × Option Name)
  | .ran line reply => some (line, reply)
  | .served _ line reply _ => some (line, reply)
  | _ => none

def answered (trace : List (Event × List Act)) : List (Name × Option Name) :=
  trace.flatMap fun item => item.2.filterMap Act.answered

omit [InodeLayout] in
theorem Quiet.answered (quiet : Quiet acts) : acts.filterMap Act.answered = [] := by
  refine List.filterMap_eq_nil_iff.mpr fun act member => ?_
  have none := quiet act member
  cases act with
  | ran | served => cases none
  | _ => rfl

end
end

section Lp64
attribute [local instance] lp64

end Lp64

end CdnwSh
