import CdnwSh.Seeks

/-! Calls on a descriptor that is not in use. `cnclose` leaves inode, inode number and data
pointer in the table, and of the four calls that take a descriptor `cnseek` alone does not
look at its state: only a refused `calloc` keeps it from the file. -/
namespace CdnwSh

open PartialRun

inductive OnFd (fd : Int) : Op → Prop where
  | close : OnFd fd (.close fd)
  | read : OnFd fd (.read fd bytes)
  | write : OnFd fd (.write fd buf)
  | seek : OnFd fd (.seek fd offset)

def failureCode : Op → Int
  | .read _ _ | .write _ _ => 0
  | _ => -1

section
variable [InodeLayout]

/-- The call reports failure and changes nothing. -/
def Inert (s : Session) (op : Op) : Prop := s.step op = some (⟨failureCode op, []⟩, s)

section
variable {s : Session} {n : Nat}

theorem close_inert (slot : n < 1024) (free : (s.fs.fdTbl n).state = FD_FREE) :
    Inert s (.close n) := by
  have closes : cnclose n s.fs = some (-1, s.fs) := by
    rw [cnclose, fdSlot_small slot]
    simp [free]
  rw [Inert, Session.step, closes]
  rfl

theorem read_inert (slot : n < 1024) (free : (s.fs.fdTbl n).state = FD_FREE) :
    Inert s (.read n bytes) := by
  have mode : (s.fs.fdTbl n).state ≠ FD_READ := by rw [free]; decide
  have reads : cnread bytes n s.fs = some ([], s.fs) := by
    rw [cnread, fdSlot_small slot]
    simp [mode]
  rw [Inert, Session.step, reads]
  rfl

theorem write_inert (slot : n < 1024) (free : (s.fs.fdTbl n).state = FD_FREE) :
    Inert s (.write n buf) := by
  have mode : (s.fs.fdTbl n).state ≠ FD_WRITE := by rw [free]; decide
  have writes : cnwrite buf n s.fs = some (0, s.fs) := by
    rw [cnwrite, fdSlot_small slot]
    simp [mode]
  rw [Inert, Session.step, writes]
  rfl

/-- A seek is inert if and only if its growth is refused, whatever the state of the
descriptor. -/
theorem seek_inert (slot : n < 1024) : Inert s (.seek n offset) ↔
    Refused s.fs (s.fs.fdTbl n) ((s.fs.fdTbl n).cursor + offset) := by
  constructor
  · intro inert
    rcases cnseek_grows (Session.global_eq inert).1 slot with ⟨refused, _⟩ | ⟨done, _⟩
    · exact refused
    · exact absurd done (show (-1 : Int) ≠ 0 by decide)
  · intro refused
    rw [Inert, Session.step, cnseek_refused slot refused]
    rfl

end

/-- In every state a call on a descriptor that is not in use fails and changes nothing, if and
only if it is not a seek, or one whose growth is refused. -/
theorem closed_inert (s : Session) (n : Nat) (op : Op) (slot : n < 1024)
    (free : (s.fs.fdTbl n).state = FD_FREE) (call : OnFd n op) : Inert s op ↔
      ∀ offset, op = .seek n offset →
        Refused s.fs (s.fs.fdTbl n) ((s.fs.fdTbl n).cursor + offset) := by
  cases call with
  | close => exact ⟨fun _ _ => nofun, fun _ => close_inert slot free⟩
  | read => exact ⟨fun _ _ => nofun, fun _ => read_inert slot free⟩
  | write => exact ⟨fun _ _ => nofun, fun _ => write_inert slot free⟩
  | seek =>
    refine (seek_inert slot).trans ⟨fun refused _ same => ?_, fun refused => refused _ rfl⟩
    cases same
    exact refused

end

section Lp64
attribute [local instance] lp64

def fileClosed : Session := fileOpened.after (.close 0)

theorem fileClosed_run : (fileOpened.step (.close 0)).isSome ∧
    (fileClosed.fs.fdTbl 0).state = FD_FREE ∧ (fileClosed.fs.fdTbl 0).inodeId = 1 ∧
    (inodeRead fileClosed.fs.vol.disk 1).map Inode.size = some 0 ∧
    (fileClosed.step (.seek 0 5)).isSome ∧
    (inodeRead (fileClosed.after (.seek 0 5)).fs.vol.disk 1).map Inode.size = some 5 := by
  decide +kernel

theorem fileClosed_cursor : (fileClosed.fs.fdTbl 0).cursor = 0 := by decide +kernel

theorem fileClosed_steps : ∃ trace, Steps Session.step (fun _ _ => True) emptyBooted trace fileClosed :=
  ⟨_, .cons trivial fileOpened_eq (.single trivial (Session.after_eq fileClosed_run.1))⟩

/-- The closed descriptor cannot be read from. -/
theorem closed_inert_read : Inert fileClosed (.read 0 5) :=
  (closed_inert fileClosed 0 (.read 0 5) (by decide) fileClosed_run.2.1 .read).mpr
    fun _ => nofun

/-- A seek on the closed descriptor makes the file on disk five bytes long. -/
theorem closed_inert_seek : boot emptyStart = some emptyBooted ∧
    ∃ trace s', Steps Session.step (fun _ _ => True) emptyBooted trace s' ∧
      (s'.fs.fdTbl 0).state = FD_FREE ∧ OnFd 0 (.seek 0 5) ∧ ¬ Inert s' (.seek 0 5) ∧
      (inodeRead s'.fs.vol.disk 1).map Inode.size = some 0 ∧
      (inodeRead (s'.after (.seek 0 5)).fs.vol.disk 1).map Inode.size = some 5 := by
  obtain ⟨_, free, _, before, _, after⟩ := fileClosed_run
  obtain ⟨trace, steps⟩ := fileClosed_steps
  refine ⟨emptyBooted_eq, trace, fileClosed, steps, free, .seek, fun inert => ?_, before, after⟩
  have few := ((seek_inert (n := 0) (by decide)).mp inert).large
  rw [fileClosed_cursor] at few
  exact absurd few (by decide)

end Lp64

end CdnwSh
