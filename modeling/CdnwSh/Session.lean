import CdnwSh.File

/-! `cnmkfs`, `cnmount` and `cnumount`, and the file system as a machine: one command
after the other on the globals of `fs.c` and on the directory handles its callers
hold. -/
namespace CdnwSh

open ByteMemory

def VFS_BLANK : UInt8 := 0
def VFS_GOOD : UInt8 := 1

def superblockInit : Block :=
  let sb := setField Block.zero 1024 4 6400
  let sb := setField sb 1028 4 25600
  let sb := setField sb 1032 4 (6400 - 1)
  let sb := setField sb 1036 4 (25600 - 4 - 100)
  let sb := setField sb 1044 2 FS_MAGIC
  setField sb 1046 2 VALID_FS

/-- `set_bitmap` on each of the given indices. -/
def setBits (blk : Block) (indices : List Nat) : Block := indices.foldl setBit blk

/-- Superblock, bitmaps, the inode table and the root directory's block are in use. -/
def blockBitmapInit : Block := setBits Block.zero (List.range 104)

def inodeBitmapInit : Block := setBits Block.zero [0]

section
variable [InodeLayout]

def writeRootDir (s : Fs) : Option Fs := do
  let (time, s) := timeNull s
  let root := { newInode ITYPE_DIR time with
    size := 24, blocks := 1, data0 := (Vector.replicate 8 0).setIfInBounds 0 103 }
  let d ← inodeWrite s.vol.disk 0 root
  let (_, d) ← blkWrite d 103 (newDirBlock 0 0)
  return { s with vol := { s.vol with disk := d } }

def cnmkfs (s : Fs) : Option (Int × Fs) := do
  let (_, d) ← blkWrite s.vol.disk 0 superblockInit
  let (_, d) ← blkWrite d 1 blockBitmapInit
  let (_, d) ← blkWrite d 2 inodeBitmapInit
  return (0, ← writeRootDir { s with vol := { s.vol with disk := d } })

def FdEntry.zero : FdEntry := ⟨none, FD_FREE, 0, Inode.zero, 0, false⟩

def cnmount (s : Fs) : Option (Int × Fs) := do
  let (_, superblk) ← blkRead s.vol.disk 0 s.vol.superblkCache
  let (_, blockBm) ← blkRead s.vol.disk 1 s.vol.blockBmCache
  let (_, inodeBm) ← blkRead s.vol.disk 2 s.vol.inodeBmCache
  let good := magic superblk = FS_MAGIC ∧ fsState superblk = VALID_FS
  let vol := { s.vol with
    superblkCache := if good then setField superblk 1046 2 ERROR_FS else superblk,
    blockBmCache := blockBm, inodeBmCache := inodeBm }
  let s := { s with
    vol := vol, superblk := true, vfsState := if good then VFS_GOOD else VFS_BLANK,
    fdTbl := fun _ => FdEntry.zero, cwdStr := [slash],
    fdBm := fun i => if i.val < 128 then 0 else s.fdBm i }
  let cwd ← cnopendir s [slash]
  return (0, { s with cwd := cwd, cwdClosed := false })

end

/-- The directory `cwd` points to is released. -/
def cnumount (s : Fs) : Option (Int × Fs) := do
  let _ ← closeCwd s
  if s.superblk then
    let superblk := setField s.vol.superblkCache 1046 2 VALID_FS
    let v ← flushMetadata { s.vol with superblkCache := superblk }
    return (0, { s with vol := v, cwd := none, cwdClosed := true })
  else none

/-- The directory handle a command works on: the global `cwd` or one of the handles
its callers got from `cnopendir`. -/
inductive Handle where
  | cwd
  | held (k : Nat)
  deriving DecidableEq

structure Session where
  fs : Fs
  handles : Nat → Option DirPtr

def Session.dir (s : Session) : Handle → Option DirPtr
  | .cwd => s.fs.cwd
  | .held k => s.handles k

def Session.setDir (s : Session) (h : Handle) (dir : DirPtr) : Session :=
  match h with
  | .cwd => { s with fs := { s.fs with cwd := some dir } }
  | .held k => { s with handles := fun j => if j = k then some dir else s.handles j }

inductive Op where
  | mkfs
  | mount
  | umount
  | mkdir (path : Name)
  | rmdir (path : Name)
  | cd (path : Name)
  | ls (path : Name)
  | opendir (k : Nat) (path : Name)
  | closedir (k : Nat)
  | creat (dir : Handle) (name : Name)
  | openFile (dir : Handle) (name : Name) (mode : UInt8)
  | close (fd : Int)
  | read (fd : Int) (bytes : Nat)
  | write (fd : Int) (buf : List UInt8)
  | seek (fd : Int) (offset : UInt32)
  | cat (name : Name)
  | importFile (hName gName : Name)
  | exportFile (gName hName : Name)

structure Reply where
  code : Int
  bytes : List UInt8 := []
  deriving DecidableEq

/-- The globals of a process that has just started, over a given device and host. -/
def Fs.started (disk : Disk) (host : Host) : Fs where
  vol := ⟨disk, Block.zero, Block.zero, Block.zero⟩
  vfsState := 0
  superblk := false
  fdTbl := fun _ => FdEntry.zero
  fdBm := Block.zero
  cwdStr := []
  cwd := none
  cwdClosed := false
  clock := fun _ => 0
  ticks := 0
  host := host

section
variable [InodeLayout]

def Session.global (s : Session) (result : Option (Int × Fs)) : Option (Reply × Session) := do
  let (code, fs) ← result
  return (⟨code, []⟩, { s with fs := fs })

/-- A command on a handle, which is left changed. -/
def Session.onDir (s : Session) (h : Handle) (f : DirPtr → Fs → Option (Int × DirPtr × Fs)) :
    Option (Reply × Session) := do
  let (code, dir, fs) ← f (← s.dir h) s.fs
  return (⟨code, []⟩, { s with fs := fs }.setDir h dir)

def Session.step (s : Session) : Op → Option (Reply × Session)
  | .mkfs => s.global (cnmkfs s.fs)
  | .mount => s.global (cnmount s.fs)
  | .umount => s.global (cnumount s.fs)
  | .mkdir path => s.global (cnmkdir path s.fs)
  | .rmdir path => s.global (cnrmdir path s.fs)
  | .cd path => s.global (cncd path s.fs)
  | .ls path => do
    let (code, bytes) ← cnls path s.fs
    return (⟨code, bytes⟩, s)
  | .opendir k path => do
    match ← cnopendir s.fs path with
    | none => return (⟨-1, []⟩, s)
    | some dir => return (⟨0, []⟩, s.setDir (.held k) dir)
  | .closedir k => some (⟨0, []⟩, { s with handles := fun j => if j = k then none else s.handles j })
  | .creat dir name => s.onDir dir fun d => cncreat d name
  | .openFile dir name mode => s.onDir dir fun d => cnopen d name mode
  | .close fd => s.global (cnclose fd s.fs)
  | .read fd bytes => do
    let (read, fs) ← cnread bytes fd s.fs
    return (⟨read.length, read⟩, { s with fs := fs })
  | .write fd buf => do
    let (written, fs) ← cnwrite buf fd s.fs
    return (⟨written, []⟩, { s with fs := fs })
  | .seek fd offset => s.global (cnseek fd offset s.fs)
  | .cat name => do
    let (code, bytes, fs) ← cncat name s.fs
    return (⟨code, bytes⟩, { s with fs := fs })
  | .importFile hName gName => s.global (cnimport hName gName s.fs)
  | .exportFile gName hName => s.global (cnexport gName hName s.fs)

/-- `cnmkfs` and `cnmount` on whatever the device and the globals hold. -/
def boot (s : Fs) : Option Session := do
  let (_, s) ← cnmkfs s
  let (_, s) ← cnmount s
  return ⟨s, fun _ => none⟩

/-- The state a command leaves, the old one where it is undefined. -/
def Session.after (s : Session) (op : Op) : Session := ((s.step op).map Prod.snd).getD s

def Session.reply (s : Session) (op : Op) : Reply := ((s.step op).map Prod.fst).getD ⟨0, []⟩

theorem Session.after_eq {s : Session} (defined : (s.step op).isSome) :
    s.step op = some (s.reply op, s.after op) := by
  obtain ⟨result, run⟩ := Option.isSome_iff_exists.mp defined
  rw [reply, after, run]
  rfl

end

section Lp64
attribute [local instance] lp64

/-- A fresh file system on an empty device and a host without files. -/
def emptyStart : Fs := Fs.started (fun _ => Block.zero) ⟨fun _ => none, fun _ => 0, fun _ => none, .full⟩

theorem emptyStart_boots : (boot emptyStart).isSome := by decide +kernel

def emptyBooted : Session := (boot emptyStart).get emptyStart_boots

theorem emptyBooted_eq : boot emptyStart = some emptyBooted := (Option.some_get _).symm

end Lp64

end CdnwSh
