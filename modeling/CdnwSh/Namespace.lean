import CdnwSh.Directory

/-! Directory updates: `cnmkdir`, `cnrmdir` and `cncreat`. The two creators append a
record with the same lines, `appendEntry`; removal rewrites the whole directory. -/
namespace CdnwSh

open ByteMemory

def entryLenOf (nameLen : Nat) : Nat := nameLen + 8 + (4 - (nameLen + 8) % 4)

def putEntry (m : Bytes) (off : Nat) (inode entryLen nameLen : Nat) (fileType : UInt8)
    (name : Bytes) (n : Nat) : Bytes :=
  let m := writeLE m off 4 inode
  let m := writeLE m (off + 4) 2 entryLen
  let m := writeLE m (off + 6) 1 nameLen
  let m := copy m (off + 7) (fun _ => fileType) 1
  copy m (off + 8) name n

def storeEntry (buf : Buf) (off : Nat) (inode : Iptr) (entryLen nameLen : Nat) (fileType : UInt8)
    (name : Name) : Option Buf :=
  -- undefined when the record leaves the allocation
  if off + 8 + name.length ≤ buf.size then
    let mem := putEntry buf.mem off inode.toNat entryLen nameLen fileType (ofList name) name.length
    some ⟨buf.size, mem⟩
  else none

/-- `uint32_t now = time(NULL)`, which is what new inodes are stamped with. -/
def now32 (t : UInt64) : UInt64 := UInt64.ofNat (t.toNat % 2 ^ 32)

def newInode (type : UInt8) (time : UInt64) : Inode :=
  { Inode.zero with modified := now32 time, type := type }

def newDirBlock (self parent : Iptr) : Block :=
  Block.ofMem (putEntry (putEntry (fun _ => 0) 0 self.toNat 12 1 ITYPE_DIR (ofList dot) 1)
    12 parent.toNat 12 2 ITYPE_DIR (ofList dotDot) 2) 0

section
variable [InodeLayout]

/-- "Create parent directory entry" and "Write parent dir and inode": the record goes
behind the handle's index, the length of a name above 255 bytes is cut. -/
def appendEntry (s : Fs) (dir : DirPtr) (name : Name) (fileType : UInt8) :
    Option (Iptr × DirPtr × Fs) := do
  let (inode, v) ← reserveInode s.vol
  let nameLen := name.length % 256
  let data ← storeEntry dir.data dir.index.toNat inode (entryLenOf nameLen) nameLen fileType name
  let (modified, s) := timeNull { s with vol := v }
  let inodeSt := { dir.inodeSt with
    size := dir.inodeSt.size + UInt32.ofNat (entryLenOf nameLen), modified := modified }
  let d ← inodeWrite s.vol.disk dir.inodeId inodeSt
  let (_, d) ← blkWriteBuf d inodeSt.block0 data 0
  return (inode, { dir with data := data, inodeSt := inodeSt },
    { s with vol := { s.vol with disk := d } })

def createDir (s : Fs) (self parent : Iptr) : Option Fs := do
  -- from "Write new directory inode" on
  let (time, s) := timeNull s
  let (ptr, v) ← reserveBlock s.vol
  let newDir := { newInode ITYPE_DIR time with
    size := 24, blocks := 1, data0 := (Vector.replicate 8 0).setIfInBounds 0 ptr }
  let d ← inodeWrite v.disk self newDir
  let (_, d) ← blkWrite d ptr (newDirBlock self parent)
  return { s with vol := { v with disk := d } }

/-- The token loop of `cnmkdir`. Every turn reads the directory afresh and scans it from
its start; a component that is missing leaves the walk in the same directory. -/
def mkdirWalk (s : Fs) : List Name → Inode → Iptr → Option (Int × Fs)
  | [], _, _ => none
  | tok :: rest, inodeSt, inodeId => do
    if 256 ≤ tok.length then none
    else
      let data ← llread s.vol.disk inodeSt (callocBlocks inodeSt.blocks.toNat)
      let (found, dir) ← findName ⟨inodeSt, inodeId, 0, data⟩ tok
      match found with
      | some entry =>
        if rest = [] then return (-1, s)
        else
          let inodeSt ← inodeRead s.vol.disk entry.inode
          mkdirWalk s rest inodeSt entry.inode
      | none =>
        if rest = [] then
          let (self, dir, s) ← appendEntry s dir tok ITYPE_DIR
          let s ← createDir s self dir.inodeId
          return (0, s)
        else mkdirWalk s rest inodeSt inodeId

def cnmkdir (name : Name) (s : Fs) : Option (Int × Fs) := do
  -- the walk starts at `cwd`, whatever the path starts with
  let cwd ← s.cwd
  let inodeSt ← inodeRead s.vol.disk cwd.inodeId
  mkdirWalk s (strtok name) inodeSt cwd.inodeId

structure Rebuilt where
  data : Buf
  index : UInt32
  size : UInt32

def Rebuilt.keep (new : Rebuilt) (entry : DirEntry) : Option Rebuilt := do
  let data ← storeEntry new.data new.index.toNat entry.inode entry.entryLen entry.name.length
    entry.fileType entry.name
  return ⟨data, new.index + UInt32.ofNat entry.entryLen, new.size + UInt32.ofNat entry.entryLen⟩

/-- The loop of `cnrmdir` that copies the records it keeps, with the fuel of `findNameLoop`. `none` in the result
is the error exit of a directory that is not empty. -/
def rmdirLoop (name : Name) : Nat → DirPtr → Rebuilt → Vol → Option (Option Rebuilt × Vol)
  | 0, _, _, _ => none
  | fuel + 1, parent, new, v => do
    match ← cnreaddir parent with
    | none => return (some new, v)
    | some (entry, parent) =>
      if cstr entry.name = name then
        let dirInode ← inodeRead v.disk entry.inode
        if dirInode.size ≠ 24 then return (none, v)
        else
          let v ← releaseBlock dirInode.block0 v
          let v ← releaseInode entry.inode v
          rmdirLoop name fuel parent new v
      else
        let new ← new.keep entry
        rmdirLoop name fuel parent new v

/-- The error exit taken for a null `parent` reads and frees `new_parent`, which is not set
yet. -/
def cnrmdir (name : Name) (s : Fs) : Option (Int × Fs) := do
  let parent ← ← cnopendir s (name ++ slash :: dotDot)
  let new : Rebuilt := ⟨callocBlocks parent.inodeSt.blocks.toNat, 0, 0⟩
  match ← rmdirLoop name (parent.inodeSt.size.toNat + 1) parent new s.vol with
  | (none, v) => return (-1, { s with vol := v })
  | (some new, v) =>
    let inodeSt := { parent.inodeSt with size := new.size }
    let d ← inodeWrite v.disk parent.inodeId inodeSt
    let d ← llwrite d inodeSt new.data
    return (0, { s with vol := { v with disk := d } })

def cncreat (dir : DirPtr) (name : Name) (s : Fs) : Option (Int × DirPtr × Fs) := do
  -- the handle comes back scanned to its end and, on success, grown
  match ← cnstat dir name with
  | (some _, dir) => return (-1, dir, s)
  | (none, dir) =>
    let (self, dir, s) ← appendEntry s dir name ITYPE_FILE
    let (time, s) := timeNull s
    let d ← inodeWrite s.vol.disk self (newInode ITYPE_FILE time)
    return (0, dir, { s with vol := { s.vol with disk := d } })

end
end CdnwSh
