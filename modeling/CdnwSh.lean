import CdnwSh.Library.Bytes
import CdnwSh.Library.LeastIndex
import CdnwSh.Library.Records
import CdnwSh.Library.Extents
import CdnwSh.Library.PartialRun
import CdnwSh.Library.Simulation
import CdnwSh.Library.KeyedStore
import CdnwSh.Library.CursorArray
import CdnwSh.Library.FileStore
import CdnwSh.Library.Shares
import CdnwSh.Library.NameTree
import CdnwSh.Library.Preorder
import CdnwSh.Blockdev
import CdnwSh.Bitmap
import CdnwSh.Inode
import CdnwSh.State
import CdnwSh.Extent
import CdnwSh.Allocation
import CdnwSh.Growth
import CdnwSh.Directory
import CdnwSh.Confined
import CdnwSh.Namespace
import CdnwSh.File
import CdnwSh.OpenFile
import CdnwSh.FileRuns
import CdnwSh.Session
import CdnwSh.Lookup
import CdnwSh.Entries
import CdnwSh.Volume
import CdnwSh.Walk
import CdnwSh.Create
import CdnwSh.Remove
import CdnwSh.Sound
import CdnwSh.DirCommands
import CdnwSh.Descriptors
import CdnwSh.FileCommands
import CdnwSh.Mount
import CdnwSh.Machine
import CdnwSh.DirectoryRuns
import CdnwSh.DirectoryUpdates
import CdnwSh.FileArray
import CdnwSh.NonInterference
import CdnwSh.ImportExport
import CdnwSh.CommandLine
import CdnwSh.Texts
import CdnwSh.Tree
import CdnwSh.Shell
import CdnwSh.Receive
import CdnwSh.Reply
import CdnwSh.Server
import CdnwSh.RemoteLines
import CdnwSh.ClientSession
import CdnwSh.PathResolution
import CdnwSh.Globals
import CdnwSh.DescriptorTable
import CdnwSh.ShellRuns
import CdnwSh.ReadOnly
import CdnwSh.LifeCycle
import CdnwSh.CleanFlag
import CdnwSh.WorkingDirectory
import CdnwSh.MetadataSafety
import CdnwSh.Reads
import CdnwSh.Resize
import CdnwSh.Seeks
import CdnwSh.DescriptorBounds
import CdnwSh.NoRoom
import CdnwSh.FullDirectory
import CdnwSh.MkdirEffect
import CdnwSh.RootSafety
import CdnwSh.MkdirLookup
import CdnwSh.RmdirExact
import CdnwSh.Chunking
import CdnwSh.SeekGap
import CdnwSh.SharedFile
import CdnwSh.TypeSafety
import CdnwSh.WrittenThrough
import CdnwSh.Quoting
import CdnwSh.Listing
import CdnwSh.ClosedDescriptors
import CdnwSh.TableRestored
import CdnwSh.FailedImport
import CdnwSh.CreateMany
import CdnwSh.MakeRemove
import CdnwSh.TreeWalk
import CdnwSh.ReplyBuffers
import CdnwSh.DirectoryScans
import CdnwSh.SignedBitmap
import CdnwSh.MappedDevice
import CdnwSh.InodeTable
import CdnwSh.WholeFile
import CdnwSh.AllocatorRuns
import CdnwSh.BlockMap
import CdnwSh.TokenBounds
import CdnwSh.FileSystem
import CdnwSh.Abstraction
import CdnwSh.RefinedNames
import CdnwSh.RefinedFiles
import CdnwSh.Refinement
import CdnwSh.Restart
import CdnwSh.Durability
import CdnwSh.Accounting
import CdnwSh.Progress
import CdnwSh.Console
import CdnwSh.RefinedShell
