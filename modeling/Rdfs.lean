import Rdfs.Acl
import Rdfs.AddLink
import Rdfs.AddressSpace
import Rdfs.AllocBlocks
import Rdfs.AllocOutcome
import Rdfs.AllocRounds
import Rdfs.Balloc
import Rdfs.BlockLookup
import Rdfs.BlockSize
import Rdfs.Bytes
import Rdfs.CStruct
import Rdfs.Checksums
import Rdfs.Copying
import Rdfs.Crc
import Rdfs.DirMap
import Rdfs.DirRecords
import Rdfs.DirRuns
import Rdfs.Directory
import Rdfs.DiskPool
import Rdfs.Establish
import Rdfs.Eviction
import Rdfs.FileAreas
import Rdfs.FileData
import Rdfs.FileIo
import Rdfs.FileSize
import Rdfs.FileSystem
import Rdfs.FileTree
import Rdfs.Files
import Rdfs.FsInvariant
import Rdfs.FsSteps
import Rdfs.Handshake
import Rdfs.InodeImage
import Rdfs.InodeOps
import Rdfs.InodeTable
import Rdfs.Isolation
import Rdfs.KernelEntries
import Rdfs.Layout
import Rdfs.Links
import Rdfs.LockOrder
import Rdfs.Locks
import Rdfs.Lookups
import Rdfs.MapCounts
import Rdfs.Mapping
import Rdfs.MasterLocks
import Rdfs.MasterStream
import Rdfs.MasterTasks
import Rdfs.Messages
import Rdfs.Namei
import Rdfs.NamesOfDirs
import Rdfs.NewDir
import Rdfs.NewEntries
import Rdfs.NewInode
import Rdfs.NodeLayout
import Rdfs.NvmInit
import Rdfs.Nvmalloc
import Rdfs.OpenMessages
import Rdfs.Opening
import Rdfs.Owned
import Rdfs.PageOwners
import Rdfs.PageTable
import Rdfs.PageTree
import Rdfs.Pool
import Rdfs.PreFree
import Rdfs.PteCalls
import Rdfs.RdmaRequests
import Rdfs.Readdir
import Rdfs.Region
import Rdfs.Rename
import Rdfs.Reply
import Rdfs.ReplyBounds
import Rdfs.Rmdir
import Rdfs.Segments
import Rdfs.ServerLoop
import Rdfs.ServerSlots
import Rdfs.ServerStream
import Rdfs.SlaveMemory
import Rdfs.SlaveNodes
import Rdfs.Spacing
import Rdfs.TableBuilds
import Rdfs.TableReads
import Rdfs.Text
import Rdfs.Tiling
import Rdfs.Trace
import Rdfs.TreeRemoval
import Rdfs.Truncate
import Rdfs.WordTable
