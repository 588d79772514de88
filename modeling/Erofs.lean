import Erofs.GoPath
import Erofs.PathTree
import Erofs.Overlay
import Erofs.Errors
import Erofs.Disk
import Erofs.Xattr
import Erofs.Writer.State
import Erofs.Writer.Tree
import Erofs.Writer.Unlink
import Erofs.Writer.Remove
import Erofs.Writer.Place
import Erofs.Writer.Copying
import Erofs.Writer.Copy
import Erofs.Writer.CopyStep
import Erofs.Writer.Merge
import Erofs.LittleEndian
import Erofs.Oracle
import Erofs.Reader.Image
import Erofs.Reader.Inode
import Erofs.Reader.Block
import Erofs.Reader.Dir
import Erofs.Reader.Resolve
import Erofs.Reader.Open
import Erofs.Reader.Session
import Erofs.Reader.CleanEnd
import Erofs.Reader.Place
import Erofs.Reader.Mapped
import Erofs.Reader.Direct
import Erofs.Reader.Ranges
import Erofs.Reader.DirBlock
import Erofs.Reader.Pages
import Erofs.Writer.ImageCopy
import Erofs.Reader.Reference
import Erofs.Reader.Lookup
import Erofs.Writer.CopiedDirs
import Erofs.Writer.Dirents
import Erofs.Writer.Api
import Erofs.Writer.Build
import Erofs.Writer.CleanPath
import Erofs.Writer.Settle
import Erofs.Writer.SafeCopy
import Erofs.Writer.ImageStep
import Erofs.Writer.Calls
import Erofs.Writer.Marker
import Erofs.Writer.OverlayLaw
import Erofs.Writer.ImageTurns
import Erofs.Writer.ImageTree
import Erofs.Writer.Runs
import Erofs.Reader.Coalesce
import Erofs.Writer.FlatRuns
import Erofs.Writer.ChunkRuns
import Erofs.Reader.Spec
import Erofs.Writer.XattrCopy
import Erofs.Writer.XattrWrite
import Erofs.Writer.SharedXattrs
import Erofs.Writer.Layout
import Erofs.Writer.XattrIndex
import Erofs.Writer.InodeWrite
import Erofs.Writer.ChunkMap
import Erofs.Writer.Limits
import Erofs.Reader.Counts
import Erofs.Stepwise
import Erofs.Reader.Budget
import Erofs.Writer.Failed
import Erofs.Writer.ImageEnds
import Erofs.Pieces
import Erofs.Reader.Split
import Erofs.Reader.Sticky
import Erofs.Laid
import Erofs.Writer.Slots
import Erofs.Writer.Serialize
import Erofs.Writer.Regions
import Erofs.Writer.Superblock
import Erofs.Writer.ReadBack
import Erofs.Writer.Entries
import Erofs.Writer.Chunked
import Erofs.Writer.MapBound
import Erofs.Traverse
import Erofs.Writer.Walk
import Erofs.Writer.PlanTree
import Erofs.Writer.Paths
