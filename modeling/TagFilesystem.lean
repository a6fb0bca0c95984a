import TagFilesystem.Cutil.Sequences
import TagFilesystem.Cutil.Split
import TagFilesystem.Cutil.HashRuns
import TagFilesystem.Fuse.ViewRuns
import TagFilesystem.Fuse.Poll
import TagFilesystem.Fuse.References
import TagFilesystem.Fuse.Getattr
import TagFilesystem.Fuse.Bulk
import TagFilesystem.Fuse.FailedLink
import TagFilesystem.Fuse.FailedOpen
import TagFilesystem.Fuse.DirectorySet
import TagFilesystem.Fuse.RoundTrip
import TagFilesystem.Fuse.Comments
import TagFilesystem.Fuse.Saved
import TagFilesystem.Fuse.Startup
import TagFilesystem.Fuse.Unambiguous
import TagFilesystem.Fuse.Concurrent
import TagFilesystem.Fuse.RealDatabase
import TagFilesystem.Fuse.Selected
import TagFilesystem.FuseLowlevel.Accounting
import TagFilesystem.FuseLowlevel.Replies
import TagFilesystem.FuseLowlevel.Found
import TagFilesystem.FuseLowlevel.Read
import TagFilesystem.FuseLowlevel.Paging
import TagFilesystem.FuseLowlevel.Numbers
import TagFilesystem.FuseLowlevel.ViewRuns
import TagFilesystem.FuseSqlite3.Remaining
import TagFilesystem.FuseSqlite3.Synced
import TagFilesystem.FuseSqlite3.NameLists
import TagFilesystem.FuseSqlite3.Matching
import TagFilesystem.FuseSqlite3.ViewRuns
import TagFilesystem.Ioctl
import TagFilesystem.Rmdir
