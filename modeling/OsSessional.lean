import OsSessional.Airport.Lane
import OsSessional.Lottery.Tickets
import OsSessional.Lottery.Inheritance
import OsSessional.Lottery.Accounting
import OsSessional.Lottery.Winner
import OsSessional.Lottery.Arguments
import OsSessional.Lottery.Generator
import OsSessional.Airport.Kiosk
import OsSessional.Airport.Progress
import OsSessional.Paging.DiscTable
import OsSessional.Paging.FaultService
import OsSessional.Paging.Limits
import OsSessional.Paging.Ownership
import OsSessional.Paging.LifeCycle
import OsSessional.Paging.PageIn
import OsSessional.Paging.ForkCopy
import OsSessional.Paging.Protection
import OsSessional.Paging.FlatMemory
import OsSessional.Paging.SavedPage
import OsSessional.Paging.Mirror
import OsSessional.Paging.Victims
import OsSessional.Paging.Undone
import OsSessional.Paging.GrowFailure
import OsSessional.Paging.Uninterrupted
import OsSessional.Paging.SwapPath
import OsSessional.Paging.SwapBlocks
import OsSessional.Paging.Offsets
import OsSessional.Paging.Loading
import OsSessional.Sorter.Copies
import OsSessional.Sorter.Report
import OsSessional.Ipc.Delivery
import OsSessional.Storage.Bio
import OsSessional.Lib.RedoLog
import OsSessional.Storage.Store
import OsSessional.Storage.Coherence
import OsSessional.Storage.Recycling
import OsSessional.Storage.LogControl
import OsSessional.Storage.LogSpace
import OsSessional.Storage.LogProgress
import OsSessional.Storage.Recovery
import OsSessional.Storage.Transactions
import OsSessional.Storage.CrashSafe
import OsSessional.Console.Lines
import OsSessional.Userland.Grep
import OsSessional.Userland.AllocSafe
