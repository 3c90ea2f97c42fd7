import MySQLSyncer.Core.RingbufFifo
import MySQLSyncer.Core.PallocInvariant
import MySQLSyncer.Slave.SavedPosition
import MySQLSyncer.Slave.MessageRoundTrip
import MySQLSyncer.Master.NextBinlog
import MySQLSyncer.Master.Tail
import MySQLSyncer.Master.Reload
import MySQLSyncer.Master.Slots
import MySQLSyncer.Master.TeardownInvariant
import MySQLSyncer.Core.PallocId
import MySQLSyncer.Master.ParseDumpcmd
import MySQLSyncer.Slave.MessageChunks
import MySQLSyncer.Slave.ChunkedRelay
import MySQLSyncer.Master.StreamEof
import MySQLSyncer.Slave.Replica
import MySQLSyncer.Core.ConfLines
import MySQLSyncer.Slave.RecvTmpbuf
import MySQLSyncer.Master.SendProgress
import MySQLSyncer.Core.Hash
import MySQLSyncer.Master.HandlerBounds
import MySQLSyncer.Slave.FlushCrash
import MySQLSyncer.Master.FailedReload
import MySQLSyncer.Slave.PartialImages
import MySQLSyncer.Slave.CountCursors
import MySQLSyncer.Slave.PoolSizes
import MySQLSyncer.Core.ConfBounds
import MySQLSyncer.Core.FailedAlloc
import MySQLSyncer.Master.PacketBounds
import MySQLSyncer.Master.FilterList
import MySQLSyncer.Master.PositionMessages
import MySQLSyncer.Master.Progress
import MySQLSyncer.Slave.MixedRows
import MySQLSyncer.Core.ClassTable
import MySQLSyncer.Master.DumpcmdLog
import MySQLSyncer.Core.ConfRun
import MySQLSyncer.Core.PallocFits
import MySQLSyncer.Master.MessageRing
import MySQLSyncer.Master.ServedRows
import MySQLSyncer.Slave.RestartStore
import MySQLSyncer.Slave.EndToEnd
import MySQLSyncer.Slave.Deployment
