import KVStorage.SkiplistRoundTrip
import KVStorage.FileInfo
import KVStorage.Cache
import KVStorage.BlockBytes
import KVStorage.BlockExtent
import KVStorage.BlockIndex
import KVStorage.Library.Runs
import KVStorage.Crash
import KVStorage.Requests
import KVStorage.LastWrite
import KVStorage.Deletes
import KVStorage.ReadPath
import KVStorage.Server
import KVStorage.Visibility
import KVStorage.RequestOrder
import KVStorage.FlushAccount
import KVStorage.Shutdown
import KVStorage.SkiplistShape
import KVStorage.SizeAccounting
import KVStorage.ReadableBlocks
import KVStorage.HandleClient
import KVStorage.Segments
import KVStorage.IndexSize
import KVStorage.IoPool
import KVStorage.Library.Wire
import KVStorage.InfoCodec
import KVStorage.Block0File
import KVStorage.Lifetimes
import KVStorage.IoQueues
import KVStorage.LoadOrder
import KVStorage.BlockFile
import KVStorage.FailedIo
import KVStorage.Payloads
import KVStorage.ImageShape
import KVStorage.ReadDeletes
import KVStorage.IoTasks
import KVStorage.FlowControl
import KVStorage.FreeSpace
import KVStorage.LoadedSize
import KVStorage.SpentBlocks
import KVStorage.SkiplistFind
import KVStorage.Block0Space
import KVStorage.ThreadPool
import KVStorage.Library.Settling
import KVStorage.PoolInvariant
import KVStorage.PoolPause
import KVStorage.PoolProgress
import KVStorage.PoolService
import KVStorage.Client
import KVStorage.SavedValues
import KVStorage.PutOnce
