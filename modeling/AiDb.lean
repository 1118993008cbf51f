import AiDb.Bytes
import AiDb.Library.SkipMap
import AiDb.Library.Hoare
import AiDb.Library.Merge
import AiDb.Wal.Record
import AiDb.Wal.Writer
import AiDb.Wal.Reader
import AiDb.Wal.Recovery
import AiDb.Memtable
import AiDb.Filter
import AiDb.Table.Builder
import AiDb.Table.Reader
import AiDb.Table.Contents
import AiDb.Compaction.Merge
import AiDb.Compaction.Output
import AiDb.Compaction.Newest
import AiDb.Compaction.Picker
import AiDb.Compaction.Version
import AiDb.World
import AiDb.Db
import AiDb.Session
import AiDb.Effects
import AiDb.Writes
import AiDb.Rules
import AiDb.Opening
import AiDb.FileNumbers
import AiDb.Store
import AiDb.Files
import AiDb.Compaction.Phases
import AiDb.Compacting
import AiDb.Layers
import AiDb.Deletes
import AiDb.LastWrite
import AiDb.Visibility
import AiDb.ReadErrors
import AiDb.Logging
import AiDb.Replay
import AiDb.TornTails
import AiDb.Batches
import AiDb.Reached
import AiDb.Immutability
import AiDb.Library.Threads
import AiDb.Concurrent
import AiDb.Writers
import AiDb.Reordering
import AiDb.Snapshots
import AiDb.Flushing
import AiDb.Readers
import AiDb.Durability
import AiDb.Table.SharedCursor
import AiDb.MultiVersion
import AiDb.Recording
import AiDb.Library.Layering
import AiDb.OneSession
import AiDb.DeepLevels
import AiDb.Overlap
import AiDb.Versions
import AiDb.Library.Tickets
import AiDb.FlushOrder
import AiDb.PowerLoss
import AiDb.Sstable.Table
import AiDb.Table.Lru
import AiDb.Caching
import AiDb.Transparency
import AiDb.Compaction.Job
import AiDb.Consuming
import AiDb.Iterator
import AiDb.Iterating
import AiDb.Library.Cursor
import AiDb.Scanning
import AiDb.Backward
import AiDb.CachedReads
import AiDb.CachedIterator
import AiDb.StaleEntries
import AiDb.Sstable.Keys
import AiDb.Sstable.Settings
import AiDb.Sstable.Layout
import AiDb.Sstable.Codecs
import AiDb.Library.Folds
import AiDb.Sstable.Corruption
import AiDb.Library.Checked
import AiDb.Sstable.Untrusted
import AiDb.Compaction.Picking
import AiDb.Library.LineLog
import AiDb.Manifest
import AiDb.Allocation
import AiDb.MemorySize
import AiDb.Library.Numerals
import AiDb.LoadOrder
import AiDb.Library.Groups
import AiDb.Wal.Grammar
import AiDb.Table.Recency
import AiDb.Table.Accounting
import AiDb.Table.Room
import AiDb.Sstable.FilterLaws
import AiDb.Sstable.AnyBytes
import AiDb.Sstable.Restarts
import AiDb.Sstable.Searching
import AiDb.Tombstones
import AiDb.Dated
import AiDb.FrontOrder
import AiDb.BatchSteps
import AiDb.Recovering
import AiDb.Locking
import AiDb.CachedRuns
import AiDb.CachedSnapshots
import AiDb.Isolation
import AiDb.Sstable.Refinement
import AiDb.Encoding
import AiDb.Panics
import AiDb.FailedWrites
import AiDb.Linear
import AiDb.Archive
import AiDb.Archiving
import AiDb.Reopening
import AiDb.CurrentLog
import AiDb.FileNames
import AiDb.TableFiles
