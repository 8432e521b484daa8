import RowStore.Bytes
import RowStore.Call.Answer
import RowStore.Call.Basic
import RowStore.Call.Change
import RowStore.Call.Schedule
import RowStore.Catalog
import RowStore.Config
import RowStore.Cursor
import RowStore.Database
import RowStore.Disk
import RowStore.Error
import RowStore.Host
import RowStore.Id
import RowStore.Lock.Mode
import RowStore.Lock.Table
import RowStore.Lock.WaitGraph
import RowStore.Log.File
import RowStore.Log.Journal
import RowStore.Log.Record
import RowStore.Lookup
import RowStore.Memory
import RowStore.Page.Basic
import RowStore.Page.File
import RowStore.Page.Layout
import RowStore.PageMap
import RowStore.Pool.Cache
import RowStore.Pool.Engine
import RowStore.Proofs.Call.Change
import RowStore.Proofs.Call.Course
import RowStore.Proofs.Call.Effect
import RowStore.Proofs.Call.Footing
import RowStore.Proofs.Call.Insertion
import RowStore.Proofs.Call.Passage
import RowStore.Proofs.Call.Read
import RowStore.Proofs.Call.Room
import RowStore.Proofs.Call.Run
import RowStore.Proofs.Call.Scan
import RowStore.Proofs.Call.Stage
import RowStore.Proofs.Call.Twins
import RowStore.Proofs.Call.Underway
import RowStore.Proofs.Catalog
import RowStore.Proofs.Database
import RowStore.Proofs.Lock.Cycle
import RowStore.Proofs.Lock.Deadlock
import RowStore.Proofs.Lock.Decide
import RowStore.Proofs.Lock.Records
import RowStore.Proofs.Lock.Run
import RowStore.Proofs.Lock.Safety
import RowStore.Proofs.Lock.Search
import RowStore.Proofs.Log.Crash
import RowStore.Proofs.Log.Cut
import RowStore.Proofs.Log.History
import RowStore.Proofs.Log.Record
import RowStore.Proofs.Page.Extent
import RowStore.Proofs.Page.Layout
import RowStore.Proofs.Page.PageArray
import RowStore.Proofs.Page.Rows
import RowStore.Proofs.Page.SlotMap
import RowStore.Proofs.Page.Slots
import RowStore.Proofs.Page.Stored
import RowStore.Proofs.Page.Vacancy
import RowStore.Proofs.Page.Window
import RowStore.Proofs.Pool.Account
import RowStore.Proofs.Pool.Attempt
import RowStore.Proofs.Pool.Cache
import RowStore.Proofs.Pool.Capacity
import RowStore.Proofs.Pool.Coherent
import RowStore.Proofs.Pool.Completion
import RowStore.Proofs.Pool.Move
import RowStore.Proofs.Pool.Residence
import RowStore.Proofs.Pool.Trace
import RowStore.Proofs.Pool.Twins
import RowStore.Proofs.Pool.View
import RowStore.Proofs.Pool.WriteBack
import RowStore.Proofs.Row.Codec
import RowStore.Proofs.Row.RoundTrip
import RowStore.Proofs.Service.Action
import RowStore.Proofs.Service.Coherence
import RowStore.Proofs.Service.Completion
import RowStore.Proofs.Service.Eviction
import RowStore.Proofs.Service.ExactScan
import RowStore.Proofs.Service.FailedChange
import RowStore.Proofs.Service.Failure
import RowStore.Proofs.Service.FirstFit
import RowStore.Proofs.Service.Footprint
import RowStore.Proofs.Service.Guarded
import RowStore.Proofs.Service.Handle
import RowStore.Proofs.Service.History
import RowStore.Proofs.Service.Insertion
import RowStore.Proofs.Service.Ledger
import RowStore.Proofs.Service.Legible
import RowStore.Proofs.Service.LogFirst
import RowStore.Proofs.Service.Orderly
import RowStore.Proofs.Service.Reading
import RowStore.Proofs.Service.Repeatable
import RowStore.Proofs.Service.Residence
import RowStore.Proofs.Service.Room
import RowStore.Proofs.Service.Scan
import RowStore.Proofs.Service.ScanEnd
import RowStore.Proofs.Service.Sound
import RowStore.Row
import RowStore.Row.Schema
import RowStore.Row.Value
import RowStore.SparseBytes
import RowStore.Text.Blank
import RowStore.Text.CharRanges
import RowStore.Text.Combining
import RowStore.Text.Ignorable
import RowStore.Text.Quoted
import RowStore.Text.Unprintable
