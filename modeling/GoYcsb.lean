import GoYcsb.Lib.Int64
import GoYcsb.Lib.Bytes
import GoYcsb.Lib.Congruence
import GoYcsb.Lib.Fnv
import GoYcsb.Lib.Decimal
import GoYcsb.Lib.Varint
import GoYcsb.Lib.GoMap
import GoYcsb.Lib.KeyRange
import GoYcsb.Lib.Memory
import GoYcsb.Lib.Ownership
import GoYcsb.Lib.Float64
import GoYcsb.Lib.Outcome
import GoYcsb.Lib.Run
import GoYcsb.Lib.Rpc
import GoYcsb.Lib.Regexp
import GoYcsb.Lib.Dispenser
import GoYcsb.Lib.RingBuffer
import GoYcsb.Prop.Properties
import GoYcsb.Util.SpinLock
import GoYcsb.Util.Hash
import GoYcsb.Util.Impl.Row
import GoYcsb.Util.Impl.RowCodec
import GoYcsb.Util.Lemmas.Row
import GoYcsb.Util.Lemmas.RowCodec
import GoYcsb.Util.Lemmas.Columns
import GoYcsb.Util.Lemmas.Merge
import GoYcsb.Db.Tikv.Impl.Raw
import GoYcsb.Db.Tikv.Impl.Txn
import GoYcsb.Db.Tikv.Impl.Table
import GoYcsb.Db.Tikv.Lemmas.Paging
import GoYcsb.Db.Tikv.Lemmas.Raw
import GoYcsb.Db.Tikv.Lemmas.BatchUpdate
import GoYcsb.Db.Tikv.Impl.RawThreads
import GoYcsb.Db.Tikv.Lemmas.RawThreads
import GoYcsb.Db.Tikv.Lemmas.Table
import GoYcsb.Generator.Impl.AcknowledgedCounter
import GoYcsb.Generator.Impl.Session
import GoYcsb.Generator.Impl.Generator
import GoYcsb.Generator.Lemmas.Generator
import GoYcsb.Generator.Lemmas.Histogram
import GoYcsb.Generator.Lemmas.Hotspot
import GoYcsb.Generator.Lemmas.Discrete
import GoYcsb.Generator.Impl.Zeta
import GoYcsb.Generator.Lemmas.Zeta
import GoYcsb.Generator.Lemmas.AcknowledgedCounter
import GoYcsb.Generator.Lemmas.Session
import GoYcsb.Generator.Impl.Concurrent
import GoYcsb.Generator.Lemmas.Atomic
import GoYcsb.Generator.Lemmas.Concurrent
import GoYcsb.Generator.Lemmas.Cursor
import GoYcsb.Generator.Lemmas.Scan
import GoYcsb.Generator.Lemmas.Handoff
import GoYcsb.Workload.Impl.Create
import GoYcsb.Workload.Impl.Value
import GoYcsb.Workload.Impl.Transaction
import GoYcsb.Workload.Impl.Bench
import GoYcsb.Workload.Lemmas.Value
import GoYcsb.Workload.Lemmas.Transaction
import GoYcsb.Workload.Lemmas.Bench
import GoYcsb.Workload.Lemmas.DataIntegrity
import GoYcsb.Workload.Impl.KeyNum
import GoYcsb.Workload.Lemmas.Create
import GoYcsb.Workload.Lemmas.KeyName
import GoYcsb.Workload.Lemmas.OperationChooser
import GoYcsb.Workload.Lemmas.KeyNum
import GoYcsb.Workload.Impl.Insert
import GoYcsb.Workload.Lemmas.Insert
import GoYcsb.Workload.Impl.Load
import GoYcsb.Workload.Lemmas.Load
import GoYcsb.Workload.Lemmas.Record
import GoYcsb.Client.Impl.Client
import GoYcsb.Client.Lemmas.Worker
import GoYcsb.Client.Lemmas.Client
import GoYcsb.Client.Lemmas.Accounts
import GoYcsb.Client.Lemmas.Load
import GoYcsb.Lib.ForkJoin
import GoYcsb.Cmd.Impl.Count
import GoYcsb.Cmd.Lemmas.Threads
import GoYcsb.Cmd.Lemmas.Count
import GoYcsb.Measurement.Impl.Prometheus
import GoYcsb.Measurement.Lemmas.MetricName
import GoYcsb.Measurement.Lemmas.Aggregation
import GoYcsb.Measurement.Lemmas.Prometheus
import GoYcsb.Measurement.Impl.Query
import GoYcsb.Measurement.Lemmas.Query
import GoYcsb.Measurement.Lemmas.Statistics
import GoYcsb.Lib.Sql
import GoYcsb.Lib.SqlTable
import GoYcsb.Db.Sql.Lemmas.Statement
import GoYcsb.Util.Lemmas.FieldPairs
import GoYcsb.Db.Mysql.Impl.Insert
import GoYcsb.Db.Mysql.Impl.Update
import GoYcsb.Db.Pg.Impl.Db
import GoYcsb.Db.Mysql.Lemmas.Insert
import GoYcsb.Db.Mysql.Lemmas.BatchInsert
import GoYcsb.Db.Sql.Lemmas.Update
import GoYcsb.Db.Sql.Impl.StmtCache
import GoYcsb.Db.Sql.Lemmas.StmtCache
import GoYcsb.Db.Sqlite.Impl.Tx
import GoYcsb.Db.Sqlite.Lemmas.Tx
import GoYcsb.Client.Impl.DbWrapper
import GoYcsb.Client.Lemmas.DbWrapper
import GoYcsb.Client.Impl.Measure
import GoYcsb.Client.Lemmas.Measure
import GoYcsb.Db.Aerospike.Impl.Update
import GoYcsb.Db.Aerospike.Lemmas.Update
import GoYcsb.Lib.Json
import GoYcsb.Lib.Kv
import GoYcsb.Db.Contract.Impl.Records
import GoYcsb.Db.Etcd.Impl.Db
import GoYcsb.Db.Pegasus.Impl.Db
import GoYcsb.Db.Contract.Lemmas.Records
import GoYcsb.Db.Contract.Lemmas.Reads
import GoYcsb.Db.Tikv.Impl.Scan
import GoYcsb.Db.Tikv.Lemmas.Scan
import GoYcsb.Db.Embedded.Impl.Row
import GoYcsb.Db.Boltdb.Impl.Db
import GoYcsb.Db.Badger.Impl.Db
import GoYcsb.Db.Embedded.Lemmas.Scan
import GoYcsb.Db.Etcd.Impl.Scan
import GoYcsb.Db.Etcd.Lemmas.Scan
import GoYcsb.Lib.Msgpack
import GoYcsb.Db.S3.Impl.Db
import GoYcsb.Db.S3.Lemmas.Scan
import GoYcsb.Db.S3.Lemmas.Records
import GoYcsb.Db.S3.Lemmas.Update
import GoYcsb.Db.Contract.Lemmas.Columns
import GoYcsb.Db.Tikv.Impl.BatchRead
import GoYcsb.Db.Tikv.Lemmas.BatchRead
import GoYcsb.Lib.Base64
import GoYcsb.Db.Redis.Impl.Db
import GoYcsb.Db.Redis.Lemmas.Update
import GoYcsb.Db.Redis.Lemmas.Json
import GoYcsb.Lib.Strings
import GoYcsb.Lib.Strconv
import GoYcsb.Lib.File
import GoYcsb.Util.Impl.Output
import GoYcsb.Measurement.Impl.Output
import GoYcsb.Tool.Impl.Report
import GoYcsb.Tool.Lemmas.Line
import GoYcsb.Tool.Lemmas.Summary
import GoYcsb.Tool.Lemmas.Log
import GoYcsb.Lib.AtomicObject
import GoYcsb.Lib.Threads
import GoYcsb.Lib.Locks
import GoYcsb.Lib.LockedObject
import GoYcsb.Util.Impl.ConcurrentMap
import GoYcsb.Util.Lemmas.ConcurrentMap
import GoYcsb.Lib.Csv
import GoYcsb.Lib.Snapshot
import GoYcsb.Measurement.Impl.Csv
import GoYcsb.Measurement.Lemmas.Csv
import GoYcsb.Db.Tikv.Impl.TxnThreads
import GoYcsb.Db.Tikv.Lemmas.TxnThreads
import GoYcsb.Client.Impl.Run
import GoYcsb.Client.Lemmas.Throttle
import GoYcsb.Client.Lemmas.Run
import GoYcsb.Client.Lemmas.Untimed
import GoYcsb.Client.Lemmas.Ends
import GoYcsb.Client.Lemmas.Target
