import DramatiqPostgres.Lib.Runs
import DramatiqPostgres.Queue.Broker
import DramatiqPostgres.Queue.Doorbell
import DramatiqPostgres.Queue.RowInvariant
import DramatiqPostgres.Delivery.Ledger
import DramatiqPostgres.Delivery.Held
import DramatiqPostgres.Delivery.LateAck
import DramatiqPostgres.Delivery.StaleSettle
import DramatiqPostgres.Worker.Consumer
import DramatiqPostgres.Worker.Heartbeat
import DramatiqPostgres.Worker.Maintenance
import DramatiqPostgres.Lib.RowLocks
import DramatiqPostgres.Queue.ExclusiveClaim
import DramatiqPostgres.Admin.Retry
import DramatiqPostgres.Admin.RetryFailure
import DramatiqPostgres.Results.Store
import DramatiqPostgres.Results.BlockingRead
import DramatiqPostgres.Results.Encoders
import DramatiqPostgres.Worker.Batch
import DramatiqPostgres.Worker.Prefetch
import DramatiqPostgres.Pg.Statement
import DramatiqPostgres.Utils.QueryManager
import DramatiqPostgres.Lib.Dict
import DramatiqPostgres.Queue.Values
import DramatiqPostgres.Delivery.Survival
import DramatiqPostgres.Delivery.Delay
import DramatiqPostgres.Utils.Sessions
import DramatiqPostgres.Results.CrossTalk
import DramatiqPostgres.Lib.Url
import DramatiqPostgres.Pg.Conninfo
import DramatiqPostgres.Utils.MakePool
import DramatiqPostgres.Results.RepeatedStores
import DramatiqPostgres.Utils.TableNames
import DramatiqPostgres.Admin.Workers
import DramatiqPostgres.Pg.ObjectNames
import DramatiqPostgres.Schema.Init
import DramatiqPostgres.Worker.Notifier
import DramatiqPostgres.Worker.Wakeup
import DramatiqPostgres.Queue.Mtime
import DramatiqPostgres.Lib.Substitute
import DramatiqPostgres.Schema.Template
import DramatiqPostgres.Queue.Lifecycle
import DramatiqPostgres.Worker.Waiting
import DramatiqPostgres.Worker.Liveness
import DramatiqPostgres.Lib.Attempts
import DramatiqPostgres.Utils.RetryPg
import DramatiqPostgres.Queue.EnqueueCall
import DramatiqPostgres.Utils.Leases
import DramatiqPostgres.Lib.Expiring
import DramatiqPostgres.Results.Register
import DramatiqPostgres.Lib.Grouped
import DramatiqPostgres.Admin.JobSummary
import DramatiqPostgres.Lib.SharedPool
import DramatiqPostgres.Utils.PoolShare
import DramatiqPostgres.Worker.Reaping
import DramatiqPostgres.Queue.LockedLifecycle
import DramatiqPostgres.Lib.LockWaits
import DramatiqPostgres.Lib.LockSteps
import DramatiqPostgres.Queue.RowWaits
import DramatiqPostgres.Lib.Gate
import DramatiqPostgres.Worker.Rates
import DramatiqPostgres.Queue.LockedRows
