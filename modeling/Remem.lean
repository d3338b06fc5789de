import Remem.Graph.Rebuild
import Remem.Attr.CacheSafety
import Remem.Graph.Discovery
import Remem.Jobs.Fencing
import Remem.Events.AppendOnly
import Remem.Record.Chain
import Remem.Lifecycle.Settles
import Remem.IndexQueue.Losses
import Remem.Users.Names
import Remem.Users.Authentication
import Remem.Hnsw.Budget
import Remem.Memory.Sessions
import Remem.Jobs.Launching
import Remem.Jobs.Repairs
import Remem.Jobs.Recurrence
import Remem.Attr.Upgrades
import Remem.Jobs.Failing
import Remem.Memory.Recall
import Remem.Storage.Pebble
import Remem.Schema.Runner
import Remem.Attr.ByteOrder
import Remem.Memory.Ranked
import Remem.Query.Widening
import Remem.Attr.Wire
import Remem.Lifecycle.Positions
import Remem.Record.RoundTrip
import Remem.Storage.Dump
import Remem.Text.Rows
import Remem.Schema.Upgrade
import Remem.Embedding.Cache
import Remem.Storage.Seek
import Remem.Embedding.Passes
import Remem.Attr.Paging
