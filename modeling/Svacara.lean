import Svacara.Btree.Proofs.Drop
import Svacara.Transaction.Proofs.Snapshot
import Svacara.Transaction.Proofs.Serial
import Svacara.Kvstore.Proofs.Failure
import Svacara.Relational.Proofs.Indexes
import Svacara.Cli.Proofs.PrintResult
import Svacara.Server.Proofs.Framing
import Svacara.Shard.Proofs.Refinement
import Svacara.Pool.Proofs.Leak
import Svacara.Sql.Proofs.RoundTrip
import Svacara.Btree.Proofs.FreeLog
import Svacara.Transaction.Proofs.Reads
import Svacara.Sql.Proofs.PrimaryKey
import Svacara.Protocol.Proofs.Widths
import Svacara.Sql.Proofs.Window
import Svacara.Kvstore.Proofs.Float
import Svacara.Kvstore.Proofs.Bounds
import Svacara.Sql.Proofs.Average
import Svacara.Btree.Proofs.Lists
import Svacara.Btree.Proofs.Overflow
import Svacara.Sql.Proofs.Spelling
import Svacara.Kvstore.Proofs.Lifetime
import Svacara.Server.Proofs.Session
import Svacara.Server.Proofs.Answers
