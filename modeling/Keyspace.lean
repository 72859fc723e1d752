import Keyspace.Main
import Keyspace.Proofs.Expiry.Schedule
import Keyspace.Proofs.Shard.Modes
import Keyspace.Proofs.Shard.Keymap
import Keyspace.Proofs.Wire.RoundTrip
import Keyspace.Proofs.Session.Cuts
import Keyspace.Proofs.Session.Delivery
import Keyspace.Proofs.Store.Sharding
import Keyspace.Proofs.Command.Refusal
import Keyspace.Proofs.Command.Lifetime
import Keyspace.Proofs.Store.Contents
import Keyspace.Proofs.Store.Sweeping
import Keyspace.Proofs.Command.Independence
import Keyspace.Proofs.Command.OneByOne
import Keyspace.Proofs.Store.Everywhere
import Keyspace.Proofs.Wire.Stream
import Keyspace.Proofs.Command.Limits
import Keyspace.Proofs.Wire.Agreement
import Keyspace.Proofs.Wire.Slices
import Keyspace.Proofs.Session.Turns
import Keyspace.Proofs.Command.Hashes
import Keyspace.Proofs.Shard.Compaction
import Keyspace.Proofs.Pool.Batches
import Keyspace.Proofs.Session.Accounting
import Keyspace.Proofs.Sweeper.Pace
import Keyspace.Proofs.Expiry.Remaining
import Keyspace.Proofs.Command.Dispatch
