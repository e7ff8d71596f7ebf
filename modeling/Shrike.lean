import Shrike.Outbound.Targets
import Shrike.Mst.Canonicity
import Shrike.Repo.Revisions
import Shrike.ServiceAuth.Verification
import Shrike.Xrpc.RoundTrip
import Shrike.Streaming.Restart
import Shrike.Jetstream.ClientArchive
import Shrike.Jetstream.Handover
import Shrike.OAuth.Resurrection
import Shrike.OAuth.Issuer
import Shrike.OAuth.Splitting
import Shrike.OAuth.Missing
import Shrike.Sync.Forward
import Shrike.Sync.Clock
import Shrike.Sync.Frame
import Shrike.Sync.Queue
import Shrike.Mst.Diff
import Shrike.Car.Writer
import Shrike.Jetstream.Decode
import Shrike.Jetstream.SegmentExact
import Shrike.Streaming.Settling
import Shrike.Identities.Coherence
import Shrike.Labeling.Reading
import Shrike.Mst.CoveringExact
import Shrike.Lexicon.Reached
import Shrike.OAuth.Expiry
import Shrike.Syntax.Usable
import Shrike.Xrpc.LimitKeys
import Shrike.Xrpc.MemoryStore
import Shrike.Xrpc.EventStream
import Shrike.Xrpc.Collecting
import Shrike.Lexicon.Freshness
import Shrike.Mst.Saved
import Shrike.Syntax.TidText
import Shrike.Cbor.Base32
import Shrike.Mst.Primitives
import Shrike.Cbor.Sha256
import Shrike.Jetstream.Loopback
import Shrike.Xrpc.Session
import Shrike.Jetstream.Ordered
import Shrike.Jetstream.Sweep
