import Wires.Framework.Outcome
import Wires.Framework.Sorted
import Wires.Framework.Json
import Wires.Framework.JsonOpen
import Wires.Framework.JsonRoundTrip
import Wires.Framework.Machine
import Wires.Framework.Framing
import Wires.Framework.Wire
import Wires.Framework.Stream
import Wires.Framework.Bytes
import Wires.Framework.Base64
import Wires.Framework.Decode
import Wires.Framework.JsonSize
import Wires.Framework.Signing
import Wires.Framework.Text
import Wires.Framework.Run
import Wires.Framework.Ledger
import Wires.Framework.Serial
import Wires.Framework.Rate
import Wires.Framework.Capped
import Wires.Framework.Best
import Wires.Framework.Lines
import Wires.Framework.Prefix
import Wires.Framework.Utf8
import Wires.Framework.Windows
import Wires.Framework.Checked
import Wires.Framework.Calendar
import Wires.Framework.Files
import Wires.Framework.Blocks
import Wires.Framework.Digits
import Wires.Framework.Search
import Wires.Impl.Identity
import Wires.Impl.Role
import Wires.Impl.Entry
import Wires.Impl.Item
import Wires.Impl.Head
import Wires.Impl.View
import Wires.Impl.SignedPolicy
import Wires.Proof.Items
import Wires.Proof.Encoding
import Wires.Proof.Signing
import Wires.Impl.Fresh
import Wires.Proof.Messages
import Wires.Proof.TamperEvidence
import Wires.Impl.Access
import Wires.Impl.Store
import Wires.Impl.Gate
import Wires.Proof.Store
import Wires.Proof.Deciders
import Wires.Impl.IdToken
import Wires.Impl.Host
import Wires.Impl.HeldView
import Wires.Impl.Jwks
import Wires.Impl.Vouch
import Wires.Impl.StoredView
import Wires.Impl.Session
import Wires.Impl.Frame
import Wires.Impl.DirectoryFrame
import Wires.Impl.InboxFrame
import Wires.Impl.Queue
import Wires.Impl.Delivery
import Wires.Impl.Push
import Wires.Impl.LongPoll
import Wires.Impl.Reader
import Wires.Impl.Bridge
import Wires.Impl.Directory
import Wires.Impl.Serve
import Wires.Impl.Follow
import Wires.Impl.Call
import Wires.Impl.Dialing
import Wires.Impl.Network
import Wires.Impl.KeyFetch
import Wires.Impl.Capability
import Wires.Impl.Control
import Wires.Impl.Child
import Wires.Impl.Clients
import Wires.Impl.Mcp
import Wires.Impl.McpFollow
import Wires.Impl.Views
import Wires.Impl.Edit
import Wires.Impl.OAuth
import Wires.Impl.RateLimit
import Wires.Impl.Shape
import Wires.Impl.Utc
import Wires.Impl.Propagate
import Wires.Impl.Keystore
import Wires.Impl.McpHttp
import Wires.Impl.Addr
import Wires.Impl.Metadata
import Wires.Impl.Pick
import Wires.Impl.Loopback
import Wires.Proof.Frames
import Wires.Proof.Readers
import Wires.Proof.Limits
import Wires.Proof.Sizes
import Wires.Proof.Directory
import Wires.Proof.Serve
import Wires.Proof.IdToken
import Wires.Proof.Trust
import Wires.Proof.Inbox
import Wires.Proof.Delivery
import Wires.Proof.LongPoll
import Wires.Proof.Mailbox
import Wires.Proof.InboxLoop
import Wires.Proof.Publish
import Wires.Proof.Subscription
import Wires.Proof.FreshSet
import Wires.Proof.Freshness
import Wires.Proof.ReadBack
import Wires.Proof.Follow
import Wires.Proof.Call
import Wires.Proof.KeyFetch
import Wires.Proof.Capability
import Wires.Proof.Control
import Wires.Proof.Child
import Wires.Proof.Clients
import Wires.Proof.OAuth
import Wires.Proof.Redeem
import Wires.Proof.Mcp
import Wires.Proof.Fetching
import Wires.Proof.Proving
import Wires.Proof.Host
import Wires.Proof.Sessions
import Wires.Proof.StoredView
import Wires.Proof.Floor
import Wires.Proof.History
import Wires.Proof.Vouching
import Wires.Proof.Release
import Wires.Proof.Shown
import Wires.Proof.McpFollow
import Wires.Proof.Views
import Wires.Proof.Edit
import Wires.Proof.Remove
import Wires.Proof.Stdin
import Wires.Proof.RateLimit
import Wires.Proof.Patterns
import Wires.Proof.Shape
import Wires.Proof.Utc
import Wires.Proof.Flow
import Wires.Proof.Tokens
import Wires.Proof.Propagation
import Wires.Proof.Propagate
import Wires.Proof.Publishable
import Wires.Proof.Lying
import Wires.Proof.Bridge
import Wires.Proof.Relays
import Wires.Proof.Stdio
import Wires.Proof.Dialing
import Wires.Proof.Superseded
import Wires.Proof.Keystore
import Wires.Proof.McpHttp
import Wires.Proof.WebGateway
import Wires.Proof.Addr
import Wires.Proof.Metadata
import Wires.Proof.Pick
import Wires.Proof.Loopback
