import Fuso.Async.Copy
import Fuso.Async.Dialog
import Fuso.Async.Endian
import Fuso.Async.Exact
import Fuso.Async.Forward
import Fuso.Async.Join
import Fuso.Async.Outlet
import Fuso.Async.Party
import Fuso.Async.ReadExact
import Fuso.Async.Reader
import Fuso.Async.Sink
import Fuso.Async.Source
import Fuso.Async.Stream
import Fuso.Async.Torn
import Fuso.Async.Truncate
import Fuso.Async.Unframe
import Fuso.Async.Writer
import Fuso.Client.Run
import Fuso.Compress.Layer
import Fuso.Compress.Lz4
import Fuso.Compress.Lz4Bounds
import Fuso.Compress.Lz4Codec
import Fuso.Compress.Lz4Lossless
import Fuso.Compress.Lz4Read
import Fuso.Compress.Lz4Ring
import Fuso.Compress.Lz4Write
import Fuso.Compress.Peer
import Fuso.Compress.Truncated
import Fuso.Encryption.Decrypt
import Fuso.Encryption.Encrypt
import Fuso.Encryption.Encryptor
import Fuso.Encryption.Layer
import Fuso.Encryption.Reader
import Fuso.Encryption.Send
import Fuso.Encryption.Transparent
import Fuso.Encryption.Truncated
import Fuso.Guard.Accumulate
import Fuso.Guard.Buffer
import Fuso.Guard.EndOfStream
import Fuso.Guard.Fallback
import Fuso.Guard.Fifo
import Fuso.Guard.Replay
import Fuso.Kcp.Absorb
import Fuso.Kcp.Arrival
import Fuso.Kcp.Bounds
import Fuso.Kcp.ByteStream
import Fuso.Kcp.Check
import Fuso.Kcp.Connector
import Fuso.Kcp.Conversations
import Fuso.Kcp.Core
import Fuso.Kcp.Datagrams
import Fuso.Kcp.Demultiplex
import Fuso.Kcp.Emit
import Fuso.Kcp.Endpoint
import Fuso.Kcp.Exchange
import Fuso.Kcp.Graceful
import Fuso.Kcp.Kcp
import Fuso.Kcp.Messages
import Fuso.Kcp.Output
import Fuso.Kcp.Parked
import Fuso.Kcp.Receive
import Fuso.Kcp.Segment
import Fuso.Kcp.Sessions
import Fuso.Kcp.Speaks
import Fuso.Kcp.Transfer
import Fuso.Kcp.Update
import Fuso.Kcp.Wakers
import Fuso.Kcp.Window
import Fuso.Penetrate.Accept
import Fuso.Penetrate.Bridge
import Fuso.Penetrate.Chain
import Fuso.Penetrate.Decorate
import Fuso.Penetrate.Generate
import Fuso.Penetrate.Handshake
import Fuso.Penetrate.Leak
import Fuso.Penetrate.Pairing
import Fuso.Penetrate.Progress
import Fuso.Penetrate.Queue
import Fuso.Penetrate.Secret
import Fuso.Penetrate.Selector
import Fuso.Penetrate.Server
import Fuso.Penetrate.Settle
import Fuso.Penetrate.Setup
import Fuso.Penetrate.Sniffing
import Fuso.Protocol.Agree
import Fuso.Protocol.Control
import Fuso.Protocol.Encrypted
import Fuso.Protocol.Framing
import Fuso.Protocol.Hosts
import Fuso.Protocol.Packet
import Fuso.Protocol.Recv
import Fuso.Protocol.Send
import Fuso.Protocol.Senders
import Fuso.Socks.Address
import Fuso.Socks.Auth
import Fuso.Socks.Authentication
import Fuso.Socks.Consumed
import Fuso.Socks.Decline
import Fuso.Socks.Fragmentation
import Fuso.Socks.Handshake
import Fuso.Socks.Negotiation
import Fuso.Socks.Offer
import Fuso.Socks.Parse
import Fuso.Socks.Reading
import Fuso.Socks.Reply
import Fuso.Socks.Request
import Fuso.Socks.Runs
import Fuso.Socks.UdpHeader
import Fuso.Socks.UdpRelay
import Fuso.Socks.View
import Fuso.Theory.Arq
import Fuso.Theory.Deadline
import Fuso.Theory.Frame
import Fuso.Theory.Lockstep
import Fuso.Theory.Pool
import Fuso.Theory.Race
import Fuso.Theory.Ring
import Fuso.Theory.Run
import Fuso.Theory.Seq
import Fuso.Theory.Serial
import Fuso.Theory.Turn
import Fuso.Udp.Boundaries
import Fuso.Udp.Datagram
import Fuso.Udp.Registry
import Fuso.Udp.Session
