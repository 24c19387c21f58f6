import NetService.Lib.LTS
import NetService.Lib.Loop
import NetService.Lib.Memory
import NetService.Buffer.Model
import NetService.Buffer.Invariant
import NetService.Buffer.Spec
import NetService.Buffer.Fifo
import NetService.Handler.Model
import NetService.Handler.Echo
import NetService.Handler.Rearm
import NetService.Lib.Tally
import NetService.ThreadPool.Model
import NetService.ThreadPool.Moves
import NetService.ThreadPool.Tasks
import NetService.ThreadPool.Wakeup
import NetService.Dispatcher.Model
import NetService.Dispatcher.Post
import NetService.Tcp.Model
import NetService.Tcp.Packet
import NetService.Tcp.Reassembly
import NetService.MemoryBuff.Model
import NetService.Tcp.Safety
import NetService.MemoryBuff.Steps
import NetService.MemoryBuff.Fifo
import NetService.Lib.Keystream
import NetService.Ws.Cursor
import NetService.Ws.Delivery
import NetService.ConnectMgr.Model
import NetService.ConnectMgr.Registered
import NetService.Lib.OrBytes
import NetService.MemoryBuff.Offers
import NetService.Service.Packs
import NetService.Service.Shutdown
import NetService.Tcp.Termination
import NetService.ThreadPool.Order
import NetService.Ws.Calls
import NetService.Ws.FinishParse
import NetService.Ws.Reclaim
import NetService.WsConnect.Handshake
import NetService.Buffer.Calls
import NetService.Buffer.Data
import NetService.Dispatcher.Join
import NetService.FdBridge.Read
import NetService.Lib.Codec
import NetService.Tcp.Unread
import NetService.Ws.Backpressure
import NetService.Ws.ParseError
import NetService.Ws.Replies
import NetService.Ws.SendFrame
import NetService.MemoryBuff.Chain
import NetService.MemoryBuff.GetChar
import NetService.Ws.Agree
import NetService.Lib.BlockHash
import NetService.Sha1.Spec
import NetService.Sha1.Model
import NetService.Sha1.Block
import NetService.Sha1.Pad
import NetService.Sha1.Calls
import NetService.Lib.BlockWriter
import NetService.Lib.CString
import NetService.Base64.Model
import NetService.Base64.Encode
import NetService.Base64.Decode
import NetService.Handshake.Model
import NetService.Handshake.Response
import NetService.WsConnect.Session
import NetService.Dispatcher.Progress
import NetService.Dispatcher.Stop
import NetService.ThreadPool.Progress
import NetService.Lib.Ranking
import NetService.Lib.Handles
import NetService.EchoServer.Model
import NetService.EchoServer.Connections
import NetService.Tcp.Framing
import NetService.Tcp.ServerPack
import NetService.Terminal.Model
import NetService.Terminal.Session
import NetService.Lib.FirstReturn
import NetService.Utf8.Model
import NetService.Utf8.Automaton
import NetService.Utf8.Valid
import NetService.Utf8.Codepoint
import NetService.Service.Console
