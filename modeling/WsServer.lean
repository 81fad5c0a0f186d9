import WsServer.FBPTree.Contract
import WsServer.FBPTree.Occupancy
import WsServer.FBPTree.Costs
import WsServer.FBPTree.Scans
import WsServer.Convergecast.SyncRuns
import WsServer.Convergecast.AsyncRuns
import WsServer.Convergecast.RedundantEdges
import WsServer.Convergecast.Agreement
import WsServer.Convergecast.TreeAscii
import WsServer.Convergecast.TreeDot
import WsServer.Login.Names
import WsServer.Login.History
import WsServer.Login.NameIndex
import WsServer.Login.Tokens
import WsServer.Login.Ambiguity
import WsServer.Login.Records
import WsServer.Login.CaseFolding
import WsServer.Login.Archive
import WsServer.Login.Coherence
import WsServer.Login.Failures
import WsServer.DataHandler.CopyDelete
import WsServer.DataHandler.Appends
import WsServer.Pipe.Output
import WsServer.Pipe.Sessions
import WsServer.Pipe.Characters
import WsServer.Pipe.Channel
import WsServer.Transactions.Overlap
import WsServer.Transactions.WriteAheadLog
import WsServer.Transactions.Rollback
import WsServer.Transactions.Recovery
import WsServer.Parser.Framing
import WsServer.Tls.Composition
import WsServer.Web.Protocol
import WsServer.Web.Shutdown
import WsServer.Web.Coroutines
import WsServer.Crypto.RoundTrips
import WsServer.Crypto.Acceptance
import WsServer.Crypto.KeyPairs
import WsServer.Signal.Protocol
import WsServer.Crawler.Registration
import WsServer.Crawler.Retries
import WsServer.Crawler.Recursive
