import Hail.Library.Bytes
import Hail.Library.Table
import Hail.Library.Xdr
import Hail.Library.Buffer
import Hail.Library.Run
import Hail.Library.Txn
import Hail.Library.Frames
import Hail.Library.Ledger
import Hail.Library.Retained
import Hail.Library.References
import Hail.Cld.Rpc
import Hail.Cld.Path
import Hail.Cld.Cldb
import Hail.Cld.Pkt
import Hail.Cld.PktCheck
import Hail.Cld.Ubbp
import Hail.Cld.Server
import Hail.Cld.Session
import Hail.Cld.Release
import Hail.Cld.Msg
import Hail.Cld.Effect
import Hail.Cld.Rx
import Hail.Cld.Step
import Hail.Cld.RefInt
import Hail.Cld.Locks
import Hail.Cld.Told
import Hail.Cld.Grants
import Hail.Cld.Tree
import Hail.Cld.Namespace
import Hail.Cld.Read
import Hail.Cld.Reassembly
import Hail.Cld.Conn
import Hail.Cld.Reply
import Hail.Cld.Abort
import Hail.Cldc.Tcp
import Hail.Cldc.Session
import Hail.Cldc.Receive
import Hail.Cldc.Link
import Hail.Cldc.Window
import Hail.Cldc.Refusal
import Hail.Cldc.Assembly
import Hail.Cldc.Events
import Hail.Cld.Sizes
import Hail.Cld.Auth
import Hail.Cld.Clock
import Hail.Cld.Restart
import Hail.Cld.Handles
import Hail.Cld.Numbers
import Hail.Cldc.Recovery
import Hail.Cld.Sessions
import Hail.Cld.SessTable
import Hail.Cld.Commits
import Hail.Cldc.Get
import Hail.Cld.Versions
import Hail.Cldc.Fragments
import Hail.Cldc.Completion
import Hail.Cldc.AckFrag
import Hail.Cld.LockOrder
import Hail.Cld.OutQueue
import Hail.Cld.Grammar
import Hail.Cldc.Dirent
import Hail.Library.Blocks
import Hail.Library.File
import Hail.Library.Changes
import Hail.Chunkd.Msg
import Hail.Chunkd.Fs
import Hail.Chunkd.ReadBack
import Hail.Chunkd.Sums
import Hail.Chunkd.Verify
import Hail.Chunkd.Client
import Hail.Library.Outbox
import Hail.Chunkd.WriteQueue
import Hail.Chunkd.Table
import Hail.Chunkd.SelfCheck
import Hail.Chunkd.Listing
import Hail.Chunkd.Object
import Hail.Chunkd.Server
import Hail.Chunkd.Steps
import Hail.Chunkd.Reading
import Hail.Chunkd.GetPart
import Hail.Chunkd.TableIds
import Hail.Chunkd.Parsing
import Hail.Chunkd.Framing
import Hail.Chunkd.Login
import Hail.Chunkd.Guard
import Hail.Library.Socket
import Hail.Chunkd.Draining
import Hail.Chunkd.Answers
import Hail.Chunkd.Replies
import Hail.Chunkdc.Stc
import Hail.Chunkdc.Requests
import Hail.Chunkdc.Calls
import Hail.Chunkd.Daemon
import Hail.Chunkd.Actives
import Hail.Chunkd.Uploads
import Hail.Chunkd.Store
import Hail.Chunkd.Traces
import Hail.Chunkd.Isolation
import Hail.Chunkd.Jobs
import Hail.Chunkd.Scan
import Hail.Chunkd.Check
import Hail.Chunkd.Cldu
import Hail.Lib.Timer
import Hail.Library.Buckets
import Hail.Lib.Htab
import Hail.Lib.Sign
import Hail.Lib.Query
import Hail.Lib.Atcp
