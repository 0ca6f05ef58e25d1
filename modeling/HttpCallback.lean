import HttpCallback.Parse.Basic
import HttpCallback.Parse.Canonical
import HttpCallback.Parse.NullToken
import HttpCallback.Lib.Memory
import HttpCallback.Recv.Basic
import HttpCallback.Recv.Segmentation
import HttpCallback.Recv.Bound
import HttpCallback.Lib.LexPath
import HttpCallback.Request.Basic
import HttpCallback.Request.Bounds
import HttpCallback.Request.Confine
import HttpCallback.Lib.Delivery
import HttpCallback.Response
import HttpCallback.Handoff
import HttpCallback.Worker.Basic
import HttpCallback.Worker.Frame
import HttpCallback.Worker.Answers
import HttpCallback.Request.Agree
import HttpCallback.Worker.Isolation
import HttpCallback.Master
import HttpCallback.Worker.Casts
import HttpCallback.Recv.Outcomes
import HttpCallback.Worker.Recycled
import HttpCallback.Pool.Basic
import HttpCallback.Pool.Counter
import HttpCallback.Pool.Supervision
import HttpCallback.Recv.Scratch
import HttpCallback.Rio
import HttpCallback.Parse.Slots
import HttpCallback.Parse.Spacing
import HttpCallback.Request.Results
import HttpCallback.Response.Send
import HttpCallback.Response.Body
import HttpCallback.Response.Stream
import HttpCallback.Worker.Receive
import HttpCallback.Pool.Status
import HttpCallback.Lib.Rotation
import HttpCallback.Pool.Balance
import HttpCallback.Addresses
import HttpCallback.Parse.Cursor
import HttpCallback.Recv.HttpRcv
import HttpCallback.Response.WriteS
import HttpCallback.Rio.Count
import HttpCallback.Recv.ByteLine
import HttpCallback.Config
import HttpCallback.Pool.Unlink
import HttpCallback.Parse.Inside
import HttpCallback.Lib.Fanout
import HttpCallback.System
import HttpCallback.Worker.Stall
import HttpCallback.Worker.Silent
import HttpCallback.Lib.LeastLoaded
import HttpCallback.Pool.Dispatch
import HttpCallback.Lib.Foreach
import HttpCallback.Pool.Nodes
import HttpCallback.Pool.Managed
import HttpCallback.Lib.Format
import HttpCallback.Lib.Headers
import HttpCallback.Response.Pages
import HttpCallback.Response.Seen
import HttpCallback.Log
import HttpCallback.Exchange
import HttpCallback.Worker.Requests
import HttpCallback.IoBase
import HttpCallback.Rio.Transfer
