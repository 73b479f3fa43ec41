import ResourceServer.Core.Transition
import ResourceServer.Core.PrefixCode
import ResourceServer.Native.Receive
import ResourceServer.Framing.Reencode
import ResourceServer.Framing.Bounds
import ResourceServer.Sending.Exclusive
import ResourceServer.Sending.Encoder
import ResourceServer.Uploads.Truthful
import ResourceServer.Uploads.Responses
import ResourceServer.Uploads.Concurrent
import ResourceServer.Uploads.Paths
import ResourceServer.Uploads.Resumed
import ResourceServer.Dispatch.Fifo
import ResourceServer.Dispatch.Exit
import ResourceServer.Serving.Echo
import ResourceServer.Serving.Ownership
import ResourceServer.Serving.Handlers
import ResourceServer.Serving.Asserts
import ResourceServer.Serving.Progress
import ResourceServer.Serving.Transfers
import ResourceServer.Serving.Closing
import ResourceServer.Dispatch.Completion
import ResourceServer.Uploads.Serial
import ResourceServer.Dispatch.Waiting
import ResourceServer.Serving.Balance
import ResourceServer.Serving.Builds
import ResourceServer.Sending.Atomic
import ResourceServer.Serving.Stopping
import ResourceServer.Serving.Orders
import ResourceServer.Core.RefCount
import ResourceServer.Native.SharedSessions
import ResourceServer.Serving.Leaks
import ResourceServer.Native.SharedUploads
import ResourceServer.Serving.Released
