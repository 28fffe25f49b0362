import RasterRuntime.Encoding.Utf8Stream
import RasterRuntime.Encoding.Utf16Compare
import RasterRuntime.StringDecoder.Utf16
import RasterRuntime.ForkIpc
import RasterRuntime.CloneWire.Isomorphism
import RasterRuntime.ByteStream.Conservation
import RasterRuntime.Path.Relative
import RasterRuntime.NodeModules.Transparency
import RasterRuntime.Resolver.Independence
import RasterRuntime.Resolver.Candidates
import RasterRuntime.Resolver.Exports
import RasterRuntime.WritableStream.ClosedPromise
import RasterRuntime.WritableStream.Sink
import RasterRuntime.BodyStream.Delivery
import RasterRuntime.Timers.Awake
import RasterRuntime.Timers.Order
import RasterRuntime.Timers.Thrown
import RasterRuntime.Timers.Interval
import RasterRuntime.Timers.References
import RasterRuntime.Json.RoundTrip
import RasterRuntime.QueryString.RoundTrip
import RasterRuntime.SearchParams.Set
import RasterRuntime.Modules.Bases
import RasterRuntime.Modules.CjsSource
import RasterRuntime.Events.Reports
import RasterRuntime.NodeStream.WritableRuns
import RasterRuntime.NodeStream.ReadableRuns
import RasterRuntime.AsyncHooks.Scopes
import RasterRuntime.AsyncHooks.Nesting
import RasterRuntime.Json.Surrogates
import RasterRuntime.Napi.Getters
import RasterRuntime.SearchParams.FromStr
import RasterRuntime.StringDecoder.Base64
import RasterRuntime.StringDecoder.Reset
import RasterRuntime.Buffer.Copy
import RasterRuntime.Buffer.Bytes
import RasterRuntime.FormData
import RasterRuntime.Fs.ReadStream
import RasterRuntime.Http.Body
import RasterRuntime.Http.Dispatch
import RasterRuntime.Http.Server
import RasterRuntime.Dns.Cache
import RasterRuntime.EventLoop
import RasterRuntime.Numbers.Integer
import RasterRuntime.ReuseList
