import Stra2us.Foundation.Text
import Stra2us.Foundation.Interleave
import Stra2us.Foundation.Cell
import Stra2us.Foundation.Feed
import Stra2us.Foundation.Stream
import Stra2us.Foundation.Store
import Stra2us.Foundation.BigEndian
import Stra2us.Foundation.Value
import Stra2us.Foundation.Binary64
import Stra2us.Foundation.Json
import Stra2us.Foundation.Msgpack
import Stra2us.Foundation.Repack
import Stra2us.Foundation.Rounding
import Stra2us.Foundation.Verdict
import Stra2us.Foundation.FloatText
import Stra2us.Foundation.JsonDocument
import Stra2us.Server.Dependencies
import Stra2us.Server.Device
import Stra2us.Server.Admin
import Stra2us.Server.Form
import Stra2us.Server.Api
import Stra2us.Server.Footprint
import Stra2us.Server.Trace
import Stra2us.Kv.Keystream
import Stra2us.Kv.Atomicity
import Stra2us.Kv.Nonce
import Stra2us.Server.Sequential
import Stra2us.Queue.Cursor
import Stra2us.Queue.Race
import Stra2us.Queue.Consume
import Stra2us.Queue.Delivery
import Stra2us.Client.Cli
import Stra2us.Acl.Matching
import Stra2us.Acl.Provision
import Stra2us.Kv.Frame
import Stra2us.Queue.Isolation
import Stra2us.Backup.Sandbox
import Stra2us.Backup.Collect
import Stra2us.Backup.Strict
import Stra2us.Backup.Codec
import Stra2us.Acl.Confine
import Stra2us.Acl.DeviceAdmins
import Stra2us.Backup.Atomicity
import Stra2us.Backup.Report
import Stra2us.Backup.Grants
import Stra2us.Backup.PerApp
import Stra2us.Client.Settings
import Stra2us.Admin.Reserved
import Stra2us.Admin.Inventory
import Stra2us.Page.Scope
import Stra2us.Client.Response
import Stra2us.Server.Network
import Stra2us.Publish.Lint
import Stra2us.Admin.CatalogGate
import Stra2us.Admin.LookupRuns
import Stra2us.Admin.KeyRestore
import Stra2us.Queue.Loss
import Stra2us.Queue.Restored
import Stra2us.Device.Serve
import Stra2us.Server.Unambiguous
import Stra2us.IoTClient.Decrypt
import Stra2us.IoTClient.Bounds
import Stra2us.IoTClient.Framing
import Stra2us.IoTClient.Reading
import Stra2us.Foundation.Tickets
import Stra2us.Kv.Lead
import Stra2us.Client.Exchange
import Stra2us.Page.Save
import Stra2us.Http.Serve
import Stra2us.Backup.Freshness
import Stra2us.Backup.Preserves
import Stra2us.Admin.Monitor
import Stra2us.Admin.Logs
import Stra2us.Foundation.Glob
import Stra2us.Sanitizers.Svg
import Stra2us.Sanitizers.SvgOutput
import Stra2us.Foundation.Xml
import Stra2us.Admin.Scan
import Stra2us.Admin.AdminAuth
import Stra2us.Client.Coerce
import Stra2us.Publish.Theme
import Stra2us.Page.MarkdownCache
import Stra2us.Foundation.Capped
import Stra2us.Http.Transparent
import Stra2us.OAuth.Origin
import Stra2us.Client.Unpaced
import Stra2us.Page.Law
import Stra2us.Backup.Settled
import Stra2us.Foundation.MsgpackRaw
import Stra2us.Client.Sealed
import Stra2us.Page.Untouched
import Stra2us.IoTClient.Kept
