import WebServer.Accounts.Registrations
import WebServer.Accounts.Site
import WebServer.Accounts.Statement
import WebServer.Accounts.Table
import WebServer.Http.Answered
import WebServer.Http.Append
import WebServer.Http.Bounds
import WebServer.Http.Form
import WebServer.Http.Credentials
import WebServer.Http.Grammar
import WebServer.Http.Handed
import WebServer.Http.KeepAlive
import WebServer.Http.Length
import WebServer.Http.Mapping
import WebServer.Http.PlainUrl
import WebServer.Http.Read
import WebServer.Http.Unfinished
import WebServer.Http.WebRoot
import WebServer.Log.Bounded
import WebServer.Log.Consumers
import WebServer.Log.LineLimit
import WebServer.Log.Format
import WebServer.Log.Front
import WebServer.Log.Order
import WebServer.Log.TimedPop
import WebServer.Log.WriteLog
import WebServer.Pool.Borrowing
import WebServer.Pool.Destroy
import WebServer.Pool.Drain
import WebServer.Pool.Shutdown
import WebServer.Server.Accounting
import WebServer.Server.Attended
import WebServer.Server.Drain
import WebServer.Server.Exclusive
import WebServer.Server.Indices
import WebServer.Server.Alarms
import WebServer.Server.Rest
import WebServer.Server.Replies
import WebServer.Timer.Firing
import WebServer.Timer.Pointers
