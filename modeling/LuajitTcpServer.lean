import LuajitTcpServer.Lib.Hoare
import LuajitTcpServer.Lib.SlotArray
import LuajitTcpServer.Lib.CallSeq
import LuajitTcpServer.Poll.Table
import LuajitTcpServer.Poll.TableSpec
import LuajitTcpServer.Poll.Refinement
import LuajitTcpServer.Socket
import LuajitTcpServer.Lib.Balance
import LuajitTcpServer.Lib.GuardedCalls
import LuajitTcpServer.Tcp
import LuajitTcpServer.Poll.Pass
import LuajitTcpServer.Poll.PassSpec
import LuajitTcpServer.Poll.Pairing
import LuajitTcpServer.AppServer.Callbacks
import LuajitTcpServer.AppServer.Effects
import LuajitTcpServer.AppServer.Ledger
import LuajitTcpServer.AppServer.Dispatch
import LuajitTcpServer.AppServer.Failure
import LuajitTcpServer.AppServer.Totals
import LuajitTcpServer.AppServer.Shutdown
import LuajitTcpServer.Lib.Schedule
import LuajitTcpServer.SharedMemory.Processes
import LuajitTcpServer.SharedMemory.LockStep
import LuajitTcpServer.SharedMemory.Delivery
import LuajitTcpServer.SharedMemory.Progress
import LuajitTcpServer.Lib.ByteMemory
import LuajitTcpServer.SharedMemory.Mmap
import LuajitTcpServer.SharedMemory.RoundTrip
import LuajitTcpServer.DateTime.DayNumber
import LuajitTcpServer.DateTime.Gregorian
import LuajitTcpServer.AppServer.Responses
import LuajitTcpServer.Lib.ResourceLog
import LuajitTcpServer.SharedMemory.Posix
import LuajitTcpServer.SharedMemory.PosixLedgers
import LuajitTcpServer.SharedMemory.Windows
import LuajitTcpServer.SharedMemory.Accesses
import LuajitTcpServer.SharedMemory.Opening
import LuajitTcpServer.SharedMemory.Session
import LuajitTcpServer.SharedMemory.Bounds
import LuajitTcpServer.Lib.DefOrder
import LuajitTcpServer.FfiDef.Convert
import LuajitTcpServer.FfiDef.Order
import LuajitTcpServer.Lib.Weeks
import LuajitTcpServer.DateTime.Week
import LuajitTcpServer.DateTime.Addition
import LuajitTcpServer.DateTime.TimeOfDay
import LuajitTcpServer.Lib.Numerals
import LuajitTcpServer.DateTime.Text
import LuajitTcpServer.SharedMemory.Payload
import LuajitTcpServer.SharedMemory.Counting
import LuajitTcpServer.Poll.Statistics
import LuajitTcpServer.SharedMemory.OpenResult
import LuajitTcpServer.SharedMemory.Positions
import LuajitTcpServer.Lib.Patterns
import LuajitTcpServer.Util.LastPart
import LuajitTcpServer.Util.FileSize
import LuajitTcpServer.FfiDef.Script
import LuajitTcpServer.FfiDef.Defines
import LuajitTcpServer.FfiDef.Comments
import LuajitTcpServer.FfiDef.Params
import LuajitTcpServer.FfiDef.ParamTypes
import LuajitTcpServer.FfiDef.Tokens
import LuajitTcpServer.FfiDef.LineStarts
import LuajitTcpServer.FfiDef.Strippers
import LuajitTcpServer.FfiDef.TypeSearch
import LuajitTcpServer.Lib.Places
import LuajitTcpServer.FfiDef.TypeSearchEnds
import LuajitTcpServer.FfiDef.Declarations
import LuajitTcpServer.FfiDef.Extents
import LuajitTcpServer.FfiDef.CallSearch
import LuajitTcpServer.FfiDef.Prototypes
import LuajitTcpServer.Lib.Substitutions
import LuajitTcpServer.Lib.Cursor
import LuajitTcpServer.Json.Strings
import LuajitTcpServer.Json.Encoding
import LuajitTcpServer.Json.Ending
import LuajitTcpServer.Json.Rewriting
import LuajitTcpServer.Json.Shown
import LuajitTcpServer.Json.Quoting
import LuajitTcpServer.FfiDef.Generate
import LuajitTcpServer.FfiDef.TypeAccounts
import LuajitTcpServer.FfiDef.Accounting
import LuajitTcpServer.FfiDef.Regenerate
