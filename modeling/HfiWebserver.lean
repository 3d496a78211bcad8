import HfiWebserver.Lib.Interleave
import HfiWebserver.Lib.Loop
import HfiWebserver.Server.ServiceDirectory
import HfiWebserver.Server.WasmModule
import HfiWebserver.Server.Handlers
import HfiWebserver.Server.Threads
import HfiWebserver.Server.Aslr
import HfiWebserver.Server.Confinement
import HfiWebserver.Server.Requests
import HfiWebserver.Server.Bodies
import HfiWebserver.Server.StringResults
import HfiWebserver.Guest.JpegResize
import HfiWebserver.Guest.Bitmap
import HfiWebserver.Bench.WrkScripts
import HfiWebserver.Lib.OsPath
import HfiWebserver.Bench.WrkAnalysis
import HfiWebserver.Bench.WrkTable
import HfiWebserver.Guest.BmpFormat
import HfiWebserver.Guest.Fib
import HfiWebserver.Guest.MsgHash
import HfiWebserver.Server.Registration
import HfiWebserver.Guest.TemplateText
import HfiWebserver.Guest.XmlPrint
import HfiWebserver.Guest.XmlUtf8
import HfiWebserver.Server.Answers
import HfiWebserver.Bench.WrkReports
