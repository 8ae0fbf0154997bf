import HZRobot.TaskMangerSchedule
import HZRobot.MysqlLogs
import HZRobot.ConfigUploadSafety
import HZRobot.HttpForward
import HZRobot.HttpFragments
import HZRobot.HttpPipeline
import HZRobot.HttpSend
import HZRobot.HttpChunks
import HZRobot.MysqlLifeCycle
import HZRobot.TimerCancel
import HZRobot.TimerPass
import HZRobot.EpollSend
import HZRobot.SerialSafety
import HZRobot.SerialTargets
import HZRobot.HttpHeader
import HZRobot.JsonPhoto
import HZRobot.ConfigPhoto
import HZRobot.JsonProgress
import HZRobot.HttpTips
import HZRobot.HttpRoutes
import HZRobot.HttpRequest
import HZRobot.JsonNumbers
import HZRobot.JsonTree
import HZRobot.JsonClean
import HZRobot.JsonBounds
import HZRobot.JsonReencode
import HZRobot.PhotoMarked
import HZRobot.SerialTruncated
import HZRobot.StringSplit
import HZRobot.StringBase64
import HZRobot.StringUrl
import HZRobot.StringUtf8
import HZRobot.HttpBase
import HZRobot.SerialPort
import HZRobot.SerialRead
import HZRobot.ToolPackage
import HZRobot.AesRoundTrip
import HZRobot.Sha1
import HZRobot.Md5Digests
import HZRobot.ConfigFiles
import HZRobot.EpollReceive
import HZRobot.JsonFormat
import HZRobot.EpollConnector
import HZRobot.RequestQueue
import HZRobot.EpollLifetime
