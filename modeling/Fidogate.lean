import Fidogate.Lib.Bytes
import Fidogate.Areafix.Authorize
import Fidogate.Toss.Dupes
import Fidogate.Packet.BodyParse
import Fidogate.Lib.Repeats
import Fidogate.Common.NodeText
import Fidogate.Toss.KludgeLines
import Fidogate.Toss.Seenby
import Fidogate.Tick.Process
import Fidogate.Tick.Authentic
import Fidogate.Areafix.Autocreate
import Fidogate.Toss.Netmail
import Fidogate.Gate.Split
import Fidogate.Common.AreasbbsRewrite
import Fidogate.Areafix.Locking
import Fidogate.Areafix.Forward
import Fidogate.Common.Multipart
import Fidogate.Common.MultipartSafe
import Fidogate.Common.AreasNames
import Fidogate.Common.NodeLists
import Fidogate.Common.OutPacket
import Fidogate.Toss.Noarc
import Fidogate.Toss.BsyFiles
import Fidogate.Common.Outpkt
import Fidogate.Toss.Ftnroute
import Fidogate.Lib.Sweep
import Fidogate.Areafix.Entries
import Fidogate.Areafix.UplinkView
import Fidogate.Packet.Header
import Fidogate.Gate.SndMail
import Fidogate.Common.HeaderEnc
import Fidogate.Common.HeaderEncRoom
import Fidogate.Common.Histdb
import Fidogate.Common.NodePrint
import Fidogate.Common.Hex
import Fidogate.Tick.RoundTrip
import Fidogate.Toss.AddrKludges
import Fidogate.Common.Address
import Fidogate.Common.Msgid
import Fidogate.Common.Lockfile
import Fidogate.Toss.Ftn2ftn
import Fidogate.Gate.Rnews
import Fidogate.Common.Flo
import Fidogate.Tick.Confined
import Fidogate.Areafix.SendRequest
import Fidogate.Toss.Ftnexpire
import Fidogate.Common.AclFtn
import Fidogate.Common.MimeBase64
import Fidogate.Tick.AllOrNothing
import Fidogate.Toss.RouteRules
import Fidogate.Toss.Hubroute
import Fidogate.Toss.Rewrite
import Fidogate.Toss.SeenbyRules
import Fidogate.Areafix.Limit
import Fidogate.Areafix.Listing
import Fidogate.Areafix.Ftnafpkt
import Fidogate.Areafix.Ftnafutil
import Fidogate.Gate.Ftninpost
import Fidogate.Common.Charset
import Fidogate.Packet.GetString
import Fidogate.Common.AreasbbsState
import Fidogate.Common.Base64Form
import Fidogate.Common.CharsetRecode
import Fidogate.Common.QpForm
import Fidogate.Common.Misc
import Fidogate.Gate.PutLine
import Fidogate.Common.MsgidSerial
import Fidogate.Common.AddrToken
import Fidogate.Packet.BodySplit
import Fidogate.Toss.ArcmailSearch
import Fidogate.Common.NodeInt
import Fidogate.Gate.Tzutc
import Fidogate.Toss.FloOpen
import Fidogate.Common.Rfcaddr
import Fidogate.Common.Tmps
import Fidogate.Common.TmpsPrintf
import Fidogate.Common.TextlistRuns
import Fidogate.Common.CharIterator
import Fidogate.Lib.Probe
import Fidogate.Lib.Refine
import Fidogate.Common.Dbz
import Fidogate.Common.DbzRecords
import Fidogate.Common.DbzFiles
import Fidogate.Common.DbzHistory
import Fidogate.Common.DbzSize
import Fidogate.Toss.FtnexpireDbz
import Fidogate.Lib.Glob
import Fidogate.Common.WildmatGlob
import Fidogate.Lib.Crc
import Fidogate.Common.Crc32
