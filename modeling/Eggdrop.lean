import Eggdrop.Lib.Run
import Eggdrop.Lib.ListEdit
import Eggdrop.Lib.Forest
import Eggdrop.Base.CString
import Eggdrop.Users.Flags
import Eggdrop.Users.FlagSanity
import Eggdrop.Users.BotSanity
import Eggdrop.Users.FlagText
import Eggdrop.Users.FlagRoundTrip
import Eggdrop.Users.Entries
import Eggdrop.Users.EntryTypes
import Eggdrop.Net.Mbuf
import Eggdrop.Net.Tputs
import Eggdrop.Share.Tbuf
import Eggdrop.Share.Resync
import Eggdrop.Botnet.Tandem
import Eggdrop.Botnet.Tree
import Eggdrop.Botnet.DumpLinks
import Eggdrop.Lib.Htab
import Eggdrop.Users.UserFile
import Eggdrop.Lib.Ensures
import Eggdrop.Users.RecordEntries
import Eggdrop.Users.DelHost
import Eggdrop.Users.Accounts
import Eggdrop.Server.Isupport
import Eggdrop.Base.Base64
import Eggdrop.Server.Sasl
import Eggdrop.Lib.TailQueue
import Eggdrop.Server.Msgq
import Eggdrop.Botnet.Party
import Eggdrop.Lib.TwoRuns
import Eggdrop.Botnet.Isolation
import Eggdrop.Botnet.Agree
import Eggdrop.Irc.Mode
import Eggdrop.Irc.ModeLine
import Eggdrop.Irc.Flush
import Eggdrop.Irc.ModeQueue
import Eggdrop.Irc.LineBounds
import Eggdrop.Irc.Effect
import Eggdrop.Channels.MaskLine
import Eggdrop.Channels.MaskFile
import Eggdrop.Base.Utf8
import Eggdrop.Server.MsgTags
import Eggdrop.Server.Batch
import Eggdrop.Core.Timers
import Eggdrop.Files.AsyncWrite
import Eggdrop.Notes.NoteLine
import Eggdrop.Notes.NoteFile
import Eggdrop.Notes.NoteStore
import Eggdrop.Notes.NoteCount
import Eggdrop.Channels.Chanset
import Eggdrop.Channels.ChansetTables
import Eggdrop.Channels.ChansetLookup
import Eggdrop.Binds.Tclhash
import Eggdrop.Binds.Bound
import Eggdrop.Binds.Follow
import Eggdrop.Binds.Dispatch
import Eggdrop.Binds.Single
import Eggdrop.Binds.Runs
import Eggdrop.Irc.Members
import Eggdrop.Lib.HtabFiled
import Eggdrop.Irc.MemberTable
import Eggdrop.Irc.MemberRuns
import Eggdrop.Lib.Substr
import Eggdrop.Webui.Http
import Eggdrop.Webui.Auth
import Eggdrop.Webui.Lockout
import Eggdrop.Lib.WebSocket
import Eggdrop.Webui.Unframe
import Eggdrop.Webui.Json
import Eggdrop.Webui.Push
import Eggdrop.Core.DnsEvents
import Eggdrop.Lib.Lines
import Eggdrop.Net.Sockgets
import Eggdrop.Dns.Resolver
import Eggdrop.Dns.Lifetime
import Eggdrop.Dns.Confirm
import Eggdrop.Server.CapRuns
import Eggdrop.Files.Filedb
import Eggdrop.Files.FiledbLayout
import Eggdrop.Files.FiledbRuns
import Eggdrop.Server.IsupportParse
import Eggdrop.Server.KickRename
import Eggdrop.Irc.ModeReply
import Eggdrop.Share.Ignores
import Eggdrop.Share.IgnoreExpiry
import Eggdrop.Server.IsupportReport
import Eggdrop.Channels.ModeProtect
import Eggdrop.Blowfish.Cipher
import Eggdrop.Blowfish.Ecb
import Eggdrop.Blowfish.Cbc
import Eggdrop.Blowfish.Strings
import Eggdrop.Channels.ChanOptions
import Eggdrop.Channels.ChannelAdd
import Eggdrop.Lib.Glob
import Eggdrop.Transfer.Receive
import Eggdrop.Transfer.ReceiveRuns
import Eggdrop.Transfer.WildMatchFile
import Eggdrop.Dns.Names
import Eggdrop.Webui.ReadBack
import Eggdrop.Webui.ConfigPost
import Eggdrop.Irc.MaxList
import Eggdrop.Dns.Dot
import Eggdrop.Net.Commio
import Eggdrop.Net.Buffered
import Eggdrop.Notes.NoteList
import Eggdrop.Irc.ModeSlots
import Eggdrop.Irc.SlotRuns
import Eggdrop.Notes.NoteItems
import Eggdrop.Base.Utf8Length
import Eggdrop.Server.AltNick
import Eggdrop.Files.FiledbUpdate
import Eggdrop.Files.ResolveDir
import Eggdrop.Transfer.FileQueue
import Eggdrop.Lib.Assemble
import Eggdrop.Transfer.DccGet
import Eggdrop.Blowfish.Cache
import Eggdrop.Lib.Pieces
import Eggdrop.Base.Regex
import Eggdrop.Base.RegexParts
import Eggdrop.Base.WildMatch
import Eggdrop.Base.Cidr
import Eggdrop.Botnet.IntText
import Eggdrop.Botnet.Unlink
import Eggdrop.Lib.Chain
import Eggdrop.Lib.MergeSort
import Eggdrop.Net.MbufRuns
import Eggdrop.Users.SortUsers
import Eggdrop.Botnet.TellWho
import Eggdrop.Channels.Unescape
import Eggdrop.Core.Dumplots
import Eggdrop.Net.DccMap
import Eggdrop.Base.Utf8Count
import Eggdrop.Core.HelpSubst
import Eggdrop.Share.ShareLines
import Eggdrop.Core.HelpColumns
import Eggdrop.Lib.Slots
import Eggdrop.Libop.Strbuf
import Eggdrop.Libop.Htab
import Eggdrop.Libop.HtabProbe
import Eggdrop.Libop.HtabMap
import Eggdrop.Libop.HtabIter
import Eggdrop.Base.AddrMatch
import Eggdrop.Core.Maskaddr
import Eggdrop.Core.Modules
import Eggdrop.Lib.TokenBucket
import Eggdrop.Net.Ratelimit
import Eggdrop.Net.Telnet
import Eggdrop.Base.Base64Inverse
import Eggdrop.Users.Password
import Eggdrop.Users.PasswordRuns
import Eggdrop.Users.BlowfishPass
import Eggdrop.Botnet.MessageRuns
