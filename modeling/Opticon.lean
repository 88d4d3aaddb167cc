import Opticon.Agent.Daemon
import Opticon.Agent.DaemonLaws
import Opticon.Agent.Glob
import Opticon.Agent.GlobLaws
import Opticon.Agent.GlobMatch
import Opticon.Agent.Heartbeat
import Opticon.Agent.Helper
import Opticon.Agent.HelperLaws
import Opticon.Agent.HostImport
import Opticon.Agent.HostImportLaws
import Opticon.Agent.Overrides
import Opticon.Agent.Procrun
import Opticon.Agent.ProcrunLaws
import Opticon.Agent.ProcrunRuns
import Opticon.Agent.Pulses
import Opticon.Agent.Wordlist
import Opticon.Api.AnyBody
import Opticon.Api.AnyHost
import Opticon.Api.Authorization
import Opticon.Api.Authsession
import Opticon.Api.AuthsessionLaws
import Opticon.Api.Dispatch
import Opticon.Api.Edits
import Opticon.Api.Hostmeta
import Opticon.Api.HostmetaLaws
import Opticon.Api.Login
import Opticon.Api.LoginLaws
import Opticon.Api.Match
import Opticon.Api.Metadata
import Opticon.Api.MeterDefs
import Opticon.Api.MeterIds
import Opticon.Api.Privileged
import Opticon.Api.SessionHistory
import Opticon.Api.SetMeta
import Opticon.Api.TenantCmds
import Opticon.Api.Tokencache
import Opticon.Api.TokencacheLaws
import Opticon.Api.User
import Opticon.Api.UserFile
import Opticon.Collector.Alerts
import Opticon.Collector.Blocks
import Opticon.Collector.Chaining
import Opticon.Collector.Decay
import Opticon.Collector.Delivery
import Opticon.Collector.Echo
import Opticon.Collector.Isolation
import Opticon.Collector.Linkage
import Opticon.Collector.Liveness
import Opticon.Collector.Metadata
import Opticon.Collector.MetadataLaws
import Opticon.Collector.Names
import Opticon.Collector.Notify
import Opticon.Collector.NotifyLaws
import Opticon.Collector.Overview
import Opticon.Collector.PacketLaws
import Opticon.Collector.Packets
import Opticon.Collector.Ping
import Opticon.Collector.Problems
import Opticon.Collector.Reaper
import Opticon.Collector.ReaperLaws
import Opticon.Collector.Rejection
import Opticon.Collector.Replay
import Opticon.Collector.Serials
import Opticon.Collector.Session
import Opticon.Collector.SessionLaws
import Opticon.Collector.SessionSave
import Opticon.Collector.SessionSaveLaws
import Opticon.Collector.Sessions
import Opticon.Collector.Sessiontable
import Opticon.Collector.SessiontableLaws
import Opticon.Collector.Severity
import Opticon.Collector.Summary
import Opticon.Collector.SummaryLaws
import Opticon.Collector.Tenant
import Opticon.Collector.TenantLaws
import Opticon.Collector.Tenantlist
import Opticon.Collector.TenantlistLaws
import Opticon.Collector.Watch
import Opticon.Collector.WatchLaws
import Opticon.Collector.Watcher
import Opticon.Collector.WatcherLaws
import Opticon.Conf.React
import Opticon.Conf.ReactLaws
import Opticon.Crypto.Aes
import Opticon.Crypto.AesLaws
import Opticon.Crypto.Base64
import Opticon.Crypto.Base64Laws
import Opticon.Crypto.Md5
import Opticon.Crypto.Md5Laws
import Opticon.Crypto.Pwcrypt
import Opticon.Crypto.PwcryptLaws
import Opticon.Db.Graph
import Opticon.Db.GraphLaws
import Opticon.Db.GraphRing
import Opticon.Db.Hostlog
import Opticon.Db.Index
import Opticon.Db.IndexLaws
import Opticon.Db.Record
import Opticon.Db.RecordLaws
import Opticon.Db.Usage
import Opticon.Db.ValueRange
import Opticon.Lib.BitStream
import Opticon.Lib.BlockStream
import Opticon.Lib.Calendar
import Opticon.Lib.Decimal
import Opticon.Lib.Dyadic
import Opticon.Lib.EndAround
import Opticon.Lib.FairRun
import Opticon.Lib.KeyedWrites
import Opticon.Lib.Linked
import Opticon.Lib.Loop
import Opticon.Lib.Outcome
import Opticon.Lib.Overlay
import Opticon.Lib.PatternTrie
import Opticon.Lib.Ring
import Opticon.Lib.SlotTable
import Opticon.Lib.Transition
import Opticon.Lib.UpdateFirst
import Opticon.Lib.Wildcard
import Opticon.Lib.Words
import Opticon.Meter.Chain
import Opticon.Meter.ChainLaws
import Opticon.Meter.Data
import Opticon.Meter.Host
import Opticon.Meter.HostLaws
import Opticon.Meter.Id
import Opticon.Meter.IdLaws
import Opticon.Meter.NameText
import Opticon.Meter.Names
import Opticon.Meter.PrefixLaws
import Opticon.Meter.UuidText
import Opticon.Thread.Conditional
import Opticon.Thread.Wakeups
import Opticon.Var.Access
import Opticon.Var.Bare
import Opticon.Var.Chain
import Opticon.Var.ChainLaws
import Opticon.Var.ChildLaws
import Opticon.Var.CopyLaws
import Opticon.Var.Cursor
import Opticon.Var.Document
import Opticon.Var.Dump
import Opticon.Var.EndOfText
import Opticon.Var.FindIndex
import Opticon.Var.Formed
import Opticon.Var.Heap
import Opticon.Var.Laws
import Opticon.Var.Leaves
import Opticon.Var.Merge
import Opticon.Var.Parse
import Opticon.Var.Placed
import Opticon.Var.PlacedClone
import Opticon.Var.PlacedCopy
import Opticon.Var.PlacedLaws
import Opticon.Var.Reread
import Opticon.Var.RoundTrip
import Opticon.Var.Slots
import Opticon.Var.Sort
import Opticon.Var.Texts
import Opticon.Var.TimeText
import Opticon.Var.Tree
import Opticon.Wire.AuthLaws
import Opticon.Wire.BitPort
import Opticon.Wire.BitRuns
import Opticon.Wire.Cipher
import Opticon.Wire.CipherRoundTrip
import Opticon.Wire.EmptyArrays
import Opticon.Wire.FracCodec
import Opticon.Wire.Frame
import Opticon.Wire.IntCodec
import Opticon.Wire.Ioport
import Opticon.Wire.JsonCodec
import Opticon.Wire.LinkedPacket
import Opticon.Wire.Packet
import Opticon.Wire.Packetqueue
import Opticon.Wire.Packets
import Opticon.Wire.Pktwrap
import Opticon.Wire.PktwrapLaws
import Opticon.Wire.Readable
import Opticon.Wire.RecordLaws
import Opticon.Wire.Records
import Opticon.Wire.Representation
import Opticon.Wire.RoundTrip
import Opticon.Wire.StringCodec
import Opticon.Wire.ValueCodec
