import TinchPp.Lib.EventSystem
import TinchPp.Lib.Simulation
import TinchPp.Lib.CountedLoop
import TinchPp.Types
import TinchPp.ActualMailbox
import TinchPp.Lib.Framing
import TinchPp.Lib.BlockHash
import TinchPp.Lib.Wire
import TinchPp.MsgLexer
import TinchPp.Lib.SearchTree
import TinchPp.Pid
import TinchPp.ExtTermGrammar
import TinchPp.CtrlMsgDispatcher
import TinchPp.ListMatcher
import TinchPp.ValueObjects
import TinchPp.StringPatterns
import TinchPp.PackedLists
import TinchPp.Lib.Nested
import TinchPp.Values
import TinchPp.TermRoundTrip
import TinchPp.ValuePatterns
import TinchPp.ErlAny
import TinchPp.DispatchSafety
import TinchPp.EpmdRequestor
import TinchPp.ExitReasons
import TinchPp.Patterns
import TinchPp.MessagePlaces
import TinchPp.SoundPatterns
import TinchPp.MatchSafety
import TinchPp.Readers
import TinchPp.Bindings
import TinchPp.FailedMatches
import TinchPp.Rebinding
import TinchPp.Lib.Recency
import TinchPp.Linker
import TinchPp.LinkRelation
import TinchPp.ActualNode
import TinchPp.MailboxClosing
import TinchPp.MailboxLock
import TinchPp.CompleteClosing
import TinchPp.ExactDelivery
import TinchPp.HandshakeGrammar
import TinchPp.NodeConnection
import TinchPp.ConnectionPhases
import TinchPp.FrameDelivery
import TinchPp.HandshakeEnd
import TinchPp.HandlerOrder
import TinchPp.HandshakeMessages
import TinchPp.HandshakeOutcome
import TinchPp.LostBytes
import TinchPp.NodeConnector
import TinchPp.BrokenConnections
import TinchPp.HandshakeResults
import TinchPp.RecordedConnections
import TinchPp.LocalLinks
import TinchPp.Lib.Replicas
import TinchPp.TwoNodes
import TinchPp.HalfCalls
import TinchPp.AgreeingLinks
import TinchPp.EndedLinks
import TinchPp.MailboxConservation
import TinchPp.ReceiveTimeouts
import TinchPp.Rpc
import TinchPp.RegisteringNames
import TinchPp.LostConnections
import TinchPp.IoThread
import TinchPp.FinalUnlinks
import TinchPp.Endpoints
import TinchPp.AgreeingCookies
import TinchPp.WriteQueue
import TinchPp.ListEnds
import TinchPp.SentLists
import TinchPp.BinaryValues
import TinchPp.ErlangBits
import TinchPp.ExactFields
import TinchPp.WildcardBounds
import TinchPp.Md5
import TinchPp.Md5Digests
import TinchPp.CookieDigests
import TinchPp.DispatchedFrames
import TinchPp.Traffic
import TinchPp.Requests
import TinchPp.NodeMessages
import TinchPp.FreshConnections
import TinchPp.ConnectedEnds
import TinchPp.WiredNodes
import TinchPp.WaitingFrames
import TinchPp.PatternMeaning
