import AndroidPlatform.OnesComplement
import AndroidPlatform.DhcpPacket
import AndroidPlatform.DhcpMessage
import AndroidPlatform.DhcpClient
import AndroidPlatform.DhcpClientHistory
import AndroidPlatform.NativeAppGlue
import AndroidPlatform.NativeAppGlueWindow
import AndroidPlatform.NativeAppGlueSavedState
import AndroidPlatform.PortableErrno
import AndroidPlatform.RbBitmap
import AndroidPlatform.RbBitmapRefinement
import AndroidPlatform.JournalRecovery
import AndroidPlatform.WriteSequence
import AndroidPlatform.JournalLog
import AndroidPlatform.JournalPass
import AndroidPlatform.JournalRevoke
import AndroidPlatform.JournalReplay
import AndroidPlatform.JournalChecksum
import AndroidPlatform.JournalScan
import AndroidPlatform.BaBitmap
import AndroidPlatform.RbBitmapResize
import AndroidPlatform.RbBitmapRange
import AndroidPlatform.RbBitmapBackends
import AndroidPlatform.Icount
import AndroidPlatform.IcountRefinement
import AndroidPlatform.BpfLayout
import AndroidPlatform.BpfLayoutExecution
import AndroidPlatform.DnsForward
import AndroidPlatform.DnsReplyMatching
import AndroidPlatform.DnsCache
import AndroidPlatform.DnsCacheInvariant
import AndroidPlatform.DnsCacheOperations
import AndroidPlatform.DnsCacheLookup
import AndroidPlatform.DnsForwardTable
import AndroidPlatform.PppFsm
import AndroidPlatform.PppFsmAgreement
import AndroidPlatform.ByteCheckers
import AndroidPlatform.LcpOptions
import AndroidPlatform.IpcpOptions
import AndroidPlatform.DhcpLeases
import AndroidPlatform.LeaseFile
import AndroidPlatform.DhcpReplyOptions
import AndroidPlatform.DhcpReplyEncoding
import AndroidPlatform.DhcpReplyDecoding
import AndroidPlatform.GestureDetectors
import AndroidPlatform.PortableFcntl
import AndroidPlatform.DhcpClientSocket
import AndroidPlatform.DhcpClientTransactions
import AndroidPlatform.DhcpOptionScan
import AndroidPlatform.FiniteRuns
import AndroidPlatform.JournalTermination
import AndroidPlatform.DhcpDecline
import AndroidPlatform.Libiptc
import AndroidPlatform.LibiptcRuleset
import AndroidPlatform.LibiptcParse
import AndroidPlatform.LibiptcCommit
import AndroidPlatform.DhcpLeaseInvariant
import AndroidPlatform.DhcpAddressSafety
import AndroidPlatform.JournalBounds
import AndroidPlatform.JournalPasses
import AndroidPlatform.GenericBitmaps
import AndroidPlatform.BaBitmapSearch
import AndroidPlatform.EaRefcount
import AndroidPlatform.RegionAllocation
import AndroidPlatform.ExtentHandle
import AndroidPlatform.ExtentTree
import AndroidPlatform.ExtentSearch
import AndroidPlatform.ExtentUpdate
import AndroidPlatform.ExtentRegrowth
import AndroidPlatform.ExtentSplit
import AndroidPlatform.ExtentSplitOutcome
import AndroidPlatform.ExtentReplacement
import AndroidPlatform.DnsSkip
import AndroidPlatform.DnsNameReading
import AndroidPlatform.DnsNameComparison
import AndroidPlatform.DnsNameEncoding
import AndroidPlatform.DnsServerSelection
import AndroidPlatform.BpfInterning
import AndroidPlatform.DnsExtractAddresses
import AndroidPlatform.DnsAnswerChains
import AndroidPlatform.ExtentCounts
import AndroidPlatform.CyclicScan
import AndroidPlatform.DhcpAddressScan
import AndroidPlatform.DhcpOptionReads
import AndroidPlatform.DhcpLeaseTimes
import AndroidPlatform.DhcpReplyLength
import AndroidPlatform.PppRejects
import AndroidPlatform.BadBlocks
import AndroidPlatform.BodyReading
import AndroidPlatform.BpfDominators
import AndroidPlatform.BpfOptimizeLoop
import AndroidPlatform.ChecksumFolding
import AndroidPlatform.HalvingSearch
import AndroidPlatform.IpcpRequests
import AndroidPlatform.LibiptcChainIndex
import AndroidPlatform.LibiptcCounters
import AndroidPlatform.LibiptcIteration
import AndroidPlatform.NetmaskPrefixes
import AndroidPlatform.PppReplies
import AndroidPlatform.BpfConditions
import AndroidPlatform.BpfDeadStores
import AndroidPlatform.WriteBackLines
import AndroidPlatform.BpfNumbering
import AndroidPlatform.UnixIo
import AndroidPlatform.UnixIoCoherence
