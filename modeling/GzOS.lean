import GzOS.AbstractMutex
import GzOS.DispatchSafety
import GzOS.HashMapFailure
import GzOS.HashMapStrings
import GzOS.BuddyCanonical
import GzOS.BuddyIndices
import GzOS.PageZero
import GzOS.ArgsPage
import GzOS.HeapRealloc
import GzOS.HeapAlign
import GzOS.OutputOrder
import GzOS.StopAndWait
import GzOS.HandshakeAgreement
import GzOS.PipeReaders
import GzOS.TmpfsFile
import GzOS.FlashDisk
import GzOS.DescriptorNumbers
import GzOS.ElfBounds
import GzOS.HeapBreak
import GzOS.PageTable
import GzOS.PageRanges
import GzOS.ParseBounds
import GzOS.PayloadLocation
import GzOS.BufferOwnership
import GzOS.EchoReply
import GzOS.UdpSend
import GzOS.TreeChanges
import GzOS.ForkCopy
import GzOS.FaultRemap
import GzOS.DeferredDeletion
import GzOS.Asids
import GzOS.ReceiveRing
import GzOS.SleepTimers
import GzOS.WaitForPid
import GzOS.TcpPorts
import GzOS.UdpPorts
import GzOS.WorkingDirectory
import GzOS.SessionLife
import GzOS.RoundRobin
import GzOS.TimerCallbacks
import GzOS.TickHandler
import GzOS.QueueRaces
import GzOS.ArpReplies
import GzOS.IpOutput
import GzOS.Shell
import GzOS.PciWindows
import GzOS.ObjectPages
import GzOS.TlbRefill
