import NetProbes.Lib.Bytes
import NetProbes.Lib.HashMap
import NetProbes.Lib.CString
import NetProbes.Lib.OnesComplement
import NetProbes.Lib.DnsMessage
import NetProbes.Lib.Run
import NetProbes.Lib.Layout
import NetProbes.Lib.TryInit
import NetProbes.Lib.Circular
import NetProbes.Lib.RecordQueue
import NetProbes.Lib.SortedTable
import NetProbes.Lib.Scanf
import NetProbes.Lib.Alloc
import NetProbes.Dns.Xdp
import NetProbes.Dns.Question
import NetProbes.Dns.Checksum
import NetProbes.Dns.Frame
import NetProbes.Dns.Response
import NetProbes.Dns.Header
import NetProbes.Dns.Labels
import NetProbes.Dns.Cli
import NetProbes.Dns.Agreement
import NetProbes.Dns.CliReport
import NetProbes.Dns.Message
import NetProbes.Dns.Shared
import NetProbes.TcpConnect.Bpf
import NetProbes.TcpConnect.GetInts
import NetProbes.TcpConnect.Options
import NetProbes.TcpConnect.HandleEvent
import NetProbes.TcpConnect.Probes
import NetProbes.TcpConnect.Report
import NetProbes.TcpConnect.Count
import NetProbes.TcpConnect.Concurrent
import NetProbes.TcpRtt.Bpf
import NetProbes.TcpRtt.PrintMap
import NetProbes.TcpRtt.Samples
import NetProbes.TcpRtt.Sequential
import NetProbes.TcpRtt.Histogram
import NetProbes.TcpRtt.Options
import NetProbes.TcpRtt.Concurrent
import NetProbes.TcpRtt.NoLoss
import NetProbes.TcpRtt.Division
import NetProbes.TrPackage.Probes
import NetProbes.TrPackage.Messages
import NetProbes.Events.Format
import NetProbes.Netfilter.Demo
import NetProbes.Netfilter.IptTable
import NetProbes.Netfilter.IptTableRuns
import NetProbes.HttpFilter.Filter
import NetProbes.Symbols.Ksyms
import NetProbes.Symbols.Maps
import NetProbes.Symbols.Syms
import NetProbes.RingBuffer.Ring
import NetProbes.RingBuffer.Reader
import NetProbes.RingBuffer.ProcessRing
import NetProbes.RingBuffer.Execve
import NetProbes.PerfBuffer.Buffer
import NetProbes.PerfBuffer.Poll
import NetProbes.TcpConnect.Terminal
import NetProbes.Symbols.Maps
