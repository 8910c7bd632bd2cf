import SystemsExperiments.Verification.Mmlog.RingSafety
import SystemsExperiments.Verification.Mmlog.MappingBound
import SystemsExperiments.Verification.Mmlog.Errno
import SystemsExperiments.Verification.Mmlog.Trim
import SystemsExperiments.Verification.Mmlog.Panic
import SystemsExperiments.Verification.Mmlog.RefCount
import SystemsExperiments.Verification.Mmlog.WritePlan
import SystemsExperiments.Verification.Mmlog.WholeChunks
import SystemsExperiments.Verification.Mmlog.Alone
import SystemsExperiments.Verification.SimpleRingbuffer.Sequential
import SystemsExperiments.Verification.SimpleRingbuffer.Publication
import SystemsExperiments.Verification.SimpleRingbuffer.Mapping
import SystemsExperiments.Verification.NotMySegfault.StaleCopy
import SystemsExperiments.Verification.SmapsSpy.RoundTrip
import SystemsExperiments.Verification.SmapsSpy.Rows
import SystemsExperiments.Verification.SmapsSpy.Details
import SystemsExperiments.Verification.SmapsSpy.Chart
import SystemsExperiments.Verification.SmapsSpy.Overflow
import SystemsExperiments.Verification.TypePunning.Agreement
import SystemsExperiments.Verification.Threads.Again
import SystemsExperiments.Verification.NopeekingRegistry.Framing
import SystemsExperiments.Verification.TscTime.Median
import SystemsExperiments.Verification.TscTime.Metrics
import SystemsExperiments.Verification.Lz4Analyze.BlockWalk
import SystemsExperiments.Verification.GetpwuidR.Bounds
import SystemsExperiments.Verification.GetpwuidR.RealUid
import SystemsExperiments.Verification.Argv.Recovery
import SystemsExperiments.Verification.StartSo.Counting
import SystemsExperiments.Verification.TcpConnectRate.Shares
import SystemsExperiments.Verification.Mmlog.ClientRecords
import SystemsExperiments.Verification.Threads.Lines
import SystemsExperiments.Verification.Threads.StressTest
import SystemsExperiments.Verification.Forks.ForkTest
import SystemsExperiments.Verification.NopeekingRegistry.Rendezvous
import SystemsExperiments.Verification.NopeekingRegistry.Snapshots
import SystemsExperiments.Verification.PerfEventOpen.DoubleMapping
import SystemsExperiments.Verification.PerfEventOpen.Cpus
import SystemsExperiments.Verification.GetpwuidR.PollProc
import SystemsExperiments.Verification.Argv.Calls
import SystemsExperiments.Verification.FasterHexdig.Agreement
