import WasiPorts.Redis.Reply.Delivery
import WasiPorts.Redis.Aof.NameSafety
import WasiPorts.Redis.Aof.EnableCrash
import WasiPorts.Redis.Aof.AckedEnable
import WasiPorts.Redis.Aof.RewriteTicks
import WasiPorts.Redis.Aof.Log
import WasiPorts.Redis.Aof.EnableFailure
import WasiPorts.Redis.Aof.ShortWrite
import WasiPorts.Redis.Aof.NativeEnable
import WasiPorts.Redis.Aof.SelfContained
import WasiPorts.Redis.Aof.DurableOffset
import WasiPorts.Redis.Aof.Reproduces
import WasiPorts.Redis.Aof.ManifestRuns
import WasiPorts.Redis.Commands.NullHandler
import WasiPorts.Redis.Bio.Completion
import WasiPorts.Redis.Bio.Inline
import WasiPorts.Redis.Ae.Limits
import WasiPorts.Nginx.WritevDelivery
import WasiPorts.Nginx.UpstreamFailure
import WasiPorts.Benchmark.AotCache
import WasiPorts.Benchmark.ManifestCheck
import WasiPorts.Nginx.WriteFile
import WasiPorts.Sqlite.Memcmp
import WasiPorts.Sqlite.PatternScan
import WasiPorts.Stubs.Mkstemp
import WasiPorts.Nginx.PatchObjs
import WasiPorts.Redis.Resp
import WasiPorts.Redis.Aof.Feeding
import WasiPorts.Redis.Aof.Rebuild
import WasiPorts.Redis.Aof.TornText
