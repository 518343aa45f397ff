import PcieBench.Rq.Liveness
import PcieBench.Rq.Addresses
import PcieBench.Rq.Latency
import PcieBench.Rq.Pairing
import PcieBench.Rq.RandomPages
import PcieBench.Rq.RandomPeriod
import PcieBench.Rq.Sequential
import PcieBench.Rq.Untimed
import PcieBench.Dma.Application
import PcieBench.Dma.ByteCount
import PcieBench.Manager.Queue
import PcieBench.Manager.ReadBack
import PcieBench.Host.Arithmetic
import PcieBench.Host.Arguments
import PcieBench.Host.DmaMappings
import PcieBench.Host.Failures
import PcieBench.Host.KernelPages
import PcieBench.Host.RegisterTool
import PcieBench.Host.PageBoundary
import PcieBench.Host.Probe
import PcieBench.Host.RegisterMap
import PcieBench.Host.Ioctl
import PcieBench.Host.Registration
import PcieBench.Host.EngineTime
import PcieBench.Completer.Headers
import PcieBench.Requester.Headers
import PcieBench.Host.SessionMemory
import PcieBench.Host.SessionLatency
import PcieBench.Board.Memory
import PcieBench.Board.Progress
