import KernelLabs.Library.Runs
import KernelLabs.Library.LinkedList
import KernelLabs.Block.Request
import KernelLabs.Block.GreedyIosched
import KernelLabs.Block.ShortestSeek
import KernelLabs.Block.Elevator
import KernelLabs.Block.Conservation
import KernelLabs.Block.Drain
import KernelLabs.Block.SortedLists
import KernelLabs.Block.Merging
import KernelLabs.Block.Neighbours
import KernelLabs.Library.Buffer
import KernelLabs.Block.RequestLog
import KernelLabs.Block.Stamps
import KernelLabs.Block.Tester
import KernelLabs.Block.PublishedCsv
import KernelLabs.Block.PollWidth
import KernelLabs.Block.KernelTotals
import KernelLabs.Library.StoreLog
import KernelLabs.Library.Pages
import KernelLabs.Kyouko.Driver
import KernelLabs.Kyouko.Statements
import KernelLabs.Kyouko.FifoDelivery
import KernelLabs.Kyouko.FlushWait
import KernelLabs.Kyouko.DmaRing
import KernelLabs.Kyouko.TransferOrder
import KernelLabs.Kyouko.DmaOverrun
import KernelLabs.Kyouko.Device
import KernelLabs.Kyouko.UserMapping
import KernelLabs.Kyouko.Resources
import KernelLabs.Kyouko.Interrupted
import KernelLabs.Kyouko.Ioctl
import KernelLabs.Kyouko.FifoRing
import KernelLabs.Kyouko.Session
import KernelLabs.Kyouko.Exposure
import KernelLabs.Kyouko.VertexBuffer
import KernelLabs.Smunch.Task
import KernelLabs.Smunch.CmpxchgReap
import KernelLabs.Smunch.SighandReap
import KernelLabs.Smunch.ProcessTable
import KernelLabs.Smunch.CmpxchgCall
import KernelLabs.Smunch.SighandCall
import KernelLabs.Library.Chunks
import KernelLabs.Block.Completion
import KernelLabs.Block.PartialCompletion
import KernelLabs.Library.Trampoline
import KernelLabs.Block.MakeRequest
import KernelLabs.Block.RequestAllocation
import KernelLabs.Library.Batches
import KernelLabs.Block.Plugging
import KernelLabs.Block.PlugRuns
import KernelLabs.Block.PlugContents
import KernelLabs.Block.PlugReturns
import KernelLabs.Library.HashTable
import KernelLabs.Block.MergeHash
import KernelLabs.Library.Stretches
import KernelLabs.Block.MergeRuns
import KernelLabs.Block.DriverSide
import KernelLabs.Block.DriverCalls
import KernelLabs.Block.DriverRuns
import KernelLabs.Block.DrainRoom
import KernelLabs.Block.DispatchSort
import KernelLabs.Block.ElevatorSwitch
