import VoltRec.Lib.Transition
import VoltRec.Lib.Memory
import VoltRec.Lib.Radix
import VoltRec.Lib.Rows
import VoltRec.Lib.Window
import VoltRec.Lib.Loop
import VoltRec.Lib.Log
import VoltRec.Lib.LittleEndian
import VoltRec.Lib.Distinct
import VoltRec.Lib.RingBuffer
import VoltRec.DataFormats
import VoltRec.Common
import VoltRec.Pool
import VoltRec.UdpThread
import VoltRec.ProcessingThread
import VoltRec.FileThread
import VoltRec.Converter
import VoltRec.NetworkPool
import VoltRec.Threads
import VoltRec.Reception
import VoltRec.FilePool
import VoltRec.Recording
import VoltRec.Recorder
import VoltRec.SharedHeader
import VoltRec.FileDrain
import VoltRec.VoltOuterThread
import VoltRec.StartStop
import VoltRec.PacketJobQueue
import VoltRec.JobThreads
import VoltRec.AtaObsInfo
import VoltRec.RawspecDump
import VoltRec.MkFeng
import VoltRec.OuterData
import VoltRec.Theorems.AntennaTable
import VoltRec.Theorems.Worker
import VoltRec.Theorems.Sender
import VoltRec.Theorems.Cells
import VoltRec.Theorems.Processed
import VoltRec.Theorems.BlockAssembly
import VoltRec.Theorems.InStep
import VoltRec.Theorems.EarlierBlocks
import VoltRec.Theorems.FlushOrder
import VoltRec.Theorems.Registration
import VoltRec.Theorems.Accounting
import VoltRec.Theorems.IgnoredPackets
import VoltRec.Theorems.Framing
import VoltRec.Theorems.Pool
import VoltRec.Theorems.LowestOrder
import VoltRec.Theorems.NetworkPool
import VoltRec.Theorems.Threads
import VoltRec.Theorems.Reception
import VoltRec.Theorems.Files
import VoltRec.Theorems.FileDrain
import VoltRec.Theorems.FilePool
import VoltRec.Theorems.Shutdown
import VoltRec.Theorems.FileContents
import VoltRec.Theorems.Processing
import VoltRec.Theorems.Recording
import VoltRec.Theorems.Arrivals
import VoltRec.Theorems.Recorder
import VoltRec.Theorems.Bounds
import VoltRec.Theorems.Slots
import VoltRec.Theorems.Delivery
import VoltRec.Theorems.Stopping
import VoltRec.Theorems.SharedHeader
import VoltRec.Theorems.Header
import VoltRec.Theorems.Converter
import VoltRec.Theorems.EightBits
import VoltRec.Theorems.OutputFiles
import VoltRec.Theorems.FrameLoop
import VoltRec.Theorems.Samples
import VoltRec.Theorems.EndToEnd
import VoltRec.Theorems.ExtHeader
import VoltRec.Theorems.ConverterBounds
import VoltRec.Theorems.WorkingBlocks
import VoltRec.Theorems.BlockHeaders
import VoltRec.Theorems.StartStop
import VoltRec.Theorems.PacketJobQueue
import VoltRec.Theorems.JobThreads
import VoltRec.Theorems.BlockSize
import VoltRec.Theorems.AntennaLookup
import VoltRec.Theorems.Spead
import VoltRec.Theorems.Placement
import VoltRec.Theorems.OuterData
import VoltRec.Theorems.RawspecDump
