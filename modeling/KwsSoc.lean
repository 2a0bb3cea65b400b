import KwsSoc.Lib.SyncMachine
import KwsSoc.Lib.ByteWord
import KwsSoc.Accel.Reference
import KwsSoc.Accel.Session
import KwsSoc.Accel.Bounds
import KwsSoc.Bus.Buffering
import KwsSoc.Bus.Shared
import KwsSoc.Bus.FairArbiter
import KwsSoc.Bus.DecodeError
import KwsSoc.Bus.ApbBridge
import KwsSoc.Bus.ApbSplitter
import KwsSoc.Xip.ReadData
import KwsSoc.Xip.Gating
import KwsSoc.Firmware.Offload
import KwsSoc.Firmware.Loss
import KwsSoc.Firmware.Handover
import KwsSoc.Firmware.Recogniser
import KwsSoc.Firmware.UartLog
import KwsSoc.Firmware.PrintfRun
import KwsSoc.Firmware.Intrinsics
import KwsSoc.Heap.Alignment
import KwsSoc.Stream.Buffers
import KwsSoc.Stream.GapRing
import KwsSoc.Stream.Detector
import KwsSoc.Snooper.Fidelity
import KwsSoc.Sim.JtagReplay
import KwsSoc.Sim.Testbed
import KwsSoc.Sim.UartDecode
import KwsSoc.Sim.HexFile
import KwsSoc.Xip.Transaction
import KwsSoc.Xip.LineSize
import KwsSoc.Xip.Hints
import KwsSoc.Xip.WarmReset
