import TympanLadspa.Foundations.Transition
import TympanLadspa.Foundations.Location
import TympanLadspa.Foundations.Window
import TympanLadspa.Foundations.Fifo
import TympanLadspa.Foundations.Linearization
import TympanLadspa.Foundations.Flags
import TympanLadspa.Foundations.DelayLine
import TympanLadspa.Foundations.ShiftRegister
import TympanLadspa.Realtime.Ring
import TympanLadspa.Realtime.RingInvariant
import TympanLadspa.Realtime.RingSequential
import TympanLadspa.Realtime.RingLinearizable
import TympanLadspa.Realtime.RingDrop
import TympanLadspa.Realtime.LogSink
import TympanLadspa.Realtime.LogFlush
import TympanLadspa.Port.Raw
import TympanLadspa.Port.Descriptor
import TympanLadspa.Port.Builders
import TympanLadspa.Port.Access
import TympanLadspa.Port.Block
import TympanLadspa.Port.Sample
import TympanLadspa.Entry.Plugin
import TympanLadspa.Examples.Gain
import TympanLadspa.Examples.Delay
import TympanLadspa.Examples.DelayBlock
import TympanLadspa.Examples.DelayInPlace
import TympanLadspa.Entry.Shims
import TympanLadspa.Entry.Isolation
import TympanLadspa.Entry.Lifecycle
import TympanLadspa.Entry.Aliasing
import TympanLadspa.Examples.DelayRate
import TympanLadspa.Examples.DelaySlices
import TympanLadspa.Examples.DelayRecurrence
import TympanLadspa.Entry.Session
import TympanLadspa.Examples.DelayShift
import TympanLadspa.Examples.DelayBounds
import TympanLadspa.Port.NaN
import TympanLadspa.Examples.DelayNaN
import TympanLadspa.Examples.NoiseGate
import TympanLadspa.Examples.Reset
import TympanLadspa.Foundations.CStr
import TympanLadspa.Entry.RoundTrip
import TympanLadspa.Port.Lending
import TympanLadspa.Realtime.RingFits
import TympanLadspa.Realtime.LogShutdown
import TympanLadspa.Realtime.LogPanic
import TympanLadspa.Foundations.Latch
import TympanLadspa.Foundations.Checked
import TympanLadspa.Examples.DelayOffset
import TympanLadspa.Examples.DelayPass
import TympanLadspa.Examples.GateSlices
import TympanLadspa.Examples.GateHistory
import TympanLadspa.Examples.DelayUsize
import TympanLadspa.Examples.DelaySafety
import TympanLadspa.Foundations.Commuting
import TympanLadspa.Port.Steps
import TympanLadspa.Entry.Threads
import TympanLadspa.Entry.Schedules
import TympanLadspa.Realtime.LogLatency
import TympanLadspa.Realtime.RingWaitFree
import TympanLadspa.Realtime.RingRaces
import TympanLadspa.Entry.Contract
import TympanLadspa.Examples.HostSafety
import TympanLadspa.Examples.BlockSizes
import TympanLadspa.Examples.GateRow
import TympanLadspa.Port.Logged
import TympanLadspa.Entry.Logging
import TympanLadspa.Realtime.LogRoom
import TympanLadspa.Examples.DelayLog
import TympanLadspa.Foundations.Comb
import TympanLadspa.Examples.DelayEcho
import TympanLadspa.Examples.DelayTail
import TympanLadspa.Examples.DelayMix
import TympanLadspa.Examples.DelayRegister
import TympanLadspa.Foundations.Once
import TympanLadspa.Foundations.HappensBefore
import TympanLadspa.Foundations.Alloc
import TympanLadspa.Entry.Bundle
import TympanLadspa.Entry.Load
import TympanLadspa.Port.Frames
import TympanLadspa.Port.Related
import TympanLadspa.Entry.Blocks
import TympanLadspa.Entry.Simulation
