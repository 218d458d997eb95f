import NomosRt.Spsc.Fifo
import NomosRt.Lib.StableSort
import NomosRt.Scheduler.Tick
import NomosRt.Ipc.Channel
import NomosRt.Scheduler.Run
import NomosRt.Ipc.Outbound
import NomosRt.Lib.CString
import NomosRt.Osc.Encode
import NomosRt.Edn
import NomosRt.InputEvent
import NomosRt.Lib.CFloat
import NomosRt.Lib.XorLinear
import NomosRt.Osc.Server
import NomosRt.Osc.Fits
import NomosRt.Osc.Malformed
import NomosRt.Control.Dispatch
import NomosRt.Lua.Participant
import NomosRt.Control.Producers
import NomosRt.Modulator.Engine
import NomosRt.Modulator.Graph
import NomosRt.Modulator.GraphRef
import NomosRt.Modulator.GraphCode
import NomosRt.Modulator.GraphCorrect
import NomosRt.Modulator.Residue
import NomosRt.Control.ChannelVoice
import NomosRt.Control.CtrlFrame
import NomosRt.Modulator.GraphErrors
import NomosRt.Scheduler.Drain
import NomosRt.Control.Bundle
import NomosRt.Midi.Translate
import NomosRt.Lib.Grace
import NomosRt.Mcp.Evaluate
import NomosRt.Rcu.Managed
import NomosRt.Control.Connection
import NomosRt.Control.Stop
import NomosRt.Lua.Reentry
import NomosRt.Modulator.ShiftRegister
import NomosRt.Modulator.Lfsr
import NomosRt.Modulator.Turing
import NomosRt.Control.ReplEval
import NomosRt.Modulator.Generators
import NomosRt.Modulator.Listeners
import NomosRt.Modulator.Circuits
import NomosRt.Modulator.Start
import NomosRt.Modulator.Literals
import NomosRt.Control.Mts
import NomosRt.InputBuffer
import NomosRt.Midi.Flush
import NomosRt.Control.Narrowing
import NomosRt.Control.NoteForms
import NomosRt.Lib.Phase
import NomosRt.Lib.RealFloat
import NomosRt.Modulator.Messages
import NomosRt.Modulator.Phase
import NomosRt.Modulator.GraphPhase
import NomosRt.Modulator.Arith
import NomosRt.Modulator.ArithRun
import NomosRt.Lib.Trace
import NomosRt.Modulator.Bands
import NomosRt.Modulator.Edges
import NomosRt.Modulator.SegmentKey
import NomosRt.Modulator.Strobe
import NomosRt.Modulator.DejaVu
import NomosRt.Modulator.SlewStage
import NomosRt.Modulator.Fresh
import NomosRt.Control.Session
import NomosRt.Lua.Scheduled
import NomosRt.Lib.JsonText
import NomosRt.Mcp.Request
import NomosRt.Mcp.Transport
import NomosRt.Mcp.Call
import NomosRt.Control.Uuid
import NomosRt.Rcu.ReadSide
import NomosRt.Rcu.Synchronize
import NomosRt.Lib.Decimal
import NomosRt.Mcp.Stdio
import NomosRt.Modulator.Ranges
import NomosRt.Modulator.RangesRun
import NomosRt.Control.Handler
import NomosRt.Control.HandleConnection
import NomosRt.Lib.Links
import NomosRt.Rcu.CallQueue
import NomosRt.Rcu.CallRun
import NomosRt.Lib.Simulation
import NomosRt.Rcu.CallRcu
import NomosRt.Rcu.Callbacks
import NomosRt.Rcu.Linked
import NomosRt.Modulator.Clocks
import NomosRt.CommonArgs
import NomosRt.Lib.Rounding
import NomosRt.Mcp.Frame
