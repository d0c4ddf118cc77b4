import EmSysLab.Assignment04.Encoder
import EmSysLab.Assignment04.TopEntity
import EmSysLab.Assignment04.Leds
import EmSysLab.Assignment06.FrameRing
import EmSysLab.Assignment06.RingRefinement
import EmSysLab.Assignment06.AnalysisThread
import EmSysLab.Assignment06.FrameWakeUp
import EmSysLab.Planar.Blocks
import EmSysLab.Assignment06.AnalyzeFrame
import EmSysLab.Assignment06.Shutdown
import EmSysLab.Interleaving.Reaches
import EmSysLab.Interleaving.Observed
import EmSysLab.Assignment06.Analysed
import EmSysLab.Assignment06.Progress
import EmSysLab.Assignment06.Throughput
import EmSysLab.Clocked.Register
import EmSysLab.Assignment07.EslBusDemo
import EmSysLab.Clocked.Enable
import EmSysLab.Clocked.Blinker
import EmSysLab.Blinkers
import EmSysLab.Assignment07.Ticks
import EmSysLab.Assignment07.Countdown
import EmSysLab.Assignment07.Cycle
import EmSysLab.Assignment08.Encoder
import EmSysLab.Assignment08.EncoderCopies
import EmSysLab.Assignment08.EslBusDemo
import EmSysLab.Quadrature.Readout
import EmSysLab.Assignment08.Position
import EmSysLab.Decoders
import EmSysLab.Assignment09.PwmMotordriver
import EmSysLab.Assignment09.DutyCap
import EmSysLab.Assignment09.MotorControlInterface
import EmSysLab.Assignment09.CommandLine
import EmSysLab.Assignment10.TopEntity
import EmSysLab.Assignment10.Receiver
import EmSysLab.Assignment10.Reply
import EmSysLab.Assignment10.Host
import EmSysLab.Assignment11.TopEntity
import EmSysLab.Assignment11.ByteDecoder
import EmSysLab.Assignment11.CommandParser
import EmSysLab.Assignment11.CommandDecoding
import EmSysLab.Assignment11.Abort
import EmSysLab.Assignment11.Independence
import EmSysLab.Assignment11.EncoderRead
import EmSysLab.Assignment11.PwmMotordriver
import EmSysLab.Assignment11.PwmRefinement
import EmSysLab.Assignment11.Motor
import EmSysLab.Assignment11.MotorCommand
import EmSysLab.Assignment11.PowerCap
import EmSysLab.Serial.Transfer
import EmSysLab.Serial.Message
import EmSysLab.Assignment11.Messages
import EmSysLab.Assignment11.HostSession
import EmSysLab.Assignment11.HostMain
