import PersonaMessage.Transitions
import PersonaMessage.ByteStream
import PersonaMessage.ChunkStream
import PersonaMessage.SignalFrames
import PersonaMessage.FrameProgress
import PersonaMessage.FrameSchedule
import PersonaMessage.NotaCodec
import PersonaMessage.MessageContract
import PersonaMessage.RouterCodec
import PersonaMessage.DaemonStamping
import PersonaMessage.DaemonConnection
import PersonaMessage.SocketFiles
import PersonaMessage.DaemonBinding
import PersonaMessage.TableLibrary
import PersonaMessage.DaemonIsolation
import PersonaMessage.IngressMachine
import PersonaMessage.IngressInvariant
import PersonaMessage.IngressProvenance
import PersonaMessage.IngressBound
import PersonaMessage.ConnectionFaults
import PersonaMessage.IngressSerial
import PersonaMessage.SerialRealised
import PersonaMessage.ConnectionIndependence
import PersonaMessage.AcceptOrder
import PersonaMessage.AcceptLatency
import PersonaMessage.Supervision
import PersonaMessage.FrameReaders
import PersonaMessage.SupervisionServer
import PersonaMessage.SupervisionProgress
import PersonaMessage.ProcessMachine
import PersonaMessage.ProcessInvariant
import PersonaMessage.ProcessStop
import PersonaMessage.ProcessLiveness
import PersonaMessage.StopBound
import PersonaMessage.CleanExit
import PersonaMessage.SupervisionSerial
import PersonaMessage.SupervisionManager
import PersonaMessage.SocketReleases
import PersonaMessage.DaemonRun
import PersonaMessage.DaemonRestart
import PersonaMessage.StartupWindow
import PersonaMessage.NotaText
import PersonaMessage.CommandSurface
import PersonaMessage.CommandRun
import PersonaMessage.CursorParser
import PersonaMessage.OutputValidator
import PersonaMessage.EndToEnd
import PersonaMessage.CommandPipeline
