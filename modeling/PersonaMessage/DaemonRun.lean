import PersonaMessage.SocketReleases

/-! The sockets that a run of the daemon leaves behind. What has been bound is removed by the
drop of its binding, so it depends on where a run ends whether every socket has one. -/
namespace PersonaMessage.DaemonRun
open ByteStream SocketFiles DaemonBinding DaemonStamping SocketReleases

/-- `MessageDaemon::run`: the startup, the runtime, and whatever its accept loop and the stop of
the root return. All ways out drop the bindings. -/
def run (daemon : MessageDaemon) (faults : ℕ → Option BindFault) (nonblocking : Option IoError)
    (spawning : Option BindFault) (runtime : Option IoError) (served : Result Unit)
    (host : Host) : Host × Result Unit :=
  match daemon.start faults nonblocking spawning host with
  | (host, .error e) => (host, .error e)
  | (host, .ok started) =>
    match runtime with
    | some e => (dropAll started.bindings host, .error (.io e))
    | none => (dropAll started.bindings host, served)

theorem bindListeners_eq (daemon : MessageDaemon) (faults : ℕ → Option BindFault) (host : Host) :
    daemon.bindListeners faults host = pushBindings faults daemon.binders [] host := rfl

section Failed
variable {faults : ℕ → Option BindFault} {before after : List MessageSocketBinder}
  {binder : MessageSocketBinder} {fault : BindFault}

end Failed

end PersonaMessage.DaemonRun
