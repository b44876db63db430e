import PersonaMessage.DaemonRun

/-! Runs of the daemon one after the other on one host: what a run does to the files there,
however it ends, and what the next one starts from. -/
namespace PersonaMessage.DaemonRestart
open ByteStream SocketFiles DaemonBinding DaemonStamping SocketReleases DaemonRun

/-- What goes wrong in a run, and what its accept loop comes to. -/
structure Launch where
  faults : ℕ → Option BindFault
  nonblocking : Option IoError
  spawning : Option BindFault
  runtime : Option IoError
  served : Result Unit

def Launch.run (launch : Launch) (daemon : MessageDaemon) (host : Host) : Host × Result Unit :=
  DaemonRun.run daemon launch.faults launch.nonblocking launch.spawning launch.runtime
    launch.served host

/-- What `run` binds, in order: the endpoints, then the supervision socket. -/
def sockets (daemon : MessageDaemon) : List (Path × FileMode) :=
  daemon.binders.map (fun binder => (binder.path, binder.mode.asOctal)) ++
    [(daemon.supervisionSocketPath, daemon.supervisionSocketMode.asOctal)]

variable {daemon : MessageDaemon} {launch : Launch} {host : Host} {path : Path}
  {faults : ℕ → Option BindFault}

/-- The supervision socket stays, which nothing drops. -/
example : ((⟨fun _ => none, none, none, none, .ok ()⟩ : Launch).run
    (.fromConfiguration (twoSockets "/run/message.sock" "/run/ingress.sock"))
      emptyHost).1.files "/run/supervision.sock" = some ⟨2, 0o600⟩ := rfl

/-- Every file is that of a listener that has been bound. -/
def Fresh (host : Host) : Prop :=
  ∀ path file, host.files path = some file → file.listener < host.nextListener

theorem Fresh.unlink (h : Fresh host) (own : Path) :
    Fresh { host with files := host.files.unlink own } := by
  intro path file hf
  by_cases hp : path = own
  · subst hp
    simp at hf
  · exact h path file ((Files.unlink_of_ne hp).symm.trans hf)

theorem Fresh.listen (h : Fresh host) (own : Path) (mode : FileMode) :
    Fresh { host with
      files := host.files.listen own host.nextListener mode
      nextListener := host.nextListener+1 } := by
  intro path file hf
  by_cases hp : path = own
  · subst hp
    obtain rfl := Option.some.inj ((Files.listen_self ..).symm.trans hf)
    exact Nat.lt_succ_self _
  · exact Nat.lt_succ_of_lt (h path file ((Files.listen_of_ne hp ..).symm.trans hf))

theorem Fresh.bindFiles (h : Fresh host) (own : Path) (mode : FileMode)
    (fault : Option BindFault) : Fresh (bindFiles host own mode fault).1 := by
  cases fault with
  | none =>
    have hlisten := h.listen own mode
    rw [← Files.chmod_listen host.files own host.nextListener (createdMode host.umask)] at hlisten
    exact hlisten
  | some fault =>
    cases fault with
    | createDirAll e => exact h
    | removeFile e => exact h
    | bind e => exact h.unlink own
    | setPermissions e => exact (h.unlink own).listen own _

theorem Fresh.dropAll (h : Fresh host) (bindings : List MessageSocketBinding) :
    Fresh (dropAll bindings host) := by
  induction bindings generalizing host with
  | nil => exact h
  | cons binding bindings ih => exact ih (h.unlink binding.path)

theorem Fresh.bind (h : Fresh host) (binder : MessageSocketBinder) (fault : Option BindFault) :
    Fresh (binder.bind host fault).1 := by
  have hfresh := h.bindFiles binder.path binder.mode.asOctal fault
  unfold MessageSocketBinder.bind
  split <;>
    · next he =>
      rw [he] at hfresh
      exact hfresh

theorem Fresh.pushBindings (h : Fresh host) (faults : ℕ → Option BindFault)
    (binders : List MessageSocketBinder) (bound : List MessageSocketBinding) :
    Fresh (pushBindings faults binders bound host).1 := by
  induction binders generalizing bound host with
  | nil => exact h
  | cons binder binders ih =>
    have hbind := h.bind binder (faults bound.length)
    rw [DaemonBinding.pushBindings]
    split
    · next he =>
      rw [he] at hbind
      exact Fresh.dropAll hbind bound
    · next he =>
      rw [he] at hbind
      exact ih hbind _

theorem Fresh.run (h : Fresh host) (launch : Launch) (daemon : MessageDaemon) :
    Fresh (launch.run daemon host).1 := by
  have hbound := h.pushBindings launch.faults daemon.binders []
  rw [← bindListeners_eq] at hbound
  have hstart : Fresh
      (daemon.start launch.faults launch.nonblocking launch.spawning host).1 := by
    unfold MessageDaemon.start
    split
    · next he =>
      rw [he] at hbound
      exact hbound
    · next host' bindings he =>
      rw [he] at hbound
      split
      · exact Fresh.dropAll hbound _
      · have hbind := Fresh.bindFiles hbound daemon.supervisionSocketPath
          daemon.supervisionSocketMode.asOctal launch.spawning
        split
        · next hs =>
          rw [hs] at hbind
          exact hbind.dropAll _
        · next hs =>
          rw [hs] at hbind
          exact hbind
  unfold Launch.run DaemonRun.run
  split
  · next he =>
    rw [he] at hstart
    exact hstart
  · next he =>
    rw [he] at hstart
    split <;> exact hstart.dropAll _

end PersonaMessage.DaemonRestart
