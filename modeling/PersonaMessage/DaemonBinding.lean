import PersonaMessage.SocketFiles
import PersonaMessage.DaemonStamping

/-! Binding the daemon's sockets in `src/daemon.rs` and the supervision socket in
`src/supervision.rs`: the configuration, one bind with every step that can fail, and the
startup that binds all endpoints in turn. -/
namespace PersonaMessage.DaemonBinding
open ByteStream SocketFiles DaemonStamping

/-- A path stands for the file it names. -/
abbrev Path := String

structure SocketMode where
  value : UInt32
  deriving DecidableEq

def SocketMode.fromOctal (value : UInt32) : SocketMode := ⟨value⟩
def SocketMode.asOctal (mode : SocketMode) : UInt32 := mode.value

structure SupervisionSocketMode where
  value : UInt32
  deriving DecidableEq

def SupervisionSocketMode.fromOctal (value : UInt32) : SupervisionSocketMode := ⟨value⟩
def SupervisionSocketMode.asOctal (mode : SupervisionSocketMode) : UInt32 := mode.value

structure ComponentMessageIngress where
  socketPath : Path
  socketMode : UInt32
  origin : InternalComponentInstanceOrigin
  deriving DecidableEq

structure MessageDaemonConfiguration where
  messageSocketPath : Path
  messageSocketMode : UInt32
  routerSocketPath : Path
  supervisionSocketPath : Path
  supervisionSocketMode : UInt32
  componentIngresses : List ComponentMessageIngress
  ownerIdentity : OwnerIdentity
  deriving DecidableEq

structure ComponentMessageIngressBinding where
  socket : Path
  socketMode : SocketMode
  origin : InternalComponentInstanceOrigin
  deriving DecidableEq

def ComponentMessageIngressBinding.fromContract (ingress : ComponentMessageIngress) :
    ComponentMessageIngressBinding :=
  ⟨ingress.socketPath, .fromOctal ingress.socketMode, ingress.origin⟩

structure MessageDaemon where
  messageSocket : Path
  messageSocketMode : SocketMode
  routerSocket : Path
  supervisionSocketPath : Path
  supervisionSocketMode : SupervisionSocketMode
  componentIngresses : List ComponentMessageIngressBinding
  ownerIdentity : OwnerIdentity
  deriving DecidableEq

def MessageDaemon.fromConfiguration (configuration : MessageDaemonConfiguration) :
    MessageDaemon :=
  { messageSocket := configuration.messageSocketPath
    messageSocketMode := .fromOctal configuration.messageSocketMode
    routerSocket := configuration.routerSocketPath
    supervisionSocketPath := configuration.supervisionSocketPath
    supervisionSocketMode := .fromOctal configuration.supervisionSocketMode
    componentIngresses := configuration.componentIngresses.map .fromContract
    ownerIdentity := configuration.ownerIdentity }

/-- The host that processes share: its socket files, and a fresh name for each listener. -/
structure Host where
  files : Files Path ℕ
  nextListener : ℕ
  umask : FileMode

/-- The step at which a bind fails. A file that cannot be removed is not noticed before
`bind` finds it. -/
inductive BindFault
  | createDirAll (error : IoError)
  | removeFile (error : IoError)
  | bind (error : IoError)
  | setPermissions (error : IoError)
  deriving DecidableEq

/-- The path is empty, or holds a socket nobody listens on, when the bind has failed. -/
def BindFault.afterUnlink : BindFault → Bool
  | .createDirAll _ => false
  | .removeFile _ => false
  | .bind _ => true
  | .setPermissions _ => true

structure MessageSocketBinder where
  path : Path
  mode : SocketMode
  authority : MessageIngressAuthority
  deriving DecidableEq

structure MessageSocketBinding where
  path : Path
  listener : ℕ
  authority : MessageIngressAuthority
  deriving DecidableEq

/-- The files after a bind that fails, or not, at the given step. -/
def bindFiles (host : Host) (path : Path) (mode : FileMode) (fault : Option BindFault) :
    Host × Except IoError ℕ :=
  let unlinked := { host with files := host.files.unlink path }
  let bound := { unlinked with
    files := unlinked.files.listen path host.nextListener (createdMode host.umask)
    nextListener := host.nextListener+1 }
  match fault with
  | some (.createDirAll e) => (host, .error e)
  | some (.removeFile e) => (host, .error e)
  | some (.bind e) => (unlinked, .error e)
  | some (.setPermissions e) => (bound, .error e)
  | none => ({ bound with files := bound.files.chmod path mode }, .ok host.nextListener)

def MessageSocketBinder.bind (binder : MessageSocketBinder) (host : Host)
    (fault : Option BindFault) : Host × Result MessageSocketBinding :=
  match bindFiles host binder.path binder.mode.asOctal fault with
  | (host, .error e) => (host, .error (.io e))
  | (host, .ok listener) => (host, .ok ⟨binder.path, listener, binder.authority⟩)

/-- `Drop for MessageSocketBinding`; its errors are ignored. -/
def MessageSocketBinding.drop (binding : MessageSocketBinding) (host : Host) : Host :=
  { host with files := host.files.unlink binding.path }

def dropAll (bindings : List MessageSocketBinding) (host : Host) : Host :=
  bindings.foldl (fun host binding => binding.drop host) host

def MessageDaemon.externalBinder (daemon : MessageDaemon) : MessageSocketBinder :=
  ⟨daemon.messageSocket, daemon.messageSocketMode, .externalPeer⟩

def ComponentMessageIngressBinding.binder (ingress : ComponentMessageIngressBinding) :
    MessageSocketBinder :=
  ⟨ingress.socket, ingress.socketMode, .internalComponentInstance ingress.origin⟩

def MessageDaemon.binders (daemon : MessageDaemon) : List MessageSocketBinder :=
  daemon.externalBinder :: daemon.componentIngresses.map ComponentMessageIngressBinding.binder

/-- The loop of `bind_listeners`: an error drops what has been bound before it. -/
def pushBindings (faults : ℕ → Option BindFault) :
    List MessageSocketBinder → List MessageSocketBinding → Host →
      Host × Result (List MessageSocketBinding)
  | [], bindings, host => (host, .ok bindings)
  | binder :: binders, bindings, host =>
    match binder.bind host (faults bindings.length) with
    | (host, .error e) => (dropAll bindings host, .error e)
    | (host, .ok binding) => pushBindings faults binders (bindings ++ [binding]) host

/-- The fault at index `i` is that of the `i`-th endpoint. -/
def MessageDaemon.bindListeners (daemon : MessageDaemon) (faults : ℕ → Option BindFault)
    (host : Host) : Host × Result (List MessageSocketBinding) :=
  match daemon.externalBinder.bind host (faults 0) with
  | (host, .error e) => (host, .error e)
  | (host, .ok binding) =>
    pushBindings faults (daemon.componentIngresses.map ComponentMessageIngressBinding.binder)
      [binding] host

/-- What `run` holds when its accept loop starts. -/
structure Started where
  bindings : List MessageSocketBinding
  supervision : ℕ

/-- `run` up to its accept loop; the supervision socket is bound by `SupervisionListener::spawn`,
and an error drops the bindings. -/
def MessageDaemon.start (daemon : MessageDaemon) (faults : ℕ → Option BindFault)
    (nonblocking : Option IoError) (spawning : Option BindFault) (host : Host) :
    Host × Result Started :=
  match daemon.bindListeners faults host with
  | (host, .error e) => (host, .error e)
  | (host, .ok bindings) =>
    match nonblocking with
    | some e => (dropAll bindings host, .error (.io e))
    | none =>
      match bindFiles host daemon.supervisionSocketPath daemon.supervisionSocketMode.asOctal
          spawning with
      | (host, .error e) => (dropAll bindings host, .error (.io e))
      | (host, .ok listener) => (host, .ok ⟨bindings, listener⟩)

/-- `accept_one` over the backlogs of the listeners: the first binding, in order, that has a
connection waiting hands it over with its own authority. -/
def acceptOne {γ : Type} : List MessageSocketBinding → (ℕ → List γ) →
    Option ((γ × MessageIngressAuthority) × (ℕ → List γ))
  | [], _ => none
  | binding :: bindings, backlog =>
    match backlog binding.listener with
    | [] => acceptOne bindings backlog
    | client :: waiting =>
      some ((client, binding.authority), Function.update backlog binding.listener waiting)

theorem bindFiles_ok {host host' : Host} {path : Path} {mode : FileMode}
    {fault : Option BindFault} {listener : ℕ}
    (h : bindFiles host path mode fault = (host', .ok listener)) :
    fault = none ∧ listener = host.nextListener ∧
      host' = { host with
        files := host.files.listen path host.nextListener mode
        nextListener := host.nextListener+1 } := by
  unfold bindFiles at h
  split at h
  · simp at h
  · simp at h
  · simp at h
  · simp at h
  · obtain ⟨rfl, hl⟩ := Prod.mk.inj h
    refine ⟨rfl, (Except.ok.inj hl).symm, ?_⟩
    simp only [Files.chmod_listen]

theorem bind_ok {binder : MessageSocketBinder} {host host' : Host} {fault : Option BindFault}
    {binding : MessageSocketBinding} (h : binder.bind host fault = (host', .ok binding)) :
    fault = none ∧ binding = ⟨binder.path, host.nextListener, binder.authority⟩ ∧
      host' = { host with
        files := host.files.listen binder.path host.nextListener binder.mode.asOctal
        nextListener := host.nextListener+1 } := by
  unfold MessageSocketBinder.bind at h
  split at h
  · simp at h
  · next hb =>
    obtain ⟨hf, rfl, rfl⟩ := bindFiles_ok hb
    obtain ⟨rfl, hl⟩ := Prod.mk.inj h
    exact ⟨hf, (Except.ok.inj hl).symm, rfl⟩

/-- The bindings that a list of binders leaves behind. -/
def boundFrom : ℕ → List MessageSocketBinder → List MessageSocketBinding
  | _, [] => []
  | n, binder :: binders => ⟨binder.path, n, binder.authority⟩ :: boundFrom (n+1) binders

/-- The files that a list of binders leaves behind. -/
def filesFrom : ℕ → List MessageSocketBinder → Files Path ℕ →
    Files Path ℕ
  | _, [], files => files
  | n, binder :: binders, files =>
    filesFrom (n+1) binders (files.listen binder.path n binder.mode.asOctal)

theorem pushBindings_ok {faults : ℕ → Option BindFault} {binders : List MessageSocketBinder}
    {bound bindings : List MessageSocketBinding} {host host' : Host}
    (h : pushBindings faults binders bound host = (host', .ok bindings)) :
    bindings = bound ++ boundFrom host.nextListener binders ∧
      host' = { host with
        files := filesFrom host.nextListener binders host.files
        nextListener := host.nextListener+binders.length } := by
  induction binders generalizing bound host with
  | nil =>
    obtain ⟨rfl, hb⟩ := Prod.mk.inj h
    obtain rfl := Except.ok.inj hb
    simp [boundFrom, filesFrom]
  | cons binder binders ih =>
    simp only [pushBindings] at h
    split at h
    · simp at h
    · next hb =>
      obtain ⟨_, rfl, rfl⟩ := bind_ok hb
      obtain ⟨rfl, rfl⟩ := ih h
      refine ⟨by simp [boundFrom], ?_⟩
      simp only [filesFrom, List.length_cons, Host.mk.injEq, true_and, and_true]
      omega

theorem bindListeners_ok {daemon : MessageDaemon} {faults : ℕ → Option BindFault}
    {host host' : Host} {bindings : List MessageSocketBinding}
    (h : daemon.bindListeners faults host = (host', .ok bindings)) :
    bindings = boundFrom host.nextListener daemon.binders ∧
      host' = { host with
        files := filesFrom host.nextListener daemon.binders host.files
        nextListener := host.nextListener+daemon.binders.length } := by
  unfold MessageDaemon.bindListeners at h
  split at h
  · simp at h
  · next hb =>
    obtain ⟨_, rfl, rfl⟩ := bind_ok hb
    obtain ⟨rfl, rfl⟩ := pushBindings_ok h
    refine ⟨rfl, ?_⟩
    simp only [MessageDaemon.binders, filesFrom, List.length_cons, Host.mk.injEq, true_and,
      and_true]
    omega

theorem start_ok {daemon : MessageDaemon} {faults : ℕ → Option BindFault}
    {nonblocking : Option IoError} {spawning : Option BindFault} {host host' : Host}
    {started : Started}
    (h : daemon.start faults nonblocking spawning host = (host', .ok started)) :
    started.bindings = boundFrom host.nextListener daemon.binders ∧
      host'.files = (filesFrom host.nextListener daemon.binders host.files).listen
        daemon.supervisionSocketPath (host.nextListener+daemon.binders.length)
        daemon.supervisionSocketMode.asOctal := by
  unfold MessageDaemon.start at h
  split at h
  · simp at h
  · next hb =>
    obtain ⟨rfl, rfl⟩ := bindListeners_ok hb
    split at h
    · simp at h
    · split at h
      · simp at h
      · next hs =>
        obtain ⟨_, rfl, rfl⟩ := bindFiles_ok hs
        obtain ⟨rfl, he⟩ := Prod.mk.inj h
        obtain rfl := Except.ok.inj he
        exact ⟨rfl, rfl⟩

theorem filesFrom_not_mem {binders : List MessageSocketBinder} {path : Path}
    (h : ∀ binder ∈ binders, binder.path ≠ path) (n : ℕ)
    (files : Files Path ℕ) : filesFrom n binders files path = files path := by
  induction binders generalizing n files with
  | nil => rfl
  | cons binder binders ih =>
    rw [filesFrom, ih (fun b hb => h b (List.mem_cons_of_mem _ hb))]
    exact Files.listen_of_ne (h binder List.mem_cons_self).symm ..

/-- A path that some binder names resolves to a listener of this list. -/
theorem filesFrom_mem {binders : List MessageSocketBinder} {path : Path}
    (h : ∃ binder ∈ binders, binder.path = path) (n : ℕ)
    (files : Files Path ℕ) :
    ∃ file, filesFrom n binders files path = some file ∧ n ≤ file.listener := by
  induction binders generalizing n files with
  | nil => simp at h
  | cons binder binders ih =>
    rw [filesFrom]
    by_cases hl : ∃ later ∈ binders, later.path = path
    · obtain ⟨file, hf, hn⟩ := ih hl (n+1) (files.listen binder.path n binder.mode.asOctal)
      exact ⟨file, hf, by omega⟩
    · have hp : binder.path = path := by
        obtain ⟨b, hb, hp⟩ := h
        rcases List.mem_cons.mp hb with rfl | hb
        · exact hp
        · exact absurd ⟨b, hb, hp⟩ hl
      rw [filesFrom_not_mem (fun b hb hp => hl ⟨b, hb, hp⟩)]
      subst hp
      exact ⟨_, Files.listen_self .., le_rfl⟩

/-- An endpoint keeps its path if no later one is configured with it. -/
theorem filesFrom_own {binders : List MessageSocketBinder} {i : ℕ}
    {binder : MessageSocketBinder} (hi : binders[i]? = some binder)
    (hl : ∀ j later, i < j → binders[j]? = some later → later.path ≠ binder.path) (n : ℕ)
    (files : Files Path ℕ) :
    filesFrom n binders files binder.path = some ⟨n+i, binder.mode.asOctal⟩ := by
  induction binders generalizing i n files with
  | nil => simp at hi
  | cons first binders ih =>
    rw [filesFrom]
    cases i with
    | zero =>
      obtain rfl : first = binder := by simpa using hi
      have hne : ∀ later ∈ binders, later.path ≠ first.path := by
        intro later hm
        obtain ⟨j, hj⟩ := List.mem_iff_getElem?.mp hm
        exact hl (j+1) later (by omega) (by simpa using hj)
      rw [filesFrom_not_mem hne]
      exact Files.listen_self ..
    | succ i =>
      have hrest := ih (by simpa using hi)
        (fun j later hj hb => hl (j+1) later (by omega) (by simpa using hb)) (n+1)
        (files.listen first.path n first.mode.asOctal)
      rw [hrest]
      simp only [Option.some.injEq, SocketFile.mk.injEq, and_true]
      omega

/-- Otherwise a later listener has taken it. -/
theorem filesFrom_taken {binders : List MessageSocketBinder} {i j : ℕ}
    {binder later : MessageSocketBinder} (hi : binders[i]? = some binder) (hij : i < j)
    (hj : binders[j]? = some later) (hp : later.path = binder.path) (n : ℕ)
    (files : Files Path ℕ) :
    ∃ file, filesFrom n binders files binder.path = some file ∧ n+i < file.listener := by
  induction binders generalizing i j n files with
  | nil => simp at hi
  | cons first binders ih =>
    rw [filesFrom]
    obtain ⟨j, rfl⟩ : ∃ k, j = k+1 := ⟨j-1, by omega⟩
    have hj' : binders[j]? = some later := by simpa using hj
    cases i with
    | zero =>
      obtain ⟨file, hf, hn⟩ := filesFrom_mem ⟨later, List.mem_of_getElem? hj', hp⟩ (n+1)
        (files.listen first.path n first.mode.asOctal)
      exact ⟨file, hf, by omega⟩
    | succ i =>
      obtain ⟨file, hf, hn⟩ := ih (by simpa using hi) (by omega) hj' (n+1)
        (files.listen first.path n first.mode.asOctal)
      exact ⟨file, hf, by omega⟩

theorem boundFrom_getElem {binders : List MessageSocketBinder} {i : ℕ}
    {binder : MessageSocketBinder} (hi : binders[i]? = some binder) (n : ℕ) :
    (boundFrom n binders)[i]? = some ⟨binder.path, n+i, binder.authority⟩ := by
  induction binders generalizing i n with
  | nil => simp at hi
  | cons first binders ih =>
    cases i with
    | zero =>
      obtain rfl : first = binder := by simpa using hi
      simp [boundFrom]
    | succ i =>
      have hrest := ih (i := i) (by simpa using hi) (n+1)
      simp only [boundFrom, List.getElem?_cons_succ, hrest, Option.some.injEq,
        MessageSocketBinding.mk.injEq, true_and, and_true]
      omega

theorem boundFrom_length (n : ℕ) (binders : List MessageSocketBinder) :
    (boundFrom n binders).length = binders.length := by
  induction binders generalizing n with
  | nil => rfl
  | cons first binders ih => simp [boundFrom, ih]

theorem boundFrom_authority (n : ℕ) (binders : List MessageSocketBinder) :
    (boundFrom n binders).map MessageSocketBinding.authority =
      binders.map MessageSocketBinder.authority := by
  induction binders generalizing n with
  | nil => rfl
  | cons first binders ih => simp [boundFrom, ih]

/-- The authorities with which `accept_one` hands connections over, in the order in which it
asks the listeners. -/
theorem start_authorities {configuration : MessageDaemonConfiguration}
    {faults : ℕ → Option BindFault} {nonblocking : Option IoError}
    {spawning : Option BindFault} {host host' : Host} {started : Started}
    (h : (MessageDaemon.fromConfiguration configuration).start faults nonblocking spawning host =
      (host', .ok started)) :
    started.bindings.map MessageSocketBinding.authority =
      .externalPeer :: configuration.componentIngresses.map
        (fun ingress => .internalComponentInstance ingress.origin) := by
  rw [(start_ok h).1, boundFrom_authority]
  simp [MessageDaemon.binders, MessageDaemon.externalBinder, MessageDaemon.fromConfiguration,
    ComponentMessageIngressBinding.binder, ComponentMessageIngressBinding.fromContract]

/-- The backlogs while one client waits at one listener. -/
def waitingAt {γ : Type} (listener : ℕ) (client : γ) : ℕ → List γ :=
  Function.update (fun _ => []) listener [client]

/-- A client that waits alone is handed over with the authority of its listener. -/
theorem acceptOne_boundFrom {γ : Type} {binders : List MessageSocketBinder} {i : ℕ}
    {binder : MessageSocketBinder} (hi : binders[i]? = some binder) (n : ℕ) (client : γ) :
    (acceptOne (boundFrom n binders) (waitingAt (n+i) client)).map Prod.fst =
      some (client, binder.authority) := by
  induction binders generalizing i n with
  | nil => simp at hi
  | cons first binders ih =>
    cases i with
    | zero =>
      obtain rfl : first = binder := by simpa using hi
      simp [boundFrom, acceptOne, waitingAt]
    | succ i =>
      have hne : n ≠ n+(i+1) := by omega
      have hempty : waitingAt (n+(i+1)) client n = [] := Function.update_of_ne hne ..
      have hrest := ih (i := i) (by simpa using hi) (n+1)
      rw [show n+1+i = n+(i+1) by omega] at hrest
      simp only [boundFrom, acceptOne, hempty]
      exact hrest

theorem acceptOne_some {γ : Type} {bindings : List MessageSocketBinding}
    {backlog backlog' : ℕ → List γ} {client : γ} {authority : MessageIngressAuthority}
    (h : acceptOne bindings backlog = some ((client, authority), backlog')) :
    ∃ (k : ℕ) (binding : MessageSocketBinding) (waiting : List γ), bindings[k]? = some binding ∧
      backlog binding.listener = client :: waiting ∧ authority = binding.authority ∧
      backlog' = Function.update backlog binding.listener waiting := by
  induction bindings with
  | nil => simp [acceptOne] at h
  | cons first bindings ih =>
    rw [acceptOne] at h
    split at h
    · obtain ⟨k, binding, waiting, hk, hrest⟩ := ih h
      exact ⟨k+1, binding, waiting, by simpa using hk, hrest⟩
    · next waiting hb =>
      have heq := Option.some.inj h
      simp only [Prod.mk.injEq] at heq
      obtain ⟨⟨rfl, rfl⟩, rfl⟩ := heq
      exact ⟨0, first, waiting, by simp, hb, rfl, rfl⟩

/-- Whatever else waits, a connection taken off a listener gets the authority bound with it. -/
theorem acceptOne_authority {γ : Type} {binders : List MessageSocketBinder} {i n : ℕ}
    {binder : MessageSocketBinder} (hi : binders[i]? = some binder)
    {backlog backlog' : ℕ → List γ} {client : γ} {authority : MessageIngressAuthority}
    (h : acceptOne (boundFrom n binders) backlog = some ((client, authority), backlog'))
    (htaken : backlog' (n+i) ≠ backlog (n+i)) : authority = binder.authority := by
  obtain ⟨k, binding, waiting, hk, hb, rfl, rfl⟩ := acceptOne_some h
  have hlt : k < binders.length := by
    have hlt := (List.getElem?_eq_some_iff.mp hk).1
    rwa [boundFrom_length] at hlt
  have hbinding := boundFrom_getElem (List.getElem?_eq_getElem hlt) n
  obtain rfl := Option.some.inj (hk.symm.trans hbinding)
  have hki : k = i := by
    by_contra hne
    have hne' : n+i ≠ n+k := by omega
    exact htaken (Function.update_of_ne hne' ..)
  subst hki
  exact congrArg MessageSocketBinder.authority
    (Option.some.inj ((List.getElem?_eq_getElem hlt).symm.trans hi))

/-- A client that connects to the path of endpoint `i` reaches the listener bound for it,
through a file of its mode: alone it is handed over with the endpoint's authority, and so is
every connection that is ever taken off that listener. -/
def ReachesOwn (daemon : MessageDaemon) (host : Host) (started : Started) (i : ℕ) : Prop :=
  ∃ binder binding file, daemon.binders[i]? = some binder ∧
    started.bindings[i]? = some binding ∧ host.files binder.path = some file ∧
    file.listener = binding.listener ∧ file.mode = binder.mode.asOctal ∧
    (∀ client : Credentials, (acceptOne started.bindings (waitingAt file.listener client)).map
      Prod.fst = some (client, binder.authority)) ∧
    ∀ (backlog backlog' : ℕ → List Credentials) client authority,
      acceptOne started.bindings backlog = some ((client, authority), backlog') →
      backlog' file.listener ≠ backlog file.listener → authority = binder.authority

/-- After startup an endpoint is reached through its path exactly if no later endpoint, nor
the supervision socket, is configured with that path. -/
theorem reachesOwn_iff {configuration : MessageDaemonConfiguration}
    {faults : ℕ → Option BindFault} {nonblocking : Option IoError}
    {spawning : Option BindFault} {host host' : Host} {started : Started} {i : ℕ}
    {binder : MessageSocketBinder}
    (h : (MessageDaemon.fromConfiguration configuration).start faults nonblocking spawning host =
      (host', .ok started))
    (hi : (MessageDaemon.fromConfiguration configuration).binders[i]? = some binder) :
    ReachesOwn (.fromConfiguration configuration) host' started i ↔
      (∀ j later, i < j →
        (MessageDaemon.fromConfiguration configuration).binders[j]? = some later →
          later.path ≠ binder.path) ∧
      configuration.supervisionSocketPath ≠ binder.path := by
  obtain ⟨hb, hf⟩ := start_ok h
  have hown := boundFrom_getElem hi host.nextListener
  constructor
  · rintro ⟨binder', binding, file, hbinder, hbinding, hfile, hl, hm, _⟩
    obtain rfl := Option.some.inj (hi.symm.trans hbinder)
    rw [hb, hown] at hbinding
    obtain rfl := Option.some.inj hbinding
    have hsup : (MessageDaemon.fromConfiguration configuration).supervisionSocketPath ≠
        binder.path := by
      intro hp
      have hlt := (List.getElem?_eq_some_iff.mp hi).1
      rw [hf, ← hp] at hfile
      obtain rfl := Option.some.inj ((Files.listen_self ..).symm.trans hfile)
      simp only at hl
      omega
    refine ⟨?_, hsup⟩
    intro j later hij hj hp
    rw [hf, Files.listen_of_ne hsup.symm] at hfile
    obtain ⟨file', hf', hn⟩ := filesFrom_taken hi hij hj hp host.nextListener host.files
    rw [hf'] at hfile
    obtain rfl := Option.some.inj hfile
    simp only at hl
    omega
  · rintro ⟨hl, hne⟩
    have hsup : (MessageDaemon.fromConfiguration configuration).supervisionSocketPath ≠
        binder.path := hne
    refine ⟨binder, _, ⟨host.nextListener+i, binder.mode.asOctal⟩, hi, hb ▸ hown, ?_, rfl, rfl,
      ?_, ?_⟩
    · rw [hf, Files.listen_of_ne hsup.symm]
      exact filesFrom_own hi hl _ _
    · intro client
      rw [hb]
      exact acceptOne_boundFrom hi _ client
    · intro backlog backlog' client authority hacc htaken
      rw [hb] at hacc
      exact acceptOne_authority hi hacc htaken

def emptyHost : Host := ⟨fun _ => none, 0, 0o022⟩

/-- Two sockets and the supervision socket, the first two under the given paths. -/
def twoSockets (message ingress : Path) : MessageDaemonConfiguration :=
  { messageSocketPath := message
    messageSocketMode := 0o600
    routerSocketPath := "/run/router.sock"
    supervisionSocketPath := "/run/supervision.sock"
    supervisionSocketMode := 0o600
    componentIngresses := [⟨ingress, 0o660, ⟨"mind", "first"⟩⟩]
    ownerIdentity := .unixUser ⟨1000⟩ }

theorem twoSockets_start (message ingress : Path) :
    ∃ started host', (MessageDaemon.fromConfiguration (twoSockets message ingress)).start
      (fun _ => none) none none emptyHost = (host', .ok started) := ⟨_, _, rfl⟩

theorem twoSockets_reachesOwn :
    ∃ started host', (MessageDaemon.fromConfiguration
        (twoSockets "/run/message.sock" "/run/ingress.sock")).start
      (fun _ => none) none none emptyHost = (host', .ok started) ∧
      ReachesOwn (.fromConfiguration (twoSockets "/run/message.sock" "/run/ingress.sock")) host'
        started 0 := by
  obtain ⟨started, host', h⟩ := twoSockets_start "/run/message.sock" "/run/ingress.sock"
  refine ⟨started, host', h, (reachesOwn_iff h rfl).mpr ⟨?_, by decide⟩⟩
  intro j later hj hl
  obtain rfl : j = 1 := by
    have hlt := (List.getElem?_eq_some_iff.mp hl).1
    simp only [MessageDaemon.binders, MessageDaemon.fromConfiguration, twoSockets, List.map_cons,
      List.map_nil, List.length_cons, List.length_nil] at hlt
    omega
  obtain rfl := Option.some.inj hl
  decide

/-- An ingress configured with the path of the message socket takes it over: who connects
there is handed over as that component. -/
theorem message_path_shadowed :
    ∃ started host', (MessageDaemon.fromConfiguration
        (twoSockets "/run/message.sock" "/run/message.sock")).start
      (fun _ => none) none none emptyHost = (host', .ok started) ∧
      ¬ ReachesOwn (.fromConfiguration (twoSockets "/run/message.sock" "/run/message.sock")) host'
        started 0 ∧
      ∃ file, host'.files "/run/message.sock" = some file ∧
        ∀ client : Credentials,
          (acceptOne started.bindings (waitingAt file.listener client)).map Prod.fst =
            some (client, .internalComponentInstance ⟨"mind", "first"⟩) := by
  refine ⟨_, _, rfl, ?_, _, rfl, fun client => rfl⟩
  rintro ⟨binder, binding, file, hi, hb, hf, hl, -, -⟩
  obtain rfl := Option.some.inj hi
  obtain rfl := Option.some.inj hb
  obtain rfl := Option.some.inj hf
  exact absurd hl (by decide)

end PersonaMessage.DaemonBinding
