import PersonaMessage.DaemonBinding
import PersonaMessage.Transitions

/-! The startup of the daemon step by step, with clients that connect in between: each socket
is listening before its mode is set, and who connects then waits for the accept loop. -/
namespace PersonaMessage.StartupWindow
open ByteStream SocketFiles Transitions DaemonBinding

/-- The daemon's configuration, and the process that runs it. -/
structure Deployment where
  daemon : MessageDaemon
  owner : Credentials
  umask : FileMode

/-- What `run` binds, in order: the endpoints, then the supervision socket. -/
def Deployment.sockets (d : Deployment) : List (Path × FileMode) :=
  d.daemon.binders.map (fun binder => (binder.path, binder.mode.asOctal)) ++
    [(d.daemon.supervisionSocketPath, d.daemon.supervisionSocketMode.asOctal)]

inductive Stage
  | createDirAll
  | removeFile
  | bind
  | setPermissions
  deriving DecidableEq

inductive Phase
  | binding (index : ℕ) (stage : Stage)
  | scanning (index : ℕ)
  | exited
  deriving DecidableEq

/-- The listener of a file is an index of `sockets`, or belongs to another process. -/
structure State where
  files : Files Path (Option ℕ)
  backlog : ℕ → List Credentials
  phase : Phase

inductive Input
  | main (fault : Bool)
  | connect (path : Path) (client : Credentials)

inductive Event
  | connected (index : ℕ) (client : Credentials)
  | accepted (index : ℕ) (client : Credentials)
  deriving DecidableEq

variable (d : Deployment)

/-- The next call of the main thread, which may fail. The result of `remove_file` is ignored,
and `bind` fails where a file is left. An exit closes the listeners. -/
def stepMain (s : State) (fault : Bool) : Option (State × List Event) :=
  match s.phase with
  | .binding i stage =>
    match d.sockets[i]? with
    | none => some ({ s with phase := if fault then .exited else .scanning 0 }, [])
    | some (path, mode) =>
      match stage with
      | .createDirAll =>
        some ({ s with phase := if fault then .exited else .binding i .removeFile }, [])
      | .removeFile =>
        some ({ s with
          files := if fault then s.files else s.files.unlink path
          phase := .binding i .bind }, [])
      | .bind =>
        if fault || (s.files path).isSome then some ({ s with phase := .exited }, [])
        else some ({ s with
          files := s.files.listen path (some i) (createdMode d.umask)
          phase := .binding i .setPermissions }, [])
      | .setPermissions =>
        if fault then some ({ s with phase := .exited }, [])
        else some ({ s with
          files := s.files.chmod path mode
          phase := .binding (i+1) .createDirAll }, [])
  | .scanning i =>
    if fault then some ({ s with phase := .exited }, [])
    else
      match d.daemon.binders[i]? with
      | none => some ({ s with phase := .scanning 0 }, [])
      | some _ =>
        match s.backlog i with
        | [] => some ({ s with phase := .scanning (i+1) }, [])
        | client :: waiting =>
          some ({ s with
            backlog := Function.update s.backlog i waiting
            phase := .scanning 0 }, [.accepted i client])
  | .exited => none

/-- A connection is made if a listener of the daemon is bound at the path and the mode of the
file, as it is now, grants the client write access; it then waits in the backlog. -/
def stepConnect (s : State) (path : Path) (client : Credentials) :
    Option (State × List Event) :=
  match s.phase, s.files path with
  | .exited, _ => none
  | _, none => none
  | _, some ⟨none, _⟩ => none
  | _, some ⟨some i, mode⟩ =>
    if grantsWrite d.owner mode client then
      some ({ s with backlog := Function.update s.backlog i (s.backlog i ++ [client]) },
        [.connected i client])
    else none

def step (s : State) : Input → Option (State × List Event)
  | .main fault => stepMain d s fault
  | .connect path client => stepConnect d s path client

def machine : Machine State Input Event := ⟨step d⟩

def initial (files : Files Path (Option ℕ)) : State :=
  ⟨files, fun _ => [], .binding 0 .createDirAll⟩

/-- The configured mode of the endpoint permits the client to connect. -/
def Permitted (i : ℕ) (client : Credentials) : Prop :=
  ∀ binder, d.daemon.binders[i]? = some binder →
    grantsWrite d.owner binder.mode.asOctal client

/-- A connect while endpoint `i` listens under the mode it was created with is made by a
client its configured mode permits. -/
def WindowKept (s : State) : Input → Prop
  | .main _ => True
  | .connect _ client =>
    ∀ i, s.phase = .binding i .setPermissions →
      grantsWrite d.owner (createdMode d.umask) client → Permitted d i client

/-- The file at a path belongs to the socket whose mode is about to be set. -/
def InWindow (s : State) (path : Path) (file : SocketFile (Option ℕ)) : Prop :=
  ∃ i mode, s.phase = .binding i .setPermissions ∧ d.sockets[i]? = some (path, mode) ∧
    file = ⟨some i, createdMode d.umask⟩

structure Inv (log : List Event) (s : State) : Prop where
  configured : s.phase ≠ .exited → ∀ path i mode, s.files path = some ⟨some i, mode⟩ →
    (∃ own, d.sockets[i]? = some (own, mode)) ∨ InWindow d s path ⟨some i, mode⟩
  created : ∀ i path mode, s.phase = .binding i .setPermissions →
    d.sockets[i]? = some (path, mode) → s.files path = some ⟨some i, createdMode d.umask⟩
  waiting : ∀ i, ∀ client ∈ s.backlog i, Permitted d i client
  accepted : ∀ i client, .accepted i client ∈ log → Permitted d i client

variable {d} {log : List Event} {s : State}

theorem sockets_binder {i : ℕ} {binder : MessageSocketBinder}
    (h : d.daemon.binders[i]? = some binder) :
    d.sockets[i]? = some (binder.path, binder.mode.asOctal) := by
  have hlt := (List.getElem?_eq_some_iff.mp h).1
  rw [Deployment.sockets, List.getElem?_append_left (by simpa using hlt), List.getElem?_map, h]
  rfl

/-- Outside a window the main thread may move on without changing any file. -/
theorem Inv.move (h : Inv d log s) (phase : Phase)
    (hnew : ∀ i, phase ≠ .binding i .setPermissions)
    (hold : ∀ path file, ¬ InWindow d s path file) (hrun : s.phase ≠ .exited) :
    Inv d log { s with phase } where
  configured _ path i mode hf := by
    rcases h.configured hrun path i mode hf with hc | hw
    · exact Or.inl hc
    · exact absurd hw (hold _ _)
  created i path mode hp _ := absurd hp (hnew i)
  waiting := h.waiting
  accepted := h.accepted

theorem Inv.exit (h : Inv d log s) : Inv d log { s with phase := .exited } where
  configured hp := absurd rfl hp
  created i path mode hp _ := by cases hp
  waiting := h.waiting
  accepted := h.accepted

theorem Inv.unlink (h : Inv d log s) {i : ℕ} (path : Path)
    (hs : s.phase = .binding i .removeFile) :
    Inv d log { s with files := s.files.unlink path, phase := .binding i .bind } where
  configured _ path' j mode hf := by
    have hne : path' ≠ path := by
      rintro rfl
      simp at hf
    rcases h.configured (by simp [hs]) path' j mode
      ((Files.unlink_of_ne hne).symm.trans hf) with hc | ⟨k, m, hw, _⟩
    · exact Or.inl hc
    · rw [hs] at hw
      cases hw
  created j path' mode hp _ := by cases hp
  waiting := h.waiting
  accepted := h.accepted

theorem Inv.bind (h : Inv d log s) {i : ℕ} {path : Path} {mode : FileMode}
    (hs : s.phase = .binding i .bind) (hi : d.sockets[i]? = some (path, mode)) :
    Inv d log { s with
      files := s.files.listen path (some i) (createdMode d.umask)
      phase := .binding i .setPermissions } where
  configured _ path' j mode' hf := by
    by_cases hp : path' = path
    · subst hp
      have hfile := (Files.listen_self ..).symm.trans hf
      exact Or.inr ⟨i, mode, rfl, hi, (Option.some.inj hfile).symm⟩
    · rcases h.configured (by simp [hs]) path' j mode'
        ((Files.listen_of_ne hp ..).symm.trans hf) with hc | ⟨k, m, hw, _⟩
      · exact Or.inl hc
      · rw [hs] at hw
        cases hw
  created j path' mode' hp hj := by
    cases hp
    obtain ⟨rfl, rfl⟩ := Prod.mk.inj (Option.some.inj (hi.symm.trans hj))
    exact Files.listen_self ..
  waiting := h.waiting
  accepted := h.accepted

/-- Setting the mode closes the window: the file at the path is the one just bound. -/
theorem Inv.chmod (h : Inv d log s) {i : ℕ} {path : Path} {mode : FileMode}
    (hs : s.phase = .binding i .setPermissions) (hi : d.sockets[i]? = some (path, mode)) :
    Inv d log { s with
      files := s.files.chmod path mode
      phase := .binding (i+1) .createDirAll } where
  configured _ path' j mode' hf := by
    by_cases hp : path' = path
    · subst hp
      simp only [Files.chmod, Function.update_self, h.created i _ mode hs hi, Option.map_some,
        Option.some.injEq, SocketFile.mk.injEq] at hf
      obtain ⟨rfl, rfl⟩ := hf
      exact Or.inl ⟨_, hi⟩
    · rcases h.configured (by simp [hs]) path' j mode'
        ((Function.update_of_ne hp ..).symm.trans hf) with hc | ⟨k, m, hw, hk, _⟩
      · exact Or.inl hc
      · rw [hs] at hw
        cases hw
        exact absurd (Prod.mk.inj (Option.some.inj (hk.symm.trans hi))).1 hp
  created j path' mode' hp _ := by cases hp
  waiting := h.waiting
  accepted := h.accepted

theorem Inv.accept (h : Inv d log s) {i j : ℕ} {client : Credentials}
    {waiting : List Credentials} (hs : s.phase = .scanning j)
    (hb : s.backlog i = client :: waiting) :
    Inv d (log ++ [.accepted i client]) { s with
      backlog := Function.update s.backlog i waiting
      phase := .scanning 0 } where
  configured _ path k mode hf := by
    rcases h.configured (by simp [hs]) path k mode hf with hc | ⟨_, m, hw, _⟩
    · exact Or.inl hc
    · rw [hs] at hw
      cases hw
  created k path mode hp _ := by cases hp
  waiting k other hm := by
    by_cases hk : k = i
    · subst hk
      simp only [Function.update_self] at hm
      exact h.waiting k other (hb ▸ List.mem_cons_of_mem _ hm)
    · simp only [Function.update_of_ne hk] at hm
      exact h.waiting k other hm
  accepted k other hm := by
    rcases List.mem_append.mp hm with hm | hm
    · exact h.accepted k other hm
    · obtain ⟨rfl, rfl⟩ := Event.accepted.inj (List.mem_singleton.mp hm)
      exact h.waiting k other (hb ▸ List.mem_cons_self)

theorem inv_stepBinding (h : Inv d log s) {i : ℕ} {stage : Stage}
    (hs : s.phase = .binding i stage) {fault : Bool} {t : State} {out : List Event}
    (hm : stepMain d s fault = some (t, out)) : Inv d (log ++ out) t := by
  simp only [stepMain, hs] at hm
  split at hm
  · next hi =>
    obtain ⟨rfl, rfl⟩ := Prod.mk.inj (Option.some.inj hm)
    rw [List.append_nil]
    cases fault with
    | true => exact h.exit
    | false =>
      refine h.move _ (by simp) ?_ (by simp [hs])
      rintro path file ⟨j, mode, hp, hj, -⟩
      obtain ⟨rfl, -⟩ := Phase.binding.inj (hs.symm.trans hp)
      simp [hi] at hj
  · next path mode hi =>
    cases stage with
    | createDirAll =>
      obtain ⟨rfl, rfl⟩ := Prod.mk.inj (Option.some.inj hm)
      rw [List.append_nil]
      cases fault with
      | true => exact h.exit
      | false =>
        refine h.move _ (by simp) ?_ (by simp [hs])
        rintro path file ⟨j, mode, hp, -⟩
        simp [hs] at hp
    | removeFile =>
      obtain ⟨rfl, rfl⟩ := Prod.mk.inj (Option.some.inj hm)
      rw [List.append_nil]
      cases fault with
      | true =>
        refine h.move _ (by simp) ?_ (by simp [hs])
        rintro path file ⟨j, mode, hp, -⟩
        simp [hs] at hp
      | false => exact h.unlink path hs
    | bind =>
      simp only at hm
      split at hm
      · obtain ⟨rfl, rfl⟩ := Prod.mk.inj (Option.some.inj hm)
        rw [List.append_nil]
        exact h.exit
      · obtain ⟨rfl, rfl⟩ := Prod.mk.inj (Option.some.inj hm)
        rw [List.append_nil]
        exact h.bind hs hi
    | setPermissions =>
      simp only at hm
      split at hm
      · obtain ⟨rfl, rfl⟩ := Prod.mk.inj (Option.some.inj hm)
        rw [List.append_nil]
        exact h.exit
      · obtain ⟨rfl, rfl⟩ := Prod.mk.inj (Option.some.inj hm)
        rw [List.append_nil]
        exact h.chmod hs hi

theorem inv_stepScanning (h : Inv d log s) {i : ℕ} (hs : s.phase = .scanning i) {fault : Bool}
    {t : State} {out : List Event} (hm : stepMain d s fault = some (t, out)) :
    Inv d (log ++ out) t := by
  have hno : ∀ path file, ¬ InWindow d s path file := by
    rintro path file ⟨j, mode, hp, -⟩
    simp [hs] at hp
  simp only [stepMain, hs] at hm
  split at hm
  · obtain ⟨rfl, rfl⟩ := Prod.mk.inj (Option.some.inj hm)
    rw [List.append_nil]
    exact h.exit
  · split at hm
    · obtain ⟨rfl, rfl⟩ := Prod.mk.inj (Option.some.inj hm)
      rw [List.append_nil]
      exact h.move _ (by simp) hno (by simp [hs])
    · split at hm
      · obtain ⟨rfl, rfl⟩ := Prod.mk.inj (Option.some.inj hm)
        rw [List.append_nil]
        exact h.move _ (by simp) hno (by simp [hs])
      · next hb =>
        obtain ⟨rfl, rfl⟩ := Prod.mk.inj (Option.some.inj hm)
        exact h.accept hs hb

/-- The ways a connect goes through. -/
theorem stepConnect_some {path : Path} {client : Credentials} {t : State} {out : List Event}
    (hc : stepConnect d s path client = some (t, out)) :
    ∃ i mode, s.phase ≠ .exited ∧ s.files path = some ⟨some i, mode⟩ ∧
      grantsWrite d.owner mode client ∧ out = [.connected i client] ∧
      t = { s with backlog := Function.update s.backlog i (s.backlog i ++ [client]) } := by
  unfold stepConnect at hc
  split at hc
  · cases hc
  · cases hc
  · cases hc
  · next i mode hf hp =>
    split at hc
    · next hg =>
      obtain ⟨rfl, rfl⟩ := Prod.mk.inj (Option.some.inj hc)
      exact ⟨i, mode, hp, hf, hg, rfl, rfl⟩
    · cases hc

theorem inv_stepConnect (h : Inv d log s) {path : Path} {client : Credentials}
    (hw : WindowKept d s (.connect path client)) {t : State} {out : List Event}
    (hc : stepConnect d s path client = some (t, out)) : Inv d (log ++ out) t := by
  obtain ⟨i, mode, hp, hf, hg, rfl, rfl⟩ := stepConnect_some hc
  have hpermitted : Permitted d i client := by
    rcases h.configured hp path i mode hf with ⟨own, hi⟩ | ⟨j, m, hs, hj, hfile⟩
    · intro binder hi'
      obtain ⟨-, rfl⟩ := Prod.mk.inj (Option.some.inj (hi.symm.trans (sockets_binder hi')))
      exact hg
    · obtain ⟨hij, rfl⟩ := SocketFile.mk.inj hfile
      obtain rfl := Option.some.inj hij
      exact hw _ hs hg
  refine ⟨h.configured, h.created, ?_, ?_⟩
  · intro k other hm
    by_cases hk : k = i
    · subst hk
      simp only [Function.update_self, List.mem_append, List.mem_singleton] at hm
      rcases hm with hm | rfl
      · exact h.waiting k other hm
      · exact hpermitted
    · simp only [Function.update_of_ne hk] at hm
      exact h.waiting k other hm
  · intro k other hm
    exact h.accepted k other (by simpa using hm)

theorem inv_step (h : Inv d log s) {input : Input} (hw : WindowKept d s input) {t : State}
    {out : List Event} (hs : (machine d).step s input = some (t, out)) :
    Inv d (log ++ out) t := by
  cases input with
  | connect path client => exact inv_stepConnect h hw hs
  | main fault =>
    cases hp : s.phase with
    | binding i stage => exact inv_stepBinding h hp hs
    | scanning i => exact inv_stepScanning h hp hs
    | exited => simp [machine, step, stepMain, hp] at hs

/-- Whatever other processes have left at the paths. -/
theorem inv_initial {files : Files Path (Option ℕ)}
    (h : ∀ path file, files path = some file → file.listener = none) :
    Inv d [] (initial files) where
  configured _ path i mode hf := by simpa using h path _ hf
  created i path mode hp _ := by cases hp
  waiting i client hm := by simp [initial] at hm
  accepted i client hm := by simp at hm

/-- A run in whose windows only permitted clients connect accepts only permitted clients. -/
theorem accepted_permitted {files : Files Path (Option ℕ)} {inputs : List Input}
    (h0 : ∀ path file, files path = some file → file.listener = none)
    (hw : (machine d).Along (WindowKept d) (initial files) inputs)
    (h : (machine d).run (initial files) inputs = some (s, log)) {i : ℕ} {client : Credentials}
    (ha : .accepted i client ∈ log) : Permitted d i client := by
  have hinv := @Machine.run_invariant_along _ _ _ (machine d) (WindowKept d)
    (fun log s => Inv d log s) (fun hi hw hs => inv_step hi hw hs) _ _ _ [] _ (inv_initial h0) hw h
  exact hinv.accepted i client (by simpa using ha)

/-! The other direction: any client the umask lets in can be served. -/

theorem bind_socket {files : Files Path (Option ℕ)} {backlog : ℕ → List Credentials} {i : ℕ}
    {path : Path} {mode : FileMode} (hi : d.sockets[i]? = some (path, mode)) :
    (machine d).run ⟨files, backlog, .binding i .createDirAll⟩
        [.main false, .main false, .main false] =
      some (⟨(files.unlink path).listen path (some i) (createdMode d.umask), backlog,
        .binding i .setPermissions⟩, []) := by
  simp [Machine.run, machine, step, stepMain, hi]

theorem set_permissions {files : Files Path (Option ℕ)} {backlog : ℕ → List Credentials} {i : ℕ}
    {path : Path} {mode : FileMode} (hi : d.sockets[i]? = some (path, mode)) :
    (machine d).run ⟨files, backlog, .binding i .setPermissions⟩ [.main false] =
      some (⟨files.chmod path mode, backlog, .binding (i+1) .createDirAll⟩, []) := by
  simp [Machine.run, machine, step, stepMain, hi]

theorem bind_next {files : Files Path (Option ℕ)} {backlog : ℕ → List Credentials} {i : ℕ}
    {path : Path} {mode : FileMode} (hi : d.sockets[i]? = some (path, mode)) :
    (machine d).run ⟨files, backlog, .binding i .createDirAll⟩
        [.main false, .main false, .main false, .main false] =
      some (⟨files.listen path (some i) mode, backlog, .binding (i+1) .createDirAll⟩, []) := by
  rw [← Files.chmod_listen files path (some i) (createdMode d.umask) mode]
  exact Machine.run_append (bind_socket hi) (set_permissions hi)

theorem bind_rest (d : Deployment) (files : Files Path (Option ℕ))
    (backlog : ℕ → List Credentials) {i j : ℕ} (hij : i ≤ j)
    (hj : j ≤ d.sockets.length) :
    ∃ inputs files', (machine d).run ⟨files, backlog, .binding i .createDirAll⟩ inputs =
      some (⟨files', backlog, .binding j .createDirAll⟩, []) := by
  induction j, hij using Nat.le_induction with
  | base => exact ⟨[], files, rfl⟩
  | succ j hij ih =>
    obtain ⟨inputs, files', h⟩ := ih (by omega)
    have hsocket := List.getElem?_eq_getElem (l := d.sockets) (i := j) (by omega)
    exact ⟨_, _, Machine.run_append h (bind_next hsocket)⟩

theorem scan_to (files : Files Path (Option ℕ)) {backlog : ℕ → List Credentials} {j : ℕ}
    (hj : j ≤ d.daemon.binders.length) (hempty : ∀ k < j, backlog k = []) :
    ∃ inputs, (machine d).run ⟨files, backlog, .scanning 0⟩ inputs =
      some (⟨files, backlog, .scanning j⟩, []) := by
  induction j with
  | zero => exact ⟨[], rfl⟩
  | succ j ih =>
    obtain ⟨inputs, h⟩ := ih (by omega) (fun k hk => hempty k (by omega))
    have hbinder := List.getElem?_eq_getElem (l := d.daemon.binders) (i := j) (by omega)
    have hlast : (machine d).run ⟨files, backlog, .scanning j⟩ [.main false] =
        some (⟨files, backlog, .scanning (j+1)⟩, []) := by
      simp [Machine.run, machine, step, stepMain, hbinder, hempty j (by omega)]
    exact ⟨_, Machine.run_append h hlast⟩

/-- A client that the created mode lets in can connect before the mode is set, wait through
the rest of the startup and be accepted. -/
theorem window_run {i : ℕ} {binder : MessageSocketBinder}
    (hi : d.daemon.binders[i]? = some binder) {client : Credentials}
    (hg : grantsWrite d.owner (createdMode d.umask) client) :
    ∃ inputs s, (machine d).run (initial fun _ => none) inputs =
      some (s, [.connected i client, .accepted i client]) := by
  have hlt : i < d.daemon.binders.length := (List.getElem?_eq_some_iff.mp hi).1
  have hlen : d.sockets.length = d.daemon.binders.length+1 := by simp [Deployment.sockets]
  have hsocket := sockets_binder hi
  obtain ⟨before, files, hbefore⟩ := bind_rest d (fun _ => none) (fun _ => [])
    (Nat.zero_le i) (by omega)
  have hwindow := Machine.run_append hbefore (bind_socket hsocket)
  have hconnect : (machine d).run ⟨(files.unlink binder.path).listen binder.path (some i)
        (createdMode d.umask), fun _ => [], .binding i .setPermissions⟩
      [.connect binder.path client] =
      some (⟨(files.unlink binder.path).listen binder.path (some i) (createdMode d.umask),
        waitingAt i client, .binding i .setPermissions⟩, [.connected i client]) := by
    simp [Machine.run, machine, step, stepConnect, hg, waitingAt]
  have hset := Machine.run_append (Machine.run_append hwindow hconnect) (set_permissions hsocket)
  obtain ⟨rest, files', hrest⟩ := bind_rest d
    (((files.unlink binder.path).listen binder.path (some i) (createdMode d.umask)).chmod
      binder.path binder.mode.asOctal) (waitingAt i client)
      (show i+1 ≤ d.sockets.length by omega) le_rfl
  have hloop : (machine d).run ⟨files', waitingAt i client,
      .binding d.sockets.length .createDirAll⟩ [.main false] =
      some (⟨files', waitingAt i client, .scanning 0⟩, []) := by
    simp [Machine.run, machine, step, stepMain]
  have hempty : ∀ k < i, waitingAt i client k = [] :=
    fun k hk => Function.update_of_ne (by omega) ..
  obtain ⟨scan, hscan⟩ := scan_to files' hlt.le hempty
  have haccept : (machine d).run ⟨files', waitingAt i client, .scanning i⟩ [.main false] =
      some (⟨files', Function.update (waitingAt i client) i [], .scanning 0⟩,
        [.accepted i client]) := by
    simp [Machine.run, machine, step, stepMain, hi, waitingAt]
  have hend := Machine.run_append (Machine.run_append (Machine.run_append
    (Machine.run_append hset hrest) hloop) hscan) haccept
  exact ⟨_, _, by simpa [initial] using hend⟩

/-- The files that the sockets from `i` on leave behind. -/
def bindAll : ℕ → List (Path × FileMode) → Files Path (Option ℕ) → Files Path (Option ℕ)
  | _, [], files => files
  | i, (path, mode) :: sockets, files => bindAll (i+1) sockets (files.listen path (some i) mode)

theorem bindAll_append (i : ℕ) (before after : List (Path × FileMode))
    (files : Files Path (Option ℕ)) :
    bindAll i (before ++ after) files =
      bindAll (i+before.length) after (bindAll i before files) := by
  induction before generalizing i files with
  | nil => rfl
  | cons socket before ih =>
    have hlen : i+1+before.length = i+(before.length+1) := by omega
    rw [List.cons_append, bindAll, bindAll, ih, List.length_cons, hlen]

theorem bind_all {sockets : List (Path × FileMode)} {i : ℕ} (h : d.sockets.drop i = sockets)
    (files : Files Path (Option ℕ)) (backlog : ℕ → List Credentials) :
    ∃ inputs, (machine d).run ⟨files, backlog, .binding i .createDirAll⟩ inputs =
      some (⟨bindAll i sockets files, backlog, .binding (i+sockets.length) .createDirAll⟩, []) := by
  induction sockets generalizing i files with
  | nil => exact ⟨[], rfl⟩
  | cons socket sockets ih =>
    have hi : d.sockets[i]? = some socket := by
      rw [← List.head?_drop, h, List.head?_cons]
    have hrest : d.sockets.drop (i+1) = sockets := by
      rw [← List.tail_drop, h, List.tail_cons]
    obtain ⟨inputs, hrun⟩ := ih hrest (files.listen socket.1 (some i) socket.2)
    have hlen : i+1+sockets.length = i+(sockets.length+1) := by omega
    rw [hlen] at hrun
    exact ⟨_, Machine.run_append (bind_next hi) hrun⟩

/-- The files of one daemon, as other processes tell its listeners from theirs. -/
def owned (files : Files Path ℕ) : Files Path (Option ℕ) :=
  fun path => (files path).map fun file => ⟨some file.listener, file.mode⟩

theorem owned_listen (files : Files Path ℕ) (path : Path) (listener : ℕ) (mode : FileMode) :
    (owned files).listen path (some listener) mode = owned (files.listen path listener mode) := by
  funext other
  by_cases h : other = path
  · subst h
    simp [owned]
  · simp [owned, Files.listen_of_ne h]

theorem bindAll_owned (i : ℕ) (binders : List MessageSocketBinder) (files : Files Path ℕ) :
    bindAll i (binders.map fun binder => (binder.path, binder.mode.asOctal)) (owned files) =
      owned (filesFrom i binders files) := by
  induction binders generalizing i files with
  | nil => rfl
  | cons binder binders ih => rw [List.map_cons, bindAll, owned_listen, ih, filesFrom]

/-- Without clients and failures the steps of the startup leave the files that
`MessageDaemon.start` leaves. -/
theorem startup_refines {faults : ℕ → Option BindFault} {nonblocking : Option IoError}
    {spawning : Option BindFault} {host host' : Host} {started : Started}
    (hhost : host.nextListener = 0)
    (h : d.daemon.start faults nonblocking spawning host = (host', .ok started)) :
    ∃ inputs, (machine d).run (initial (owned host.files)) inputs =
      some (⟨owned host'.files, fun _ => [], .scanning 0⟩, []) := by
  obtain ⟨_, hfiles⟩ := start_ok h
  obtain ⟨inputs, hrun⟩ := bind_all (List.drop_zero (l := d.sockets)) (owned host.files) fun _ => []
  have hbound : bindAll 0 d.sockets (owned host.files) = owned host'.files := by
    rw [Deployment.sockets, bindAll_append, bindAll_owned, hfiles, hhost]
    simp only [bindAll, List.length_map, owned_listen]
  have hloop : (machine d).run ⟨owned host'.files, fun _ => [],
      .binding (0+d.sockets.length) .createDirAll⟩ [.main false] =
      some (⟨owned host'.files, fun _ => [], .scanning 0⟩, []) := by
    simp [Machine.run, machine, step, stepMain]
  rw [hbound] at hrun
  exact ⟨_, Machine.run_append hrun hloop⟩

/-- Every connection that is ever accepted was made by a client whom the configured mode of
its endpoint permits. -/
def Guarded (d : Deployment) (files : Files Path (Option ℕ)) : Prop :=
  ∀ inputs s log, (machine d).run (initial files) inputs = some (s, log) →
    ∀ i client, .accepted i client ∈ log → Permitted d i client

/-- The configured modes guard every accepted connection, in every interleaving, if and only
if the mode that the umask leaves lets nobody in whom they keep out. -/
theorem guarded_iff (d : Deployment) :
    (∀ files : Files Path (Option ℕ), (∀ path file, files path = some file →
        file.listener = none) → Guarded d files) ↔
      ∀ binder ∈ d.daemon.binders, ∀ client,
        grantsWrite d.owner (createdMode d.umask) client →
          grantsWrite d.owner binder.mode.asOctal client := by
  constructor
  · intro h binder hm client hg
    obtain ⟨i, hi⟩ := List.mem_iff_getElem?.mp hm
    obtain ⟨inputs, s, hrun⟩ := window_run hi hg
    exact h _ (by simp) inputs s _ hrun i client (by simp) binder hi
  · intro h files h0 inputs s log hrun i client ha
    refine accepted_permitted h0 (Machine.along_of ?_ _ _) hrun ha
    intro s input
    cases input with
    | main fault => exact trivial
    | connect path other =>
      intro j _ hg binder hj
      exact h binder (List.mem_of_getElem? hj) other hg

/-- A group of its own for each user is a common default, and its umask lets the group write. -/
def groupDeployment : Deployment :=
  { daemon := .fromConfiguration (twoSockets "/run/message.sock" "/run/ingress.sock")
    owner := ⟨1000, 1000, []⟩
    umask := 0o002 }

def groupMember : Credentials := ⟨1001, 1001, [1000]⟩

/-- The message socket is configured with mode 0600, and still a member of the daemon's group
who connects before the mode is set is served. -/
theorem group_member_accepted :
    ∃ s log, (machine groupDeployment).run (initial fun _ => none)
        ([.main false, .main false, .main false, .connect "/run/message.sock" groupMember] ++
          List.replicate 11 (.main false)) = some (s, log) ∧
      .accepted 0 groupMember ∈ log ∧ ¬ Permitted groupDeployment 0 groupMember := by
  refine ⟨_, [.connected 0 groupMember, .accepted 0 groupMember], rfl, by simp, ?_⟩
  intro h
  exact absurd (h _ rfl) (by decide)

end PersonaMessage.StartupWindow
