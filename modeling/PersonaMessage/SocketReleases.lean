import PersonaMessage.DaemonBinding
import PersonaMessage.Transitions

/-! Binds and drops of several daemons over one host. Both remove a file by its path, so
what a path resolves to depends on the order in which the daemons act. -/
namespace PersonaMessage.SocketReleases
open SocketFiles Transitions DaemonBinding DaemonStamping

/-- The bindings that have been made by any daemon and not been dropped. -/
structure World where
  host : Host
  live : List MessageSocketBinding

inductive Operation
  | bind (binder : MessageSocketBinder) (fault : Option BindFault)
  | drop (binding : MessageSocketBinding)
  deriving DecidableEq

inductive Outcome
  | bound (binding : MessageSocketBinding)
  | failed (path : Path) (fault : BindFault)
  | dropped (binding : MessageSocketBinding)
  deriving DecidableEq

/-- A binding is dropped by its owner, and once. -/
def operate (w : World) : Operation → Option (World × List Outcome)
  | .bind binder fault =>
    match binder.bind w.host fault, fault with
    | (host, .ok binding), _ => some (⟨host, binding :: w.live⟩, [.bound binding])
    | (host, .error _), some fault => some (⟨host, w.live⟩, [.failed binder.path fault])
    | (_, .error _), none => none
  | .drop binding =>
    if binding ∈ w.live then
      some (⟨binding.drop w.host, w.live.erase binding⟩, [.dropped binding])
    else none

def machine : Machine World Operation Outcome := ⟨operate⟩

def initial (host : Host) : World := ⟨host, []⟩

/-- Removing the file at a path, whoever bound it. -/
def Outcome.releases : Outcome → Path → Prop
  | .bound _, _ => False
  | .failed path fault, p => path = p ∧ fault.afterUnlink
  | .dropped binding, p => binding.path = p

/-- The ways an operation can go. -/
inductive Operated (w : World) : World → Outcome → Prop
  | bound (binder : MessageSocketBinder) :
      Operated w
        ⟨{ w.host with
            files := w.host.files.listen binder.path w.host.nextListener binder.mode.asOctal
            nextListener := w.host.nextListener+1 },
          ⟨binder.path, w.host.nextListener, binder.authority⟩ :: w.live⟩
        (.bound ⟨binder.path, w.host.nextListener, binder.authority⟩)
  | refused (path : Path) (fault : BindFault) (h : fault.afterUnlink = false) :
      Operated w w (.failed path fault)
  | unlinked (path : Path) (fault : BindFault) (h : fault.afterUnlink = true) :
      Operated w ⟨{ w.host with files := w.host.files.unlink path }, w.live⟩ (.failed path fault)
  | abandoned (path : Path) (fault : BindFault) (mode : FileMode)
      (h : fault.afterUnlink = true) :
      Operated w
        ⟨{ w.host with
            files := (w.host.files.unlink path).listen path w.host.nextListener mode
            nextListener := w.host.nextListener+1 }, w.live⟩ (.failed path fault)
  | dropped (binding : MessageSocketBinding) (h : binding ∈ w.live) :
      Operated w
        ⟨{ w.host with files := w.host.files.unlink binding.path }, w.live.erase binding⟩
        (.dropped binding)

theorem operate_cases {w w' : World} {operation : Operation} {out : List Outcome}
    (h : machine.step w operation = some (w', out)) :
    ∃ outcome, out = [outcome] ∧ Operated w w' outcome := by
  cases operation with
  | drop binding =>
    simp only [machine, operate] at h
    split at h
    · next hm =>
      obtain ⟨rfl, rfl⟩ := Prod.mk.inj (Option.some.inj h)
      exact ⟨_, rfl, .dropped binding hm⟩
    · cases h
  | bind binder fault =>
    cases fault with
    | none =>
      obtain ⟨rfl, rfl⟩ := Prod.mk.inj (Option.some.inj h)
      refine ⟨_, rfl, ?_⟩
      have hb := Operated.bound (w := w) binder
      rwa [← Files.chmod_listen w.host.files binder.path w.host.nextListener
        (createdMode w.host.umask)] at hb
    | some fault =>
      cases fault with
      | createDirAll error =>
        obtain ⟨rfl, rfl⟩ := Prod.mk.inj (Option.some.inj h)
        exact ⟨_, rfl, .refused binder.path _ rfl⟩
      | removeFile error =>
        obtain ⟨rfl, rfl⟩ := Prod.mk.inj (Option.some.inj h)
        exact ⟨_, rfl, .refused binder.path _ rfl⟩
      | bind error =>
        obtain ⟨rfl, rfl⟩ := Prod.mk.inj (Option.some.inj h)
        exact ⟨_, rfl, .unlinked binder.path _ rfl⟩
      | setPermissions error =>
        obtain ⟨rfl, rfl⟩ := Prod.mk.inj (Option.some.inj h)
        exact ⟨_, rfl, .abandoned binder.path _ _ rfl⟩

theorem operate_one {w w' : World} {operation : Operation} {out : List Outcome}
    (h : machine.step w operation = some (w', out)) : out.length = 1 := by
  obtain ⟨outcome, rfl, _⟩ := operate_cases h
  rfl

/-- The listener of a path that was bound before now. -/
def ResolvesTo (w : World) (path : Path) (listener : ℕ) : Prop :=
  ∃ file, w.host.files path = some file ∧ file.listener = listener

section Step
variable {w w' : World} {outcome : Outcome} {path : Path} {listener : ℕ}

theorem Operated.nextListener_le (h : Operated w w' outcome) :
    w.host.nextListener ≤ w'.host.nextListener := by
  cases h with
  | bound binder => exact Nat.le_succ _
  | refused path fault h => exact le_rfl
  | unlinked path fault h => exact le_rfl
  | abandoned path fault mode h => exact Nat.le_succ _
  | dropped binding h => exact le_rfl

theorem Operated.keeps (h : Operated w w' outcome)
    (hb : ∀ later, outcome = .bound later → later.path ≠ path)
    (hr : ¬ outcome.releases path) : w'.host.files path = w.host.files path := by
  cases h with
  | bound binder => exact Files.listen_of_ne (hb _ rfl).symm ..
  | refused path' fault h => rfl
  | unlinked path' fault h =>
    have hne : path ≠ path' := fun he => hr ⟨he.symm, h⟩
    exact Files.unlink_of_ne hne
  | abandoned path' fault mode h =>
    have hne : path ≠ path' := fun he => hr ⟨he.symm, h⟩
    exact (Files.listen_of_ne hne ..).trans (Files.unlink_of_ne hne)
  | dropped binding h => exact Files.unlink_of_ne (Ne.symm hr)

/-- After a release the path is free, or held by a listener newer than any before. -/
theorem Operated.releases_path (h : Operated w w' outcome) (hr : outcome.releases path)
    (hl : listener < w.host.nextListener) : ¬ ResolvesTo w' path listener := by
  rintro ⟨file, hf, rfl⟩
  cases h with
  | bound binder => exact hr
  | refused path' fault h => simp [Outcome.releases, h] at hr
  | unlinked path' fault h =>
    obtain ⟨rfl, _⟩ := hr
    simp at hf
  | abandoned path' fault mode h =>
    obtain ⟨rfl, _⟩ := hr
    obtain rfl := Option.some.inj ((Files.listen_self ..).symm.trans hf)
    exact lt_irrefl _ hl
  | dropped binding h =>
    obtain rfl : binding.path = path := hr
    simp at hf

/-- No operation brings an older listener back to a path. -/
theorem Operated.not_back (h : Operated w w' outcome) (hl : listener < w.host.nextListener)
    (hn : ¬ ResolvesTo w path listener) : ¬ ResolvesTo w' path listener := by
  by_cases hr : outcome.releases path
  · exact h.releases_path hr hl
  · by_cases hb : ∀ later, outcome = .bound later → later.path ≠ path
    · rwa [ResolvesTo, h.keeps hb hr]
    · obtain ⟨later, rfl, rfl⟩ : ∃ later, outcome = .bound later ∧ later.path = path := by
        by_contra hne
        exact hb fun later he hp => hne ⟨later, he, hp⟩
      cases h with
      | bound binder =>
        rintro ⟨file, hf, rfl⟩
        obtain rfl := Option.some.inj ((Files.listen_self ..).symm.trans hf)
        exact lt_irrefl _ hl

end Step

section Run
variable {w w' : World} {operations : List Operation} {log : List Outcome} {path : Path}
  {listener : ℕ}

theorem run_keeps (h : machine.run w operations = some (w', log))
    (hb : ∀ later, .bound later ∈ log → later.path ≠ path)
    (hr : ∀ outcome ∈ log, ¬ outcome.releases path) :
    w'.host.files path = w.host.files path := by
  induction operations generalizing w log with
  | nil =>
    obtain ⟨rfl, rfl⟩ := Prod.mk.inj (Option.some.inj h)
    rfl
  | cons operation operations ih =>
    obtain ⟨v, out, rest, hs, hr', rfl⟩ := Machine.run_cons.mp h
    obtain ⟨outcome, rfl, ho⟩ := operate_cases hs
    have hrest := ih hr' (fun later hm => hb later (by simp [hm]))
      (fun o hm => hr o (by simp [hm]))
    have hstep : v.host.files path = w.host.files path :=
      ho.keeps (fun later he => hb later (by simp [he])) (hr outcome (by simp))
    exact hrest.trans hstep

theorem run_not_back (h : machine.run w operations = some (w', log))
    (hl : listener < w.host.nextListener) (hn : ¬ ResolvesTo w path listener) :
    ¬ ResolvesTo w' path listener := by
  induction operations generalizing w log with
  | nil =>
    obtain ⟨rfl, rfl⟩ := Prod.mk.inj (Option.some.inj h)
    exact hn
  | cons operation operations ih =>
    obtain ⟨v, out, rest, hs, hr, rfl⟩ := Machine.run_cons.mp h
    obtain ⟨outcome, rfl, ho⟩ := operate_cases hs
    exact ih hr (lt_of_lt_of_le hl ho.nextListener_le) (ho.not_back hl hn)

theorem run_releases (h : machine.run w operations = some (w', log))
    (hl : listener < w.host.nextListener) {outcome : Outcome} (ho : outcome ∈ log)
    (hr : outcome.releases path) : ¬ ResolvesTo w' path listener := by
  induction operations generalizing w log with
  | nil =>
    obtain ⟨rfl, rfl⟩ := Prod.mk.inj (Option.some.inj h)
    simp at ho
  | cons operation operations ih =>
    obtain ⟨v, out, rest, hs, hr', rfl⟩ := Machine.run_cons.mp h
    obtain ⟨first, rfl, hfirst⟩ := operate_cases hs
    have hv : listener < v.host.nextListener := lt_of_lt_of_le hl hfirst.nextListener_le
    rcases List.mem_append.mp ho with hm | hm
    · obtain rfl := List.mem_singleton.mp hm
      exact run_not_back hr' hv (hfirst.releases_path hr hl)
    · exact ih hr' hv hm

end Run

/-- In a run of any daemons, a path resolves to the listener that was bound there last if and
only if no other binding of the path has been dropped since, and no bind of it has failed
after removing its file. -/
theorem resolves_iff {host : Host} {operations : List Operation} {w : World}
    {log before after : List Outcome} {binding : MessageSocketBinding}
    (h : machine.run (initial host) operations = some (w, log))
    (hlog : log = before ++ .bound binding :: after)
    (hlast : ∀ later, .bound later ∈ after → later.path ≠ binding.path)
    (hheld : .dropped binding ∉ after) :
    ResolvesTo w binding.path binding.listener ↔
      (∀ other, .dropped other ∈ after → other ≠ binding → other.path ≠ binding.path) ∧
      ∀ fault, .failed binding.path fault ∈ after → fault.afterUnlink = false := by
  subst hlog
  obtain ⟨_, operation, _, u, v, -, -, hs, hafter⟩ := Machine.run_divide operate_one h
  obtain ⟨outcome, ho, hop⟩ := operate_cases hs
  obtain rfl := (List.singleton_inj.mp ho).symm
  have hown : ResolvesTo v binding.path binding.listener ∧
      binding.listener < v.host.nextListener := by
    cases hop with
    | bound binder => exact ⟨⟨_, Files.listen_self .., rfl⟩, Nat.lt_succ_self _⟩
  obtain ⟨hown, hlt⟩ := hown
  constructor
  · intro hres
    refine ⟨fun other hm _ hp => ?_, fun fault hm => ?_⟩
    · exact run_releases hafter hlt hm hp hres
    · by_contra hf
      exact run_releases hafter hlt hm ⟨rfl, by simpa using hf⟩ hres
  · rintro ⟨hdrop, hfail⟩
    have hkept : w.host.files binding.path = v.host.files binding.path := by
      refine run_keeps hafter hlast fun outcome hm hr => ?_
      cases outcome with
      | bound later => exact hr
      | failed path fault =>
        obtain ⟨rfl, hf⟩ := hr
        rw [hfail fault hm] at hf
        cases hf
      | dropped other =>
        have hne : other ≠ binding := fun he => hheld (he ▸ hm)
        exact hdrop other hm hne hr
    rwa [ResolvesTo, hkept]

theorem bind_step {binder : MessageSocketBinder} {fault : Option BindFault} {host host' : Host}
    {binding : MessageSocketBinding} (h : binder.bind host fault = (host', .ok binding))
    (live : List MessageSocketBinding) :
    machine.step ⟨host, live⟩ (.bind binder fault) =
      some (⟨host', binding :: live⟩, [.bound binding]) := by
  simp only [machine, operate, h]

/-- A daemon that starts binds its endpoints by one operation each, in configured order. -/
theorem pushBindings_run {faults : ℕ → Option BindFault} {binders : List MessageSocketBinder}
    {bound bindings : List MessageSocketBinding} {host host' : Host}
    (h : pushBindings faults binders bound host = (host', .ok bindings))
    (live : List MessageSocketBinding) :
    machine.run ⟨host, live⟩ (binders.map (.bind · none)) =
      some (⟨host', (boundFrom host.nextListener binders).reverse ++ live⟩,
        (boundFrom host.nextListener binders).map .bound) := by
  induction binders generalizing bound host live with
  | nil =>
    obtain ⟨rfl, _⟩ := Prod.mk.inj h
    rfl
  | cons binder binders ih =>
    simp only [pushBindings] at h
    split at h
    · simp at h
    · next hb =>
      obtain ⟨hf, hbinding, hhost⟩ := bind_ok hb
      rw [hf] at hb
      have hrest := ih h (⟨binder.path, host.nextListener, binder.authority⟩ :: live)
      subst hbinding hhost
      have hrun := Machine.run_append (Machine.run_one (bind_step hb live)) hrest
      simpa [boundFrom] using hrun

theorem bindListeners_run {daemon : MessageDaemon} {faults : ℕ → Option BindFault}
    {bindings live : List MessageSocketBinding} {host host' : Host}
    (h : daemon.bindListeners faults host = (host', .ok bindings)) :
    machine.run ⟨host, live⟩ (daemon.binders.map (.bind · none)) =
      some (⟨host', bindings.reverse ++ live⟩, bindings.map .bound) := by
  obtain ⟨hbindings, _⟩ := bindListeners_ok h
  unfold MessageDaemon.bindListeners at h
  split at h
  · simp at h
  · next hb =>
    obtain ⟨hf, hbinding, hhost⟩ := bind_ok hb
    rw [hf] at hb
    subst hbinding hhost
    have hrest := pushBindings_run h
      (⟨daemon.externalBinder.path, host.nextListener, daemon.externalBinder.authority⟩ :: live)
    have hrun := Machine.run_append (Machine.run_one (bind_step hb live)) hrest
    simpa [hbindings, boundFrom, MessageDaemon.binders] using hrun

/-- A daemon that ends drops its bindings by one operation each, in their order. -/
theorem dropAll_run {bindings live : List MessageSocketBinding} (h : bindings.Subperm live)
    (host : Host) :
    machine.run ⟨host, live⟩ (bindings.map .drop) =
      some (⟨dropAll bindings host, live.diff bindings⟩, bindings.map .dropped) := by
  induction bindings generalizing live host with
  | nil => rfl
  | cons binding bindings ih =>
    have hm : binding ∈ live := h.subset List.mem_cons_self
    have hstep : machine.step ⟨host, live⟩ (.drop binding) =
        some (⟨binding.drop host, live.erase binding⟩, [.dropped binding]) := by
      simp only [machine, operate, if_pos hm]
    have hsub : bindings.Subperm (live.erase binding) := by
      have he := h.erase binding
      rwa [List.erase_cons_head] at he
    have hrun := Machine.run_append (Machine.run_one hstep) (ih hsub (binding.drop host))
    simpa [dropAll] using hrun

theorem dropAll_unbound {bindings : List MessageSocketBinding} (host : Host) {path : Path}
    (h : host.files path = none ∨ ∃ binding ∈ bindings, binding.path = path) :
    (dropAll bindings host).files path = none := by
  induction bindings generalizing host with
  | nil => simpa [dropAll] using h
  | cons binding bindings ih =>
    refine ih (binding.drop host) ?_
    by_cases hp : path = binding.path
    · subst hp
      exact Or.inl (Files.unlink_self ..)
    · rcases h with h | ⟨other, hm, rfl⟩
      · exact Or.inl ((Files.unlink_of_ne hp).trans h)
      · rcases List.mem_cons.mp hm with rfl | hm
        · exact absurd rfl hp
        · exact Or.inr ⟨other, hm, rfl⟩

theorem boundFrom_path {binders : List MessageSocketBinder} (n : ℕ) :
    (boundFrom n binders).map (·.path) = binders.map (·.path) := by
  induction binders generalizing n with
  | nil => rfl
  | cons binder binders ih => simp [boundFrom, ih]

/-- Whenever a daemon ends after its replacement has started with the same configuration, no
socket of the replacement can be reached. -/
theorem replacement_unreachable {daemon : MessageDaemon} {faults faults' : ℕ → Option BindFault}
    {host host₁ host₂ : Host} {old replacement : List MessageSocketBinding}
    (hold : daemon.bindListeners faults host = (host₁, .ok old))
    (hnew : daemon.bindListeners faults' host₁ = (host₂, .ok replacement)) :
    ∀ binding ∈ replacement, (dropAll old host₂).files binding.path = none := by
  obtain ⟨rfl, _⟩ := bindListeners_ok hold
  obtain ⟨rfl, _⟩ := bindListeners_ok hnew
  intro binding hm
  have hp : binding.path ∈ (boundFrom host.nextListener daemon.binders).map (·.path) := by
    rw [boundFrom_path, ← boundFrom_path host₁.nextListener]
    exact List.mem_map_of_mem hm
  obtain ⟨other, ho, he⟩ := List.mem_map.mp hp
  exact dropAll_unbound _ (Or.inr ⟨other, ho, he⟩)

def oldBinder : MessageSocketBinder := ⟨"/run/message.sock", .fromOctal 0o600, .externalPeer⟩

theorem replacement_resolves :
    ∃ w log, machine.run (initial emptyHost)
        [.bind oldBinder none, .drop ⟨"/run/message.sock", 0, .externalPeer⟩,
          .bind oldBinder none] = some (w, log) ∧
      ResolvesTo w "/run/message.sock" 1 := by
  have hrun : ∃ w, machine.run (initial emptyHost)
      [.bind oldBinder none, .drop ⟨"/run/message.sock", 0, .externalPeer⟩,
        .bind oldBinder none] = some (w, [.bound ⟨"/run/message.sock", 0, .externalPeer⟩,
          .dropped ⟨"/run/message.sock", 0, .externalPeer⟩] ++
          .bound ⟨"/run/message.sock", 1, .externalPeer⟩ :: []) := ⟨_, rfl⟩
  obtain ⟨w, h⟩ := hrun
  exact ⟨w, _, h, (resolves_iff h rfl (by simp) (by simp)).mpr ⟨by simp, by simp⟩⟩

/-- A daemon that stops after its replacement has bound the same path leaves the replacement
without a socket. -/
theorem replacement_released :
    ∃ w log, machine.run (initial emptyHost)
        [.bind oldBinder none, .bind oldBinder none,
          .drop ⟨"/run/message.sock", 0, .externalPeer⟩] = some (w, log) ∧
      (∃ before after, log = before ++ .bound ⟨"/run/message.sock", 1, .externalPeer⟩ :: after ∧
        (∀ later, .bound later ∈ after → later.path ≠ "/run/message.sock") ∧
        .dropped ⟨"/run/message.sock", 1, .externalPeer⟩ ∉ after) ∧
      w.host.files "/run/message.sock" = none := by
  refine ⟨_, _, rfl, ⟨[.bound ⟨"/run/message.sock", 0, .externalPeer⟩],
    [.dropped ⟨"/run/message.sock", 0, .externalPeer⟩], rfl, by simp, by simp⟩, rfl⟩

end PersonaMessage.SocketReleases
