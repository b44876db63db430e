import PersonaMessage.AcceptOrder
import PersonaMessage.IngressBound

/-! How long a connection can wait to be accepted. Every turn of the accept loop takes one that is
ahead of it, so that only connections made to earlier listeners can keep it waiting. -/
namespace PersonaMessage.IngressMachine
open ByteStream SignalFrames FrameProgress DaemonStamping Transitions TableLibrary

namespace Queues

/-- A connection that `accept_one` returns before `c`, which waits at `listener`. -/
def isAhead (q : Queues) (listener : ℕ) (c c' : ConnId) : Bool :=
  (q.entry c').1 && (decide ((q.entry c').2 < listener) ||
    (q.entry c').2 == listener && decide (c' < c))

def ahead (q : Queues) (listener : ℕ) (c : ConnId) : ℕ :=
  (List.range q.opened).countP (q.isAhead listener c)

theorem ahead_connect {q : Queues} {listener other : ℕ} {c : ConnId} (hc : c < q.opened) :
    (q.connect other).ahead listener c =
      q.ahead listener c+if other < listener then 1 else 0 := by
  have hsame : (List.range q.opened).countP ((q.connect other).isAhead listener c) =
      q.ahead listener c := by
    apply List.countP_congr
    intro c' hc'
    have hne : c' ≠ q.opened := (List.mem_range.mp hc').ne
    simp only [isAhead, connect, Function.update_of_ne hne]
  have hnew : (q.connect other).isAhead listener c q.opened = decide (other < listener) := by
    have hlt : ¬ q.opened < c := Nat.not_lt.mpr hc.le
    simp [isAhead, connect, hlt]
  change (List.range (q.opened+1)).countP _ = _
  rw [List.range_succ, List.countP_append, hsame, List.countP_singleton, hnew]
  simp only [decide_eq_true_eq]

/-- A connection that is taken is no longer ahead of any. -/
theorem ahead_take {q : Queues} {listener : ℕ} {c c' : ConnId} (hc : c' < q.opened) :
    (q.take c').ahead listener c+(if q.isAhead listener c c' then 1 else 0) =
      q.ahead listener c :=
  countP_range_drop hc (by simp [isAhead, take]) fun c'' hne => by
    simp only [isAhead, take, Function.update_of_ne hne]

/-- The head of an earlier listener is ahead, and so is another one of the same listener. -/
theorem head_isAhead {q : Queues} {listener k : ℕ} {c c' : ConnId} (hk : k ≤ listener)
    (hw : q.entry c = (true, listener)) (h : q.head k = some c')
    (hne : c' ≠ c) : q.isAhead listener c c' = true := by
  obtain ⟨_, he⟩ := head_spec h
  rcases hk.lt_or_eq with hlt | rfl
  · simp [isAhead, he, hlt]
  · have hle : c' ≤ c := by
      by_contra hn
      have hfirst := (List.find?_range_eq_some.mp h).2.2 c (Nat.lt_of_not_le hn)
      simp [hw] at hfirst
    have hlt : c' < c := lt_of_le_of_ne hle hne
    simp [isAhead, he, hlt]

end Queues

/-- The connection waits in the backlog of a listener. -/
def WaitsAt (s : Ingress) (listener : ℕ) (c : ConnId) : Prop :=
  s.queues.entry c = (true, listener)

/-- The current call of `accept_one` has not gone past the listener. -/
def MainPhase.before (listener : ℕ) : MainPhase → Bool
  | .scanning k => decide (k ≤ listener)
  | .exited _ => true
  | _ => false

/-- The turns of the accept loop that can start while the connection waits. -/
def turnsLeft (s : Ingress) (listener : ℕ) (c : ConnId) : ℕ :=
  s.queues.ahead listener c+if s.phase.before listener then 0 else 1

variable {d : Deployment} {s t : Ingress} {log out : List Action} {listener : ℕ} {c : ConnId}

theorem turnsLeft_before (h : s.phase.before listener = true) :
    turnsLeft s listener c = s.queues.ahead listener c := by
  rw [turnsLeft, h, if_pos rfl, Nat.add_zero]

theorem turnsLeft_le (s : Ingress) (listener : ℕ) (c : ConnId) :
    turnsLeft s listener c ≤ s.queues.ahead listener c+1 := by
  unfold turnsLeft
  split_ifs <;> omega

/-- A connection that waits has waited since it was opened. -/
theorem waitsAt_before (hq : QueueStep s t out) (hc : c < s.opened)
    (hw : WaitsAt t listener c) : WaitsAt s listener c := by
  unfold WaitsAt at hw ⊢
  cases hq with
  | connected queues =>
    have hne : c ≠ s.queues.opened := hc.ne
    simpa only [queues, Queues.connect, Function.update_of_ne hne] using hw
  | @accepted k c' _ _ queues =>
    rw [queues] at hw
    by_cases he : c = c'
    · subst he
      simp [Queues.take] at hw
    · simpa only [Queues.take, Function.update_of_ne he] using hw
  | quiet queues => rwa [queues] at hw

theorem ahead_queueStep (hq : QueueStep s t out) (hc : c < s.opened) :
    t.queues.ahead listener c ≤
      s.queues.ahead listener c+connectedTo (fun i => decide (i < listener)) out := by
  cases hq with
  | @connected other peer queues =>
    rw [queues, Queues.ahead_connect hc]
    simp [connectedTo]
  | accepted _ waiting queues =>
    have htake := @Queues.ahead_take s.queues listener c _ (Queues.head_spec waiting).1
    rw [queues]
    omega
  | quiet queues =>
    rw [queues]
    exact Nat.le_add_right _ _

/-- A call of `accept_one` that comes to the listener finds the connection or one ahead of it. -/
theorem turns_stepScan {k : ℕ} (hl : listener < d.bindings.length) (hk : k ≤ listener)
    (hp : s.phase = .scanning k) (hc : c < s.opened) (hs : stepScan d s k = (t, out))
    (hw : WaitsAt t listener c) : turnsLeft t listener c ≤ turnsLeft s listener c := by
  have hq := queueStep_stepScan hp hs
  have hw' := waitsAt_before hq hc hw
  have hnow : turnsLeft s listener c = s.queues.ahead listener c :=
    turnsLeft_before (by rw [hp]; exact decide_eq_true hk)
  unfold stepScan at hs
  split at hs
  · next hb =>
    rw [List.getElem?_eq_none_iff] at hb
    omega
  · split at hs
    · next hnone =>
      obtain ⟨rfl, rfl⟩ := Prod.mk.inj hs
      have hne : k ≠ listener := by
        rintro rfl
        have hskip := List.find?_range_eq_none.mp hnone c hc
        have hentry : ((s.connections c).queued, (s.connections c).listener) = (true, k) := hw'
        rw [(Prod.mk.inj hentry).1, (Prod.mk.inj hentry).2] at hskip
        simp at hskip
      have hk' : k+1 ≤ listener := by omega
      have hnext : (MainPhase.scanning (k+1)).before listener = true := decide_eq_true hk'
      rw [hnow, turnsLeft_before hnext]
      exact le_rfl
    · next c' hhead =>
      obtain ⟨rfl, rfl⟩ := Prod.mk.inj hs
      cases hq with
      | accepted _ waiting queues =>
        have hne : c' ≠ c := by
          rintro rfl
          unfold WaitsAt at hw
          rw [queues] at hw
          simp [Queues.take] at hw
        have hahead := Queues.head_isAhead hk hw' hhead hne
        have htake := @Queues.ahead_take s.queues listener c _ (Queues.head_spec waiting).1
        rw [if_pos hahead, ← queues] at htake
        rw [hnow]
        exact htake.le
      | quiet _ silent =>
        exact absurd (silent _ (List.mem_singleton_self _)) (by simp [Action.queueing])

/-- A step before the listener was passed, which starts no turn. -/
theorem turns_before {event : Event} (hl : listener < d.bindings.length) (hc : c < s.opened)
    (hb : s.phase.before listener = true) (hs : step d s event = some (t, out))
    (hw : WaitsAt t listener c) :
    turnsLeft t listener c ≤
      turnsLeft s listener c+connectedTo (fun i => decide (i < listener)) out := by
  have hq : t.queues.ahead listener c ≤
      s.queues.ahead listener c+connectedTo (fun i => decide (i < listener)) out :=
    ahead_queueStep (queueStep hs) hc
  have hkeep : t.phase.before listener = true → turnsLeft t listener c ≤
      turnsLeft s listener c+connectedTo (fun i => decide (i < listener)) out := by
    intro ht
    rw [turnsLeft_before ht, turnsLeft_before hb]
    exact hq
  unfold step at hs
  split_ifs at hs with hx
  cases event with
  | main event =>
    cases hp : s.phase with
    | scanning k =>
      have hk : k ≤ listener := by
        rw [hp] at hb
        exact of_decide_eq_true hb
      dsimp only at hs
      cases event with
      | accept =>
        simp only [stepMain, hp] at hs
        exact (turns_stepScan hl hk hp hc (Option.some.inj hs) hw).trans (Nat.le_add_right _ _)
      | acceptFailed e =>
        simp only [stepMain, hp] at hs
        split_ifs at hs
        obtain ⟨rfl, rfl⟩ := Prod.mk.inj (Option.some.inj hs)
        exact hkeep rfl
      | _ =>
        simp only [stepMain, hp] at hs
        cases hs
    | exited result =>
      rw [hp] at hx
      exact absurd rfl hx
    | _ =>
      rw [hp] at hb
      cases hb
  | client event =>
    rcases stepClient_cases hs with ⟨other, peer, _, rfl, rfl⟩ | ⟨c', stream, _, _, rfl, rfl⟩
    · exact hkeep hb
    · exact hkeep hb
  | router event =>
    obtain ⟨rfl, rfl⟩ := Prod.mk.inj (Option.some.inj hs)
    cases event <;> exact hkeep hb

/-- A turn starts from the loop's poll, with the first listener. -/
theorem step_startsTurn {event : Event} (hs : step d s event = some (t, out))
    (h : startsTurn event = true) :
    s.phase = .polling ∧ t = { s with phase := .scanning 0 } ∧ out = [] := by
  unfold startsTurn at h
  split at h
  · unfold step at hs
    split_ifs at hs
    dsimp only at hs
    cases hp : s.phase with
    | polling =>
      simp only [stepMain, hp] at hs
      obtain ⟨rfl, rfl⟩ := Prod.mk.inj (Option.some.inj hs)
      exact ⟨rfl, rfl, rfl⟩
    | _ =>
      simp only [stepMain, hp] at hs
      cases hs
  · cases h

theorem turns_step {event : Event} (hl : listener < d.bindings.length) (hc : c < s.opened)
    (hs : step d s event = some (t, out)) (hw : WaitsAt t listener c) :
    turnsLeft t listener c+(if startsTurn event then 1 else 0) ≤
      turnsLeft s listener c+connectedTo (fun i => decide (i < listener)) out := by
  cases h : startsTurn event with
  | true =>
    obtain ⟨hp, rfl, rfl⟩ := step_startsTurn hs h
    have hnow : turnsLeft s listener c = s.queues.ahead listener c+1 := by
      rw [turnsLeft, hp]
      rfl
    have hnext := @turnsLeft_before { s with phase := .scanning 0 } listener c
      (decide_eq_true (Nat.zero_le listener))
    rw [hnow, hnext]
    exact le_rfl
  | false =>
    simp only [Bool.false_eq_true, if_false, Nat.add_zero]
    by_cases hb : s.phase.before listener = true
    · exact turns_before hl hc hb hs hw
    · have hq := @ahead_queueStep _ _ _ listener c (queueStep hs) hc
      have hle := turnsLeft_le t listener c
      have hnow : turnsLeft s listener c = s.queues.ahead listener c+1 := by
        rw [turnsLeft, if_neg hb]
      omega

/-- Of a run during which the connection waits, the turns that start are those that it is due. -/
theorem turns_run {events : List Event} (hl : listener < d.bindings.length) (hc : c < s.opened)
    (hr : (machine d).run s events = some (t, log)) (hw : WaitsAt t listener c) :
    WaitsAt s listener c ∧ turnsLeft t listener c+events.countP startsTurn ≤
      turnsLeft s listener c+connectedTo (fun i => decide (i < listener)) log := by
  induction events generalizing s log with
  | nil =>
    obtain ⟨rfl, rfl⟩ := Prod.mk.inj (Option.some.inj hr)
    exact ⟨hw, le_rfl⟩
  | cons event events ih =>
    obtain ⟨u, out, rest, hs, hr', rfl⟩ := Machine.run_cons.mp hr
    have hq := queueStep hs
    obtain ⟨hu, hlater⟩ := ih (hc.trans_le hq.opened) hr'
    have hone := turns_step hl hc hs hu
    refine ⟨waitsAt_before hq hc hu, ?_⟩
    rw [List.countP_cons, connectedTo, List.countP_append]
    change _ ≤ _+(connectedTo _ out+connectedTo _ rest)
    omega

/-- The main thread makes nobody wait. -/
theorem waitsAt_stepMain {event : MainEvent} (hs : stepMain d s event = some (t, out))
    (hw : WaitsAt t listener c) : WaitsAt s listener c := by
  rcases stepMain_cases hs with ⟨stop, _, _, _, rfl⟩ | ⟨k, _, hp, hscan⟩ | hattends
  · exact hw
  · unfold stepScan at hscan
    split at hscan
    · obtain ⟨rfl, rfl⟩ := Prod.mk.inj hscan
      exact hw
    · split at hscan
      · obtain ⟨rfl, rfl⟩ := Prod.mk.inj hscan
        exact hw
      · next c' _ =>
        obtain ⟨rfl, rfl⟩ := Prod.mk.inj hscan
        by_cases he : c = c'
        · subst he
          simp [WaitsAt, Ingress.queues, Ingress.setConnection] at hw
        · simpa [WaitsAt, Ingress.queues, Ingress.setConnection, he] using hw
  · unfold WaitsAt at hw ⊢
    rwa [hattends.queues] at hw

/-- A client can only wait at a listener that there is. -/
theorem listener_step {event : Event}
    (h : ∀ c listener, WaitsAt s listener c → listener < d.bindings.length)
    (hs : step d s event = some (t, out)) (hw : WaitsAt t listener c) :
    listener < d.bindings.length := by
  unfold step at hs
  split_ifs at hs
  cases event with
  | main event => exact h c listener (waitsAt_stepMain hs hw)
  | client event =>
    rcases stepClient_cases hs with ⟨other, peer, ho, rfl, rfl⟩ | ⟨c', stream, _, _, rfl, rfl⟩
    · by_cases he : c = s.opened
      · subst he
        have hentry : (true, other) = (true, listener) := by
          simpa [WaitsAt, Ingress.queues, Ingress.setConnection] using hw
        exact (Prod.mk.inj hentry).2 ▸ ho
      · apply h c listener
        simpa [WaitsAt, Ingress.queues, Ingress.setConnection, he] using hw
    · apply h c listener
      unfold WaitsAt at hw ⊢
      rwa [queues_setStream] at hw
  | router event =>
    obtain ⟨rfl, rfl⟩ := Prod.mk.inj (Option.some.inj hs)
    apply h c listener
    cases event <;> exact hw

theorem listener_run {listen : RouterListener} {events : List Event}
    (hr : (machine d).run (initial d listen) events = some (s, log))
    (hw : WaitsAt s listener c) : listener < d.bindings.length := by
  have hrun := @Machine.run_invariant _ _ _ (machine d)
    (fun _ s => ∀ c listener, WaitsAt s listener c → listener < d.bindings.length)
    (fun h hs c listener hw => listener_step h hs hw) _ _ _ _ (fun c listener hw => by cases hw) hr
  exact hrun c listener hw

/-- While a connection waits at a listener, the main thread makes at most as many turns as there
are connections ahead of it or made to earlier listeners meanwhile, and two more. -/
theorem waiting_bounded {listen : RouterListener} {before events : List Event}
    {past : List Action} (hbefore : (machine d).run (initial d listen) before = some (s, past))
    (hr : (machine d).run s events = some (t, log)) (hc : c < s.opened)
    (hw : WaitsAt t listener c) :
    events.countP isMain ≤ turnBound d *
      (s.queues.ahead listener c+connectedTo (fun i => decide (i < listener)) log+2) := by
  have hl := listener_run (Machine.run_append hbefore hr) hw
  have hturns := (turns_run hl hc hr hw).2
  have hsteps := mainSteps_run hr
  have hleft := stepsLeft_le (inv_run hbefore)
  have hnow := turnsLeft_le s listener c
  have hle : events.countP startsTurn ≤
      s.queues.ahead listener c+connectedTo (fun i => decide (i < listener)) log+1 := by omega
  calc events.countP isMain
      ≤ turnBound d+turnBound d*events.countP startsTurn := by omega
    _ ≤ turnBound d+turnBound d*(s.queues.ahead listener c+
          connectedTo (fun i => decide (i < listener)) log+1) := by gcongr
    _ = turnBound d*(s.queues.ahead listener c+
          connectedTo (fun i => decide (i < listener)) log+2) := by ring

/-- A component's connection waits while the owner's, made after it, is served. -/
theorem owner_first_run : ∃ s t log,
    (machine ownerDeployment).run (initial ownerDeployment .ready)
      [.client (.connect 1 ⟨⟨0⟩⟩)] = some (s, [.connected 0 1 ⟨⟨0⟩⟩]) ∧
    (machine ownerDeployment).run s (ownerEvents 1) = some (t, log) ∧ 0 < s.opened ∧
    WaitsAt t 1 0 := ⟨_, _, _, rfl, rfl, by decide, rfl⟩

theorem owner_first_bounded : ∃ s log,
    (machine ownerDeployment).run (initial ownerDeployment .ready)
      [.client (.connect 1 ⟨⟨0⟩⟩)] = some (s, [.connected 0 1 ⟨⟨0⟩⟩]) ∧
    (ownerEvents 1).countP isMain ≤ turnBound ownerDeployment *
      (s.queues.ahead 1 0+connectedTo (fun i => decide (i < 1)) log+2) := by
  obtain ⟨s, t, log, hbefore, hr, hc, hw⟩ := owner_first_run
  exact ⟨s, log, hbefore, waiting_bounded hbefore hr hc hw⟩

end PersonaMessage.IngressMachine
