import PersonaMessage.IngressProvenance

/-! The order in which `accept_one` returns connections. Each of its calls scans the bindings
from the first, so a connection is overtaken by those of earlier bindings, however many there
are, and by no others. -/
namespace PersonaMessage.IngressMachine
open ByteStream SignalFrames FrameProgress RouterCodec SignalRouterFrameCodec DaemonStamping
  Transitions TableLibrary

/-- Who waits where: how many connections there are, whether each is in a backlog, and in
which. -/
structure Queues where
  opened : ℕ
  entry : ConnId → Bool × ℕ

namespace Queues

def connect (q : Queues) (listener : ℕ) : Queues :=
  ⟨q.opened+1, Function.update q.entry q.opened (true, listener)⟩

def take (q : Queues) (c : ConnId) : Queues :=
  { q with entry := Function.update q.entry c (false, (q.entry c).2) }

def head (q : Queues) (listener : ℕ) : Option ConnId :=
  (List.range q.opened).find? fun c => (q.entry c).1 && (q.entry c).2 == listener

/-- How many connections wait at the listeners of a kind. -/
def backlog (q : Queues) (kind : ℕ → Bool) : ℕ :=
  (List.range q.opened).countP fun c => (q.entry c).1 && kind (q.entry c).2

theorem head_spec {q : Queues} {listener : ℕ} {c : ConnId} (h : q.head listener = some c) :
    c < q.opened ∧ q.entry c = (true, listener) := by
  have hp := List.find?_some h
  have hm := List.mem_range.mp (List.mem_of_find?_eq_some h)
  simp only [Bool.and_eq_true, beq_iff_eq] at hp
  exact ⟨hm, Prod.ext hp.1 hp.2⟩

/-- A new connection is the last of its backlog. -/
theorem head_connect {q : Queues} {listener other : ℕ} {c : ConnId}
    (h : q.head listener = some c) : (q.connect other).head listener = some c := by
  have hsame : ∀ c' ∈ List.range q.opened,
      (((q.connect other).entry c').1 && ((q.connect other).entry c').2 == listener) =
        ((q.entry c').1 && (q.entry c').2 == listener) := by
    intro c' hc'
    have hne : c' ≠ q.opened := (List.mem_range.mp hc').ne
    simp only [connect, Function.update_of_ne hne]
  have hfind : (List.range q.opened).find? (fun c' =>
      ((q.connect other).entry c').1 && ((q.connect other).entry c').2 == listener) = some c := by
    rw [← h]
    exact List.find?_congr hsame
  change (List.range (q.opened+1)).find? _ = some c
  rw [List.range_succ, List.find?_append, hfind]
  rfl

/-- What is taken from one backlog is missing in no other. -/
theorem head_take {q : Queues} {listener : ℕ} {c : ConnId} (h : (q.entry c).2 ≠ listener) :
    (q.take c).head listener = q.head listener := by
  apply List.find?_congr
  intro c' _
  by_cases hc : c' = c
  · subst hc
    simp [take, h]
  · simp only [take, Function.update_of_ne hc]

theorem backlog_connect (q : Queues) (listener : ℕ) (kind : ℕ → Bool) :
    (q.connect listener).backlog kind = q.backlog kind+if kind listener then 1 else 0 := by
  have hsame : (List.range q.opened).countP (fun c => ((q.connect listener).entry c).1 &&
      kind ((q.connect listener).entry c).2) = q.backlog kind := by
    apply List.countP_congr
    intro c hc
    have hne : c ≠ q.opened := (List.mem_range.mp hc).ne
    simp only [connect, Function.update_of_ne hne]
  change (List.range (q.opened+1)).countP _ = _
  rw [List.range_succ, List.countP_append, hsame]
  simp [connect]

theorem countP_range_drop {p p' : ℕ → Bool} {c n : ℕ} (hc : c < n) (hp' : p' c = false)
    (hsame : ∀ c', c' ≠ c → p' c' = p c') :
    (List.range n).countP p'+(if p c then 1 else 0) = (List.range n).countP p := by
  induction n with
  | zero => omega
  | succ n ih =>
    rw [List.range_succ, List.countP_append, List.countP_append, List.countP_singleton,
      List.countP_singleton]
    by_cases hcn : c = n
    · subst hcn
      have hbelow : (List.range c).countP p' = (List.range c).countP p := by
        apply List.countP_congr
        intro c' hc'
        rw [hsame c' (List.mem_range.mp hc').ne]
      rw [hbelow, hp']
      simp
    · rw [hsame n (Ne.symm hcn), ← ih (by omega)]
      omega

theorem backlog_take {q : Queues} {c : ConnId} (hc : c < q.opened) (hq : (q.entry c).1 = true)
    (kind : ℕ → Bool) :
    (q.take c).backlog kind+(if kind (q.entry c).2 then 1 else 0) = q.backlog kind := by
  have hdrop := @countP_range_drop (fun c => (q.entry c).1 && kind (q.entry c).2)
    (fun c' => ((q.take c).entry c').1 && kind ((q.take c).entry c').2) c q.opened hc
    (by simp [take]) (fun c' hne => by simp only [take, Function.update_of_ne hne])
  simp only [hq, Bool.true_and] at hdrop
  exact hdrop

end Queues

def Ingress.queues (s : Ingress) : Queues :=
  ⟨s.opened, fun c => ((s.connections c).queued, (s.connections c).listener)⟩

/-- An action that changes a backlog. -/
def Action.queueing : Action → Bool
  | .connected _ _ _ => true
  | .accepted _ => true
  | _ => false

/-- A step that attends to one connection: it leaves the backlogs and does not go back to the
listeners. -/
structure Attends (s t : Ingress) (out : List Action) : Prop where
  queues : t.queues = s.queues
  silent : ∀ a ∈ out, a.queueing = false
  away : ∀ k, t.phase ≠ .scanning k

variable {d : Deployment}

theorem queues_setStream (s : Ingress) (c : ConnId) (stream : Duplex) :
    (s.setStream c stream).queues = s.queues := by
  have he : ∀ c', (((s.setStream c stream).connections c').queued,
      ((s.setStream c stream).connections c').listener) =
        ((s.connections c').queued, (s.connections c').listener) := by
    intro c'
    by_cases hc : c' = c
    · subst hc
      simp [Ingress.setStream, Ingress.setConnection]
    · simp [Ingress.setStream, Ingress.setConnection, hc]
  exact congrArg (Queues.mk s.opened) (funext he)

theorem attends_exit (s : Ingress) (result : Result Unit) : Attends s (s.exit result) [] :=
  ⟨rfl, List.forall_mem_nil _, fun _ => nofun⟩

theorem attends_startReply {s s' : Ingress} (hq : s'.queues = s.queues) (c : ConnId)
    (received : ReceivedMessageRequest) (reply : MessageReply) {out : List Action}
    (ho : ∀ a ∈ out, a.queueing = false) : Attends s (s'.startReply d c received reply) out := by
  rcases @startReply_cases d s' c received reply with ⟨result, ht⟩ | ⟨bytes, _, ht⟩
  · rw [ht]
    exact ⟨hq, ho, fun _ => nofun⟩
  · rw [ht]
    exact ⟨hq, ho, fun _ => nofun⟩

theorem attends_stepReadRequest {s t : Ingress} {c : ConnId} {ingress : MessageIngressContext}
    {got : Bytes} {event : ReadEvent}
    (hs : stepReadRequest d s c ingress got event = some t) : Attends s t [] := by
  rcases stepReadRequest_cases hs with ⟨result, rfl⟩ | ⟨stream, got', _, rfl⟩ |
    ⟨frame, received, _, _, rfl⟩
  · exact attends_exit ..
  · exact ⟨queues_setStream .., List.forall_mem_nil _, fun _ => nofun⟩
  · exact ⟨rfl, List.forall_mem_nil _, fun _ => nofun⟩

theorem attends_stepStamp (s : Ingress) (c : ConnId) (ingress : MessageIngressContext)
    (received : ReceivedMessageRequest) (now : ℤ) :
    Attends s (stepStamp d s c ingress received now) [] := by
  rcases @stepStamp_cases d s c ingress received now with ⟨result, ht⟩ | ⟨image, _, ht⟩ |
    ⟨reply, _, ht⟩
  · rw [ht]
    exact attends_exit ..
  · rw [ht]
    exact ⟨rfl, List.forall_mem_nil _, fun _ => nofun⟩
  · rw [ht]
    exact attends_startReply rfl _ _ _ (List.forall_mem_nil _)

theorem attends_stepConnect {s t : Ingress} {c : ConnId} {received : ReceivedMessageRequest}
    {image : MessageRequest} (hs : stepConnect d s c received image = some t) :
    Attends s t [] := by
  rcases stepConnect_cases hs with ⟨result, rfl⟩ | ⟨bytes, _, _, rfl⟩
  · exact attends_exit ..
  · exact ⟨rfl, List.forall_mem_nil _, fun _ => nofun⟩

theorem attends_stepSubmit {s t : Ingress} {out : List Action} {c : ConnId}
    {received : ReceivedMessageRequest} {rest : Bytes} {event : WriteEvent}
    (hs : stepSubmit d s c received rest event = some (t, out)) : Attends s t out := by
  rcases stepSubmit_cases hs with ⟨result, rfl, rfl⟩ | ⟨stream, _, rfl, rfl⟩ |
    ⟨stream, rest', _, _, rfl, rfl⟩
  · exact attends_exit ..
  · exact ⟨rfl, by simp [Action.queueing], fun _ => nofun⟩
  · exact ⟨rfl, List.forall_mem_nil _, fun _ => nofun⟩

theorem attends_stepAwait {s t : Ingress} {out : List Action} {c : ConnId}
    {received : ReceivedMessageRequest} {got : Bytes} {event : ReadEvent}
    (hs : stepAwait d s c received got event = some (t, out)) : Attends s t out := by
  rcases stepAwait_cases hs with ⟨result, rfl, rfl⟩ | ⟨stream, got', _, rfl, rfl⟩ |
    ⟨frame, reply, _, _, rfl, rfl⟩
  · exact attends_exit ..
  · exact ⟨rfl, List.forall_mem_nil _, fun _ => nofun⟩
  · apply attends_startReply
    · rfl
    · simp [Action.queueing]

theorem attends_stepReply {s t : Ingress} {out : List Action} {c : ConnId} {rest : Bytes}
    {event : WriteEvent} (hs : stepReply d s c rest event = some (t, out)) :
    Attends s t out := by
  rcases stepReply_cases hs with ⟨result, rfl, rfl⟩ | ⟨stream, _, rfl, rfl⟩ |
    ⟨stream, rest', _, _, rfl, rfl⟩
  · exact attends_exit ..
  · exact ⟨queues_setStream .., by simp [Action.queueing], fun _ => nofun⟩
  · exact ⟨queues_setStream .., List.forall_mem_nil _, fun _ => nofun⟩

/-- The main thread polls, asks one listener, or attends to a connection. -/
theorem stepMain_cases {s t : Ingress} {event : MainEvent} {out : List Action}
    (hs : stepMain d s event = some (t, out)) :
    (∃ stop, event = .poll stop ∧ s.phase = .polling ∧ out = [] ∧
        t = { s with phase := if stop then .stopping else .scanning 0 }) ∨
      (∃ k, event = .accept ∧ s.phase = .scanning k ∧ stepScan d s k = (t, out)) ∨
      Attends s t out := by
  unfold stepMain at hs
  split at hs
  · next stop hp =>
    obtain ⟨rfl, rfl⟩ := Prod.mk.inj (Option.some.inj hs)
    exact Or.inl ⟨stop, rfl, hp, rfl, rfl⟩
  · next k hp => exact Or.inr (Or.inl ⟨k, rfl, hp, Option.some.inj hs⟩)
  all_goals refine Or.inr (Or.inr ?_)
  · split_ifs at hs
    obtain ⟨rfl, rfl⟩ := Prod.mk.inj (Option.some.inj hs)
    exact attends_exit ..
  · obtain ⟨rfl, rfl⟩ := Prod.mk.inj (Option.some.inj hs)
    exact ⟨rfl, List.forall_mem_nil _, fun _ => nofun⟩
  · split_ifs at hs
    · obtain ⟨rfl, rfl⟩ := Prod.mk.inj (Option.some.inj hs)
      exact ⟨rfl, List.forall_mem_nil _, fun _ => nofun⟩
    · obtain ⟨rfl, rfl⟩ := Prod.mk.inj (Option.some.inj hs)
      exact attends_exit ..
  · obtain ⟨u, hu, he⟩ := Option.map_eq_some_iff.mp hs
    obtain ⟨rfl, rfl⟩ := Prod.mk.inj he
    exact attends_stepReadRequest hu
  · obtain ⟨rfl, rfl⟩ := Prod.mk.inj (Option.some.inj hs)
    exact attends_stepStamp ..
  · obtain ⟨rfl, rfl⟩ := Prod.mk.inj (Option.some.inj hs)
    exact attends_exit ..
  · obtain ⟨u, hu, he⟩ := Option.map_eq_some_iff.mp hs
    obtain ⟨rfl, rfl⟩ := Prod.mk.inj he
    exact attends_stepConnect hu
  · exact attends_stepSubmit hs
  · exact attends_stepAwait hs
  · exact attends_stepReply hs
  · next outcome _ =>
    obtain ⟨rfl, rfl⟩ := Prod.mk.inj (Option.some.inj hs)
    obtain ⟨result, ht⟩ := stopRoot_exit s outcome
    rw [ht]
    exact attends_exit ..
  · cases hs

/-- The scan has gone past a listener since its call of `accept_one` began. -/
def Past (s : Ingress) (listener : ℕ) : Prop := ∃ k, s.phase = .scanning k ∧ listener < k

/-- What a step does to the backlogs and to the scan. -/
inductive QueueStep (s t : Ingress) : List Action → Prop
  | connected {listener : ℕ} {peer : PeerCredentials}
      (queues : t.queues = s.queues.connect listener) (phase : t.phase = s.phase) :
      QueueStep s t [.connected s.opened listener peer]
  | accepted {k : ℕ} {c : ConnId} (scanning : s.phase = .scanning k)
      (waiting : s.queues.head k = some c) (queues : t.queues = s.queues.take c)
      (away : ∀ j, t.phase ≠ .scanning j) : QueueStep s t [.accepted c]
  | quiet {out : List Action} (queues : t.queues = s.queues)
      (silent : ∀ a ∈ out, a.queueing = false)
      (scan : ∀ k, t.phase = .scanning k → k = 0 ∨ s.phase = .scanning k ∨
        ∃ j, k = j+1 ∧ s.phase = .scanning j ∧ s.queues.head j = none) : QueueStep s t out

theorem queueStep_stepScan {s t : Ingress} {k : ℕ} {out : List Action}
    (hp : s.phase = .scanning k) (hs : stepScan d s k = (t, out)) : QueueStep s t out := by
  unfold stepScan at hs
  split at hs
  · obtain ⟨rfl, rfl⟩ := Prod.mk.inj hs
    exact .quiet rfl (List.forall_mem_nil _) fun _ => nofun
  · split at hs
    · next hw =>
      obtain ⟨rfl, rfl⟩ := Prod.mk.inj hs
      refine .quiet rfl (List.forall_mem_nil _) fun j hj => Or.inr (Or.inr ⟨k, ?_, hp, hw⟩)
      exact (MainPhase.scanning.inj hj).symm
    · next c hw =>
      obtain ⟨rfl, rfl⟩ := Prod.mk.inj hs
      refine .accepted hp hw ?_ fun _ => nofun
      have he : ∀ c', ((Function.update s.connections c
          { s.connections c with queued := false } c').queued,
          (Function.update s.connections c { s.connections c with queued := false } c').listener) =
          Function.update s.queues.entry c (false, (s.queues.entry c).2) c' := by
        intro c'
        by_cases hc : c' = c
        · subst hc
          simp [Ingress.queues]
        · simp [Ingress.queues, hc]
      exact congrArg (Queues.mk s.opened) (funext he)

theorem queueStep_stepClient {s t : Ingress} {event : ClientEvent} {out : List Action}
    (hs : stepClient d s event = some (t, out)) : QueueStep s t out := by
  rcases stepClient_cases hs with ⟨listener, peer, _, rfl, rfl⟩ | ⟨c, stream, _, _, rfl, rfl⟩
  · refine .connected ?_ rfl
    have he : ∀ c', ((Function.update s.connections s.opened
        ⟨listener, peer, .fresh, true⟩ c').queued,
        (Function.update s.connections s.opened ⟨listener, peer, .fresh, true⟩ c').listener) =
        Function.update s.queues.entry s.opened (true, listener) c' := by
      intro c'
      by_cases hc : c' = s.opened
      · subst hc
        simp
      · simp [Ingress.queues, hc]
    exact congrArg (Queues.mk (s.opened+1)) (funext he)
  · exact .quiet (queues_setStream ..) (List.forall_mem_nil _) fun _ hk => Or.inr (Or.inl hk)

theorem queueStep {s t : Ingress} {event : Event} {out : List Action}
    (hs : step d s event = some (t, out)) : QueueStep s t out := by
  unfold step at hs
  split_ifs at hs
  cases event with
  | main event =>
    rcases stepMain_cases hs with ⟨stop, _, _, rfl, rfl⟩ | ⟨k, _, hp, hscan⟩ | hattends
    · refine .quiet rfl (List.forall_mem_nil _) fun k hk => Or.inl ?_
      cases stop with
      | true => cases hk
      | false => exact (MainPhase.scanning.inj hk).symm
    · exact queueStep_stepScan hp hscan
    · exact .quiet hattends.queues hattends.silent fun k hk => absurd hk (hattends.away k)
  | client event => exact queueStep_stepClient hs
  | router event =>
    obtain ⟨rfl, rfl⟩ := Prod.mk.inj (Option.some.inj hs)
    cases event <;> exact .quiet rfl (List.forall_mem_nil _) fun _ hk => Or.inr (Or.inl hk)

/-- How many connections of a history were made to the listeners of a kind. -/
def connectedTo (kind : ℕ → Bool) (log : List Action) : ℕ :=
  log.countP fun
    | .connected _ listener _ => kind listener
    | _ => false

/-- How many connections of a history were accepted from the listeners of a kind. -/
def acceptedFrom (q : Queues) (kind : ℕ → Bool) (log : List Action) : ℕ :=
  log.countP fun
    | .accepted c => kind (q.entry c).2
    | _ => false

theorem acceptedFrom_append (q : Queues) (kind : ℕ → Bool) (log out : List Action) :
    acceptedFrom q kind (log ++ out) = acceptedFrom q kind log+acceptedFrom q kind out :=
  List.countP_append

theorem acceptedFrom_congr {q q' : Queues} {kind : ℕ → Bool} {log : List Action}
    (h : ∀ c, .accepted c ∈ log → (q'.entry c).2 = (q.entry c).2) :
    acceptedFrom q' kind log = acceptedFrom q kind log := by
  apply List.countP_congr
  intro a ha
  cases a with
  | accepted c =>
    dsimp only
    rw [h c ha]
  | _ => rfl

theorem acceptedFrom_silent {kind : ℕ → Bool} {out : List Action} (q : Queues)
    (h : ∀ a ∈ out, a.queueing = false) : acceptedFrom q kind out = 0 := by
  apply List.countP_eq_zero.mpr
  intro a ha
  have hq := h a ha
  cases a <;> simp_all [Action.queueing]

theorem connectedTo_silent {kind : ℕ → Bool} {out : List Action}
    (h : ∀ a ∈ out, a.queueing = false) : connectedTo kind out = 0 := by
  apply List.countP_eq_zero.mpr
  intro a ha
  have hq := h a ha
  cases a <;> simp_all [Action.queueing]

theorem QueueStep.opened {s t : Ingress} {out : List Action} (h : QueueStep s t out) :
    s.queues.opened ≤ t.queues.opened := by
  cases h with
  | connected hq => rw [hq]; exact Nat.le_succ _
  | accepted _ _ hq => rw [hq]; exact le_rfl
  | quiet hq => rw [hq]

/-- A connection keeps its listener. -/
theorem QueueStep.listener {s t : Ingress} {out : List Action} (h : QueueStep s t out)
    {c : ConnId} (hc : c < s.queues.opened) :
    (t.queues.entry c).2 = (s.queues.entry c).2 := by
  cases h with
  | connected hq =>
    rw [hq]
    simp only [Queues.connect, Function.update_of_ne hc.ne]
  | @accepted k c' _ _ hq =>
    rw [hq]
    by_cases hcc : c = c'
    · subst hcc
      simp [Queues.take]
    · simp only [Queues.take, Function.update_of_ne hcc]
  | quiet hq => rw [hq]

/-- Nothing is lost and nothing accepted twice: of the connections that waited or arrived since,
those not accepted wait. -/
structure Accounted (s : Ingress) (log : List Action) (t : Ingress) : Prop where
  known : ∀ c, .accepted c ∈ log → c < t.queues.opened
  conserved : ∀ kind, acceptedFrom t.queues kind log+t.queues.backlog kind =
    s.queues.backlog kind+connectedTo kind log

theorem accounted_start (s : Ingress) : Accounted s [] s :=
  ⟨fun _ => nofun, fun _ => by simp [acceptedFrom, connectedTo]⟩

theorem accounted_step {s t u : Ingress} {log out : List Action} (hi : Accounted s log t)
    (hs : QueueStep t u out) : Accounted s (log ++ out) u := by
  have hold : ∀ kind, acceptedFrom u.queues kind log = acceptedFrom t.queues kind log :=
    fun kind => acceptedFrom_congr fun c hc => hs.listener (hi.known c hc)
  constructor
  · intro c hc
    rcases List.mem_append.mp hc with hc | hc
    · exact (hi.known c hc).trans_le hs.opened
    · cases hs with
      | connected => simp at hc
      | accepted _ hw hq =>
        obtain rfl : c = _ := by simpa using hc
        rw [hq]
        exact (Queues.head_spec hw).1
      | quiet _ hsilent => exact absurd (hsilent _ hc) (by simp [Action.queueing])
  · intro kind
    have hk := hi.conserved kind
    rw [acceptedFrom_append, hold, connectedTo, List.countP_append]
    change _ = _+(connectedTo kind log+connectedTo kind out)
    cases hs with
    | @connected listener peer hq =>
      rw [hq, Queues.backlog_connect]
      simp only [acceptedFrom, connectedTo, List.countP_singleton] at hk ⊢
      simp only [Bool.false_eq_true, if_false] at hk ⊢
      omega
    | @accepted k c _ hw hq =>
      obtain ⟨hc, he⟩ := Queues.head_spec hw
      have htake := Queues.backlog_take hc (by rw [he]) kind
      have hc2 : (u.queues.entry c).2 = (t.queues.entry c).2 := by
        rw [hq]
        simp [Queues.take]
      rw [← hq] at htake
      simp only [acceptedFrom, connectedTo, List.countP_singleton, hc2] at hk htake ⊢
      simp only [Bool.false_eq_true, if_false] at hk htake ⊢
      omega
    | quiet hq hsilent =>
      rw [hq, acceptedFrom_silent _ hsilent, connectedTo_silent hsilent]
      omega

/-- The same connection still waits at the head of its backlog. At most the call that had gone
past it before it waited has returned one of a later listener. -/
structure Waits (s : Ingress) (i : ℕ) (c : ConnId) (log : List Action) (t : Ingress) : Prop where
  head : t.queues.head i = some c
  later : (acceptedFrom t.queues (i < ·) log = 0 ∧ (Past t i → Past s i)) ∨
    (acceptedFrom t.queues (i < ·) log = 1 ∧ ¬ Past t i ∧ Past s i)

theorem acceptedFrom_accepted (q : Queues) (kind : ℕ → Bool) (c : ConnId) :
    acceptedFrom q kind [.accepted c] = if kind (q.entry c).2 then 1 else 0 :=
  List.countP_singleton

theorem waits_step {s t u : Ingress} {i : ℕ} {c : ConnId} {log out : List Action}
    (hi : Accounted s log t) (hw : Waits s i c log t) (hs : QueueStep t u out)
    (hown : acceptedFrom u.queues (· == i) (log ++ out) = 0) : Waits s i c (log ++ out) u := by
  have hold : acceptedFrom u.queues (i < ·) log = acceptedFrom t.queues (i < ·) log :=
    acceptedFrom_congr fun c hc => hs.listener (hi.known c hc)
  have hlater := hw.later
  rw [acceptedFrom_append] at hown
  cases hs with
  | @connected listener peer hq hphase =>
    have hpast : Past u i ↔ Past t i := by rw [Past, Past, hphase]
    have hnone : acceptedFrom u.queues (i < ·) [.connected t.opened listener peer] = 0 := rfl
    refine ⟨by rw [hq]; exact Queues.head_connect hw.head, ?_⟩
    rw [acceptedFrom_append, hold, hnone, hpast]
    exact hlater
  | @accepted k c' hscan hhead hq haway =>
    obtain ⟨hc', he⟩ := Queues.head_spec hhead
    have hlistener : (u.queues.entry c').2 = k := by
      rw [hq]
      simp [Queues.take, he]
    have hki : k ≠ i := by
      rintro rfl
      rw [acceptedFrom_accepted, hlistener] at hown
      simp at hown
    have hnot : ¬ Past u i := fun ⟨j, hj, _⟩ => haway j hj
    refine ⟨?_, ?_⟩
    · rw [hq, Queues.head_take (by rw [he]; exact hki)]
      exact hw.head
    · rw [acceptedFrom_append, hold, acceptedFrom_accepted, hlistener]
      by_cases hk : i < k
      · have hpast : Past t i := ⟨k, hscan, hk⟩
        rcases hlater with ⟨h0, hp⟩ | ⟨_, hn, _⟩
        · exact Or.inr ⟨by simp [h0, hk], hnot, hp hpast⟩
        · exact absurd hpast hn
      · simp only [hk, decide_false, Bool.false_eq_true, if_false, Nat.add_zero]
        exact hlater.imp (fun h => ⟨h.1, fun hp => absurd hp hnot⟩)
          fun h => ⟨h.1, hnot, h.2.2⟩
  | quiet hq hsilent hscan =>
    have hpast : Past u i → Past t i := by
      rintro ⟨k, hk, hik⟩
      rcases hscan k hk with rfl | hp | ⟨j, rfl, hp, hnone⟩
      · omega
      · exact ⟨k, hp, hik⟩
      · have hji : j ≠ i := by
          rintro rfl
          rw [hw.head] at hnone
          cases hnone
        exact ⟨j, hp, by omega⟩
    refine ⟨by rw [hq]; exact hw.head, ?_⟩
    rw [acceptedFrom_append, hold, acceptedFrom_silent _ hsilent, Nat.add_zero]
    exact hlater.imp (fun h => ⟨h.1, fun hp => h.2 (hpast hp)⟩)
      fun h => ⟨h.1, fun hp => h.2.1 (hpast hp), h.2.2⟩

/-- What holds as long as no connection of the listener has been accepted. -/
theorem waits_run {s t : Ingress} {i : ℕ} {c : ConnId} {events : List Event} {log : List Action}
    (hw : s.waiting i = some c) (hr : (machine d).run s events = some (t, log)) :
    Accounted s log t ∧
      (acceptedFrom t.queues (· == i) log = 0 → Waits s i c log t) := by
  refine @Machine.run_invariant _ _ _ (machine d) (fun log t => Accounted s log t ∧
    (acceptedFrom t.queues (· == i) log = 0 → Waits s i c log t))
    (fun {log t event u out} hinv hs => ?_) _ _ _ _
    ⟨accounted_start s, fun _ => ⟨hw, Or.inl ⟨rfl, id⟩⟩⟩ hr
  obtain ⟨hi, hwaits⟩ := hinv
  have hq := queueStep hs
  refine ⟨accounted_step hi hq, fun hown => ?_⟩
  have hold : acceptedFrom u.queues (· == i) log = acceptedFrom t.queues (· == i) log :=
    acceptedFrom_congr fun c hc => hq.listener (hi.known c hc)
  have hbefore : acceptedFrom t.queues (· == i) log = 0 := by
    rw [acceptedFrom_append, hold] at hown
    omega
  exact waits_step hi (hwaits hbefore) hq hown

theorem head_none {q : Queues} {i j : ℕ} (hj : j < i) (h : q.backlog (· < i) = 0) :
    q.head j = none := by
  apply List.find?_eq_none.mpr
  intro c hc hcj
  have hz := List.countP_eq_zero.mp h c hc
  simp only [Bool.and_eq_true, beq_iff_eq] at hcj
  simp [hcj.1, hcj.2, hj] at hz

/-- A scan that finds nothing before a listener returns what waits there. -/
theorem scan_returns {s : Ingress} {i k : ℕ} {c : ConnId} (hi : i < d.bindings.length)
    (hk : k ≤ i) (hp : s.phase = .scanning k) (hnone : ∀ j < i, s.waiting j = none)
    (hw : s.waiting i = some c) :
    ∃ u, (machine d).run s (List.replicate (i-k+1) (.main .accept)) =
      some (u, [.accepted c]) := by
  have hb : ∀ j ≤ i, ∃ authority, d.bindings[j]? = some authority := fun j hj =>
    ⟨_, List.getElem?_eq_getElem (by omega)⟩
  induction hn : i-k generalizing s k with
  | zero =>
    obtain rfl : k = i := by omega
    obtain ⟨authority, ha⟩ := hb k hk
    have hs : ∃ u, step d s (.main .accept) = some (u, [.accepted c]) := by
      simp only [step, hp, MainPhase.isExited, Bool.false_eq_true, if_false, stepMain, stepScan,
        ha, hw]
      exact ⟨_, rfl⟩
    obtain ⟨u, hs⟩ := hs
    exact ⟨u, Machine.run_one hs⟩
  | succ n ih =>
    have hki : k < i := by omega
    obtain ⟨authority, ha⟩ := hb k hk
    have hs : step d s (.main .accept) = some ({ s with phase := .scanning (k+1) }, []) := by
      simp only [step, hp, MainPhase.isExited, Bool.false_eq_true, if_false, stepMain, stepScan,
        ha, hnone k hki]
    obtain ⟨u, hr⟩ := @ih { s with phase := .scanning (k+1) } (k+1) hki rfl hnone hw (by omega)
    exact ⟨u, Machine.run_cons.mpr ⟨_, _, _, hs, hr, rfl⟩⟩

/-- While a connection waits at the head of a listener's backlog, only earlier listeners'
connections overtake it, and all of them that wait or arrive meanwhile may; one of a later
listener does only from a call that was already past. When nothing waits before it, the next
call returns it. -/
theorem overtaken_by_earlier {s t : Ingress} {i : ℕ} {c : ConnId} {events : List Event}
    {log : List Action} (hi : i < d.bindings.length) (hw : s.waiting i = some c)
    (hr : (machine d).run s events = some (t, log))
    (hnone : acceptedFrom t.queues (· == i) log = 0) :
    t.waiting i = some c ∧
    acceptedFrom t.queues (· < i) log+t.queues.backlog (· < i) =
      s.queues.backlog (· < i)+connectedTo (· < i) log ∧
    acceptedFrom t.queues (i < ·) log ≤ 1 ∧
    (¬ Past s i → acceptedFrom t.queues (i < ·) log = 0) ∧
    (t.phase = .scanning 0 → t.queues.backlog (· < i) = 0 →
      ∃ u, (machine d).run t (List.replicate (i+1) (.main .accept)) =
        some (u, [.accepted c])) := by
  obtain ⟨haccounted, hwaits⟩ := waits_run hw hr
  obtain ⟨hhead, hlater⟩ := hwaits hnone
  refine ⟨hhead, haccounted.conserved _, ?_, fun hpast => ?_, fun hp hempty => ?_⟩
  · rcases hlater with ⟨h0, _⟩ | ⟨h1, _⟩ <;> omega
  · rcases hlater with ⟨h0, _⟩ | ⟨_, _, hp⟩
    · exact h0
    · exact absurd hp hpast
  · exact scan_returns hi (Nat.zero_le i) hp (fun j hj => head_none hj hempty) hhead

/-- The owner's connection `c` from its `connect` to its reply. -/
def ownerEvents (c : ConnId) : List Event :=
  [.client (.connect 0 ⟨⟨1000⟩⟩), .client (.write c (frameBytes 0)), .main (.poll false),
    .main .accept, .main (.credentials true), .main (.read (.bytes 4)), .main (.read .check),
    .main (.stamp 0), .main .connect, .main (.write (.bytes 5)), .router (.write (frameBytes 2)),
    .main (.read (.bytes 4)), .main (.read (.bytes 2)), .main (.read .check),
    .main (.write (.bytes 6))]

/-- The component's connection waits before the owner's is made. -/
theorem owner_overtakes : ∃ s t log,
    (machine ownerDeployment).run (initial ownerDeployment .ready)
      [.client (.connect 1 ⟨⟨0⟩⟩)] = some (s, [.connected 0 1 ⟨⟨0⟩⟩]) ∧
    t.waiting 1 = some 0 ∧
    acceptedFrom t.queues (· < 1) log+t.queues.backlog (· < 1) =
      s.queues.backlog (· < 1)+connectedTo (· < 1) log ∧
    acceptedFrom t.queues (1 < ·) log ≤ 1 ∧
    (¬ Past s 1 → acceptedFrom t.queues (1 < ·) log = 0) ∧
    (t.phase = .scanning 0 → t.queues.backlog (· < 1) = 0 →
      ∃ u, (machine ownerDeployment).run t (List.replicate (1+1) (.main .accept)) =
        some (u, [.accepted 0])) :=
  ⟨_, _, _, rfl, @overtaken_by_earlier ownerDeployment _ _ 1 0 (ownerEvents 1) _
    (by decide) rfl rfl rfl⟩

/-- Of two bindings, the first returns two connections while one waits at the second. -/
theorem component_overtaken_twice : ∃ s t log,
    (machine ownerDeployment).run (initial ownerDeployment .ready)
      [.client (.connect 1 ⟨⟨0⟩⟩)] = some (s, [.connected 0 1 ⟨⟨0⟩⟩]) ∧
    s.waiting 1 = some 0 ∧
    (machine ownerDeployment).run s (ownerEvents 1 ++ ownerEvents 2) = some (t, log) ∧
    acceptedFrom t.queues (· == 1) log = 0 ∧
    ownerDeployment.bindings.length-1 < acceptedFrom t.queues (· != 1) log :=
  ⟨_, _, _, rfl, rfl, rfl, rfl, by decide⟩

end PersonaMessage.IngressMachine
