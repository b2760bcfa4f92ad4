import Promtact.Adapter.Session
import Promtact.Dst.Turns
import Promtact.Dst.Schedule

/-!
# Runs of an adapter (`internal/adapterhost/runner.go`)

A runner is the engine of `Promtact.Dst` with a session for its cluster. A call of the session that
fails is a panic of the engine, which the runner recovers from: the session stays as the failed call
leaves it, and the run may go on.

`adapter_replies_attributed` is about every run: the session is opened on any stream of bytes, and
calls of the session and steps of the runner follow in any order, also after failed ones.
-/

namespace Promtact.Adapter

open Refine Dst

variable {ω ρ α : Type}

/-- `callbackFailure`, with the session as the call leaves it. -/
structure CallbackFailure (ω : Type) where
  operation : String
  err : Failure
  session : Session ω

/-- A call of the target by the simulator. A failure carries the session it leaves. -/
def callback (operation : String) (x : SessionM ω α) (s : Session ω) :
    Except (CallbackFailure ω) (α × Session ω) :=
  match x s with
  | .ok a s' => .ok (a, s')
  | .error err s' => .error { operation, err, session := s' }

/-- `Runner`. -/
abbrev Runner (ω ρ : Type) := Dst.Run (Session ω) Message ρ

/-- `NewRunner`. -/
def newRunner (rand : Dst.Rand ρ) (c : Config) (s : Session ω) : Except Failure (Runner ω ρ) :=
  if s.closed then .error .closed else .ok (.new rand c s)

/-- What `StepChecked` returns. A step that panics in `Int63n` does so in the caller. A step need
not end: `running` is one that has made all the deliveries it was given. -/
inductive StepResult where
  | ok
  | violation (v : Violation) (step : Nat) (trace : List UInt8)
  | failed (operation : String) (err : Failure) (step : Nat) (trace : List UInt8)
  | panicked
  | running

/-- What is done to a session with a runner. `feed` is what the adapter writes after its stream had
run dry. -/
inductive HostAct where
  | call (c : Call)
  | step (passes : Nat)
  | inject (injectors : List Injector)
  | feed (bytes : List UInt8)

section Program

variable (json : Json) (sink : Sink ω) (rand : Dst.Rand ρ) (sha256 : List UInt8 → List UInt8)

/-- `clusterBridge`. The nodes of a session do not change after `Open`, so they are those that
`NewRunner` has copied. -/
def bridge : Protocol (Session ω) Message (CallbackFailure ω) where
  nodes s := s.nodes
  tick id s := (callback ("tick node " ++ toString id) (Session.tick json sink id) s).map (·.2)
  deliver id m s :=
    (callback ("deliver to node " ++ toString id) (Session.deliver json sink id m) s).map (·.2)
  drain id s := callback ("drain node " ++ toString id) (Session.drain json sink id) s
  route m := (m.src, m.dst)
  digest m := (m.kind, m.value)

/-- `StepChecked`: a step of the simulator, then the check of the invariants. -/
def stepChecked (passes : Nat) (r : Runner ω ρ) : StepResult × Runner ω ρ :=
  match Run.step (bridge json sink) rand sha256 passes r with
  | .error (.panic f) r' =>
    (.failed f.operation f.err r'.now r'.trace, { r' with cluster := f.session })
  | .error .int63n r' => (.panicked, r')
  | .error .passes r' => (.running, r')
  | .ok _ r' =>
    match Session.check json sink r'.cluster with
    | .error e s => (.failed "check invariants" e r'.now r'.trace, { r' with cluster := s })
    | .ok (some v) s => (.violation v r'.now r'.trace, { r' with cluster := s })
    | .ok none s => (.ok, { r' with cluster := s })

/-- The session after a call, however it ends. -/
def afterCall (s : Session ω) (c : Call) : Session ω := finalState (c.exec json sink s)

/-- What an act of the host does to the runner. -/
def perform (r : Runner ω ρ) : HostAct → Runner ω ρ
  | .call c => { r with cluster := afterCall json sink r.cluster c }
  | .step passes => (stepChecked json sink rand sha256 passes r).2
  | .inject injectors => Run.inject injectors r
  | .feed bytes => { r with cluster := { r.cluster with input := r.cluster.input ++ bytes } }

end Program

variable {json : Json} {sink : Sink ω} {rand : Dst.Rand ρ} {sha256 : List UInt8 → List UInt8}

/-! ## The calls of the engine -/

theorem callback_moves {operation : String} {x : SessionM ω α} (h : Made Session.Move x)
    {s s' : Session ω} {a : α} (hx : callback operation x s = .ok (a, s')) :
    Relation.ReflTransGen Session.Move s s' := by
  have hfinal := h.final s
  unfold callback at hx
  split at hx
  · rename_i hr
    cases hx
    rw [hr] at hfinal
    exact hfinal
  · cases hx

theorem callback_fails {operation : String} {x : SessionM ω α} (h : Made Session.Move x)
    {s : Session ω} {f : CallbackFailure ω} (hx : callback operation x s = .error f) :
    Relation.ReflTransGen Session.Move s f.session := by
  have hfinal := h.final s
  unfold callback at hx
  split at hx
  · cases hx
  · rename_i hr
    cases hx
    rw [hr] at hfinal
    exact hfinal

theorem drain_made (node : Nat) : Made Session.Move (Session.drain json sink node) := fun s =>
  (Session.drain_moves node s).mono fun _ _ _ _ h => h.1

theorem map_snd_ok {x : Except (CallbackFailure ω) (Unit × Session ω)} {s : Session ω}
    (h : x.map (·.2) = .ok s) : x = .ok ((), s) := by
  cases x with
  | ok p =>
    cases h
    rfl
  | error f => cases h

theorem map_snd_error {x : Except (CallbackFailure ω) (Unit × Session ω)} {f : CallbackFailure ω}
    (h : x.map (·.2) = .error f) : x = .error f := by
  cases x with
  | ok p => cases h
  | error f' => exact congrArg Except.error (Except.error.inj h)

/-- What a drain returns. -/
theorem bridge_drain {id : Nat} {s s' : Session ω} {out : List Message}
    (h : (bridge json sink).drain id s = .ok (out, s')) : ∀ m ∈ out, Session.Drawn s' m := by
  replace h : callback _ (Session.drain json sink id) s = .ok (out, s') := h
  unfold callback at h
  split at h
  · rename_i hr
    cases h
    obtain ⟨_, -, rfl, hdrawn⟩ := (Session.drain_moves id s).ok hr
    exact hdrawn
  · cases h

/-- A call that fails leaves the session in a state that it has moved to. -/
theorem refuses_moves {s : Session ω} {f : CallbackFailure ω}
    (h : Run.Refuses (bridge json sink) s f) : Relation.ReflTransGen Session.Move s f.session := by
  cases h with
  | tick id h => exact callback_fails (Session.tick_made id) (map_snd_error h)
  | drain id h => exact callback_fails (drain_made id) h
  | deliver dst m h => exact callback_fails (Session.deliver_made dst m) (map_snd_error h)

/-! ## What is in the schedule -/

/-- The event is the message on its own route, and the message came from a drain of its sender. -/
structure Routed (s : Session ω) (ev : Event Message) : Prop where
  src : ev.src = ev.msg.src
  dst : ev.dst = ev.msg.dst
  drawn : Session.Drawn s ev.msg

/-- The session is sound, and all that was scheduled is routed. -/
structure Orderly (r : Runner ω ρ) : Prop where
  session : Session.Sound r.cluster
  scheduled : ∀ ev ∈ r.scheduled, Routed r.cluster ev
  queue : ∀ ev ∈ r.queue, ev ∈ r.scheduled

theorem Orderly.moves {r : Runner ω ρ} {s : Session ω} (h : Orderly r)
    (hm : Relation.ReflTransGen Session.Move r.cluster s) : Orderly { r with cluster := s } := by
  refine ⟨h.session.moves hm, fun ev hev => ?_, h.queue⟩
  have hev := h.scheduled ev hev
  exact ⟨hev.src, hev.dst, hev.drawn.extends (Session.moves_extend hm)⟩

theorem Orderly.log {r : Runner ω ρ} (h : Orderly r) (m : Message) (fate : Fate) (rng : ρ) :
    Orderly (r.log m fate none rng) := by
  have hs := Run.scheduled_log r m fate none rng
  rw [Option.toList_none, List.append_nil] at hs
  exact ⟨h.session, hs ▸ h.scheduled, hs ▸ h.queue⟩

/-- A message that was drawn is settled. -/
theorem Orderly.settle {r : Runner ω ρ} (h : Orderly r) {m : Message}
    (hm : Session.Drawn r.cluster m) : Orderly (Run.settle (bridge json sink) rand m r) ∧
      (Run.settle (bridge json sink) rand m r).cluster = r.cluster := by
  refine Run.settle_cases (bridge json sink) rand m r
    (Q := fun r' => Orderly r' ∧ r'.cluster = r.cluster)
    (fun fate rng _ _ => ⟨h.log m fate rng, rfl⟩) (fun d rng i _ _ _ => ?_) (fun d rng _ _ => ?_)
  · have hlog := h.log m (.delayed d) rng
    exact ⟨⟨hlog.session, hlog.scheduled, hlog.queue⟩, rfl⟩
  · have hs := Run.scheduled_log r m (.delayed d) (some (Run.entry (bridge json sink) m d r)) rng
    refine ⟨⟨h.session, fun ev hev => ?_, fun ev hev => ?_⟩, rfl⟩
    · replace hev : ev ∈ (r.log m (.delayed d) _ rng).scheduled := hev
      rw [hs] at hev
      rcases List.mem_append.mp hev with hev | hev
      · exact h.scheduled ev hev
      · rw [Option.toList_some, List.mem_singleton] at hev
        subst hev
        exact ⟨rfl, rfl, hm⟩
    · show ev ∈ (r.log m (.delayed d) _ rng).scheduled
      rw [hs]
      rcases List.mem_cons.mp ((Heap.push_perm _ _).subset hev) with rfl | hev
      · exact List.mem_append_right _ List.mem_cons_self
      · exact List.mem_append_left _ (h.queue ev hev)

theorem Orderly.settles {out : List Message} {r : Runner ω ρ} (h : Orderly r)
    (hout : ∀ m ∈ out, Session.Drawn r.cluster m) :
    Orderly (out.foldl (fun r m => Run.settle (bridge json sink) rand m r) r) := by
  induction out generalizing r with
  | nil => exact h
  | cons m rest ih =>
    obtain ⟨hm, hrest⟩ := List.forall_mem_cons.mp hout
    obtain ⟨hsettle, hcluster⟩ : Orderly (Run.settle (bridge json sink) rand m r) ∧ _ := h.settle hm
    exact ih hsettle fun m' hm' => hcluster ▸ hrest m' hm'

theorem Orderly.turn {r r' : Runner ω ρ} (h : Orderly r)
    (ht : Run.Turn (bridge json sink) rand sha256 r r') : Orderly r' := by
  cases ht with
  | time => exact ⟨h.session, h.scheduled, h.queue⟩
  | tick id s hs => exact h.moves (callback_moves (Session.tick_made id) (map_snd_ok hs))
  | deliver dst m s hs =>
    exact h.moves (callback_moves (Session.deliver_made dst m) (map_snd_ok hs))
  | drain id out settled s hs hfirst =>
    refine (h.moves (callback_moves (drain_made id) hs)).settles fun m hm => ?_
    exact bridge_drain hs m (hfirst.subset hm)
  | take ev queue hdue =>
    refine ⟨h.session, h.scheduled, fun ev' hev' => h.queue ev' ?_⟩
    exact (Heap.pop_perm (Run.due_some hdue).1).subset (List.mem_cons_of_mem _ hev')

theorem Orderly.turns {r r' : Runner ω ρ} (h : Orderly r)
    (ht : Relation.ReflTransGen (Run.Turn (bridge json sink) rand sha256) r r') : Orderly r' := by
  induction ht with
  | refl => exact h
  | tail _ ht ih => exact ih.turn ht

theorem Orderly.stepChecked {r : Runner ω ρ} (h : Orderly r) (passes : Nat) :
    Orderly (stepChecked json sink rand sha256 passes r).2 := by
  have hend : Orderly (finalState (Run.step (bridge json sink) rand sha256 passes r)) :=
    h.turns ((Run.step_turns passes).final r)
  unfold Adapter.stepChecked
  split
  · rename_i f r' hr
    rw [hr] at hend
    exact Orderly.moves hend (refuses_moves (Run.step_panics passes _ _ _ hr))
  · rename_i hr
    rw [hr] at hend
    exact hend
  · rename_i hr
    rw [hr] at hend
    exact hend
  · rename_i r' hr
    rw [hr] at hend
    have hcheck : Relation.ReflTransGen Session.Move r'.cluster
      (finalState (Session.check json sink r'.cluster)) := Session.check_made.final _
    split
    all_goals
      rename_i hc
      rw [hc] at hcheck
      exact Orderly.moves hend hcheck

theorem afterCall_moves (s : Session ω) (c : Call) :
    Relation.ReflTransGen Session.Move s (afterCall json sink s c) :=
  c.exec_made.final s

theorem Orderly.perform {r : Runner ω ρ} (h : Orderly r) (act : HostAct) :
    Orderly (perform json sink rand sha256 r act) := by
  cases act with
  | call c => exact h.moves (afterCall_moves r.cluster c)
  | step passes => exact h.stepChecked passes
  | inject injectors => exact ⟨h.session, h.scheduled, h.queue⟩
  | feed bytes => exact h.moves (.single (.feed r.cluster bytes))

theorem Orderly.play {r : Runner ω ρ} (h : Orderly r) (acts : List HostAct) :
    Orderly (acts.foldl (Adapter.perform json sink rand sha256) r) := by
  induction acts generalizing r with
  | nil => exact h
  | cons act rest ih => exact ih (h.perform act)

/-- Every state of a session that was opened. -/
theorem sound_calls {s : Session ω} (h : Session.Sound s) (calls : List Call) :
    Session.Sound (calls.foldl (afterCall json sink) s) := by
  induction calls generalizing s with
  | nil => exact h
  | cons c rest ih => exact ih (h.moves (afterCall_moves s c))

theorem Routed.deliverable {s : Session ω} {ev : Event Message} (h : Routed s ev) :
    Session.deliverable ev.dst ev.msg s = .ok () := by
  have hdst : Session.requireNode ev.dst s = .ok () :=
    Session.requireNode_ok.mpr (h.dst ▸ h.drawn.dst)
  have hsrc : Session.requireNode ev.msg.src s = .ok () := Session.requireNode_ok.mpr h.drawn.src
  unfold Session.deliverable
  rw [hdst, hsrc, h.dst]
  simp only [ne_eq, not_true_eq_false, if_false]
  rfl

/-- A call that succeeds, `Open` included, has read the response to the one request it has written
from the stream, or closes a session that is closed. In every run the numbers of the requests
increase and are not 0, and what is scheduled came from a drain of its sender, is between nodes of
the one hello, and passes the checks of `Deliver`. -/
theorem adapter_replies_attributed (json : Json) (sink : Sink ω) :
    (∀ seed (s s' : Session ω), Session.openSession json sink seed s = .ok () s' →
      ∃ q p frame, Correlated json .hello s s' q p frame) ∧
    (∀ (call : Call) (s s' : Session ω), call.exec json sink s = .ok () s' →
      call = .close ∧ s.closed = true ∧ s' = s ∨
        ∃ q p frame, Correlated json call.op s s' q p frame) ∧
    ∀ {ρ : Type} (rand : Dst.Rand ρ) (sha256 : List UInt8 → List UInt8) (c : Config) (seed : Int)
      (input : List UInt8) (w : ω) (s : Session ω) (calls : List Call) (r : Runner ω ρ)
      (acts : List HostAct), Session.openSession json sink seed { input, sink := w } = .ok () s →
      newRunner rand c (calls.foldl (afterCall json sink) s) = .ok r →
      let r' := acts.foldl (perform json sink rand sha256) r
      (r'.cluster.written.map (·.id)).Pairwise (· < ·) ∧ (∀ q ∈ r'.cluster.written, q.id ≠ 0) ∧
      (∀ a ∈ r'.cluster.accepted, a.1 ∈ r'.cluster.written ∧ Answers a.1 a.2) ∧
      (∀ ev ∈ r'.queue, ev ∈ r'.scheduled) ∧
      ∃ q p hello, Session.hellos r'.cluster.accepted = [(q, p)] ∧ p.hello = some hello ∧
        ∀ ev ∈ r'.scheduled, ev.src = ev.msg.src ∧ ev.dst = ev.msg.dst ∧
          (∃ a ∈ r'.cluster.accepted, a.1.op = .drain ∧ a.1.node = some ev.msg.src ∧
            ev.msg ∈ a.2.messages) ∧
          ev.msg.src ∈ hello.nodes ∧ ev.msg.dst ∈ hello.nodes ∧
          Session.deliverable ev.dst ev.msg r'.cluster = .ok () := by
  refine ⟨fun seed s s' h => ?_, fun call s s' h => (call.success s).ok h, ?_⟩
  · obtain ⟨p, s₁, hello, hanswer, -, rfl⟩ := (Session.openSession_spec seed s).ok h
    obtain ⟨q, frame, hc⟩ := correlated_of_answered hanswer
    exact ⟨q, p, frame, hc.written, hc.request, hc.read, hc.frame, hc.response⟩
  · intro ρ rand sha256 c seed input w s calls r acts hopen hnew r'
    have hstart : Orderly r := by
      unfold newRunner at hnew
      split at hnew
      · cases hnew
      · cases hnew
        exact ⟨sound_calls (Session.openSession_sound hopen) calls,
          fun ev hev => (List.not_mem_nil hev).elim, fun ev hev => (List.not_mem_nil hev).elim⟩
    have h : Orderly r' := hstart.play acts
    obtain ⟨q, p, hello, hone, hbody, hnodes⟩ := h.session.hello
    refine ⟨h.session.numbered.ids, h.session.numbered.nonzero, h.session.answers, h.queue, q, p,
      hello, hone, hbody, fun ev hev => ?_⟩
    have hev := h.scheduled ev hev
    exact ⟨hev.src, hev.dst, hev.drawn.origin, hnodes ▸ hev.drawn.src, hnodes ▸ hev.drawn.dst,
      hev.deliverable⟩

section Runs

/-- An adapter that sends the responses of a list, the k-th as a frame with the byte k. -/
def scripted (responses : List Response) : Json where
  marshal q := .ok [q.id.toUInt8]
  unmarshal
    | [k] => match responses[k.toNat]? with
      | some p => .ok p
      | none => .error "end of script"
    | _ => .error "not a frame of the script"

/-- The stream of that adapter. -/
def stream (n : Nat) : List UInt8 := (List.range n).flatMap fun k => [0, 0, 0, 1, k.toUInt8]

/-- A writer that takes everything. -/
def taking : Sink Unit := ⟨fun data _ => ((data.length, none), ())⟩

/-- One node, which sends a message to itself. -/
def loopback : List Response :=
  [{ version := 1, id := 1, op := .hello, hello := some { nodes := [1] } },
    { version := 1, id := 2, op := .tick },
    { version := 1, id := 3, op := .drain, messages := [{ src := 1, dst := 1, kind := 7, value := 9 }] },
    { version := 1, id := 4, op := .deliver },
    { version := 1, id := 5, op := .drain },
    { version := 1, id := 6, op := .check }]

/-- The session after `Open`. -/
def opened (responses : List Response) : Session Unit :=
  finalState (Session.openSession (scripted responses) taking 0
    { input := stream responses.length, sink := () })

theorem opened_loopback : Session.openSession (scripted loopback) taking 0
    { input := stream loopback.length, sink := () } = .ok () (opened loopback) :=
  eq_ok_of_returned (by decide +kernel)

/-- A step of the runner in which the message is drained and delivered. -/
theorem adapter_replies_attributed_loopback :
    ∃ r' : Runner Unit Nat, r' = [HostAct.step 9].foldl
        (perform (scripted loopback) taking Run.counting id)
        (.new Run.counting ⟨0, 0, 0⟩ (opened loopback)) ∧
      r'.scheduled.length = 1 ∧ r'.cluster.written.map (·.id) = [1, 2, 3, 4, 5, 6] ∧
      (r'.cluster.written.map (·.id)).Pairwise (· < ·) ∧
      ∀ ev ∈ r'.scheduled, Session.deliverable ev.dst ev.msg r'.cluster = .ok () := by
  have hopen : ¬(opened loopback).closed = true := by decide +kernel
  have hnew : newRunner Run.counting ⟨0, 0, 0⟩ ([].foldl (afterCall (scripted loopback) taking)
      (opened loopback)) = .ok (.new Run.counting ⟨0, 0, 0⟩ (opened loopback)) := by
    rw [newRunner, List.foldl_nil, if_neg hopen]
  have h := (adapter_replies_attributed (scripted loopback) taking).2.2 Run.counting id ⟨0, 0, 0⟩ 0 _
    () _ [] _ [.step 9] opened_loopback hnew
  have hrouted := h.2.2.2.2
  refine ⟨_, rfl, by decide +kernel, by decide +kernel, h.1, ?_⟩
  -- The run must not be evaluated below.
  generalize [HostAct.step 9].foldl (perform (scripted loopback) taking Run.counting id)
    (.new Run.counting ⟨0, 0, 0⟩ (opened loopback)) = r' at hrouted ⊢
  obtain ⟨q, p, hello, -, -, hall⟩ := hrouted
  exact fun ev hev => (hall ev hev).2.2.2.2.2

/-- An adapter that is opened and closed. -/
def shortLived : List Response :=
  [{ version := 1, id := 1, op := .hello, hello := some { nodes := [1] } },
    { version := 1, id := 2, op := .close }]

theorem opened_shortLived : Session.openSession (scripted shortLived) taking 0
    { input := stream shortLived.length, sink := () } = .ok () (opened shortLived) :=
  eq_ok_of_returned (by decide +kernel)

theorem close_closed {s : Session ω} (h : s.closed = true) : Session.close json sink s = .ok () s := by
  show (ite _ _ _ : SessionM ω Unit) s = _
  rw [if_pos h]
  rfl

/-- A second `Close` succeeds, and neither writes nor reads. -/
theorem second_close_exchanges_nothing :
    ∃ s₁ s₂ : Session Unit, Session.openSession (scripted shortLived) taking 0
        { input := stream shortLived.length, sink := () } = .ok () s₁ ∧
      Call.close.exec (scripted shortLived) taking s₁ = .ok () s₂ ∧
      s₂.written.map (·.id) = [1, 2] ∧ Call.close.exec (scripted shortLived) taking s₂ = .ok () s₂ :=
  ⟨_, _, opened_shortLived, eq_ok_of_returned (by decide +kernel), by decide +kernel,
    close_closed (by decide +kernel)⟩

end Runs

end Promtact.Adapter
