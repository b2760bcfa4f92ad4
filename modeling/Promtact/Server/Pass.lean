import Promtact.Server.Shadow

/-!
# A pass of the loop, and its shadow

A pass of the loop of server `i` is matched by moves of node `i` in the shadow. `Mid` holds at any
point of a pass, and `Fell` if the pass ends with a panic or a storage error. There is one
simulation for each part of the loop; `Mid.iterate` is that of the whole pass.
-/

namespace Promtact.Service

open Raft Protocol StateMachine Refine Network Consensus

variable {S : Setup Disk} {i : Nat} {g g' : Shadow} {items : List Item} {s : Server}

/-! ## Events of the shadow -/

variable (S) in
/-- The shadow makes one event of node `i`, which turns `p` into `p'`. -/
structure Goes (i : Nat) (e : Raft.Event) (p p' : Raft.Proc Disk) (out : List Message)
    (g g' : Shadow) : Prop where
  moves : Moves S i g g'
  next : g.distinct = true → g.reading.next S i e = some g'.reading
  proc : g'.reading.cluster.procs i = some p'
  sent : g'.reading.cluster.sent = g.reading.cluster.sent ++ out
  used : ∀ r ∈ g'.reading.used, r ∈ g.reading.used ∨ ∃ context, e.read p = some context ∧ r = (i, context)

theorem Shadow.Sound.event (h : g.Sound S) {e : Raft.Event} {p p' : Raft.Proc Disk} {out : List Message}
    (hp : g.reading.cluster.procs i = some p)
    (hact : S.act i e p g.reading.cluster.sent = some (p', out)) (hfix : e.fixedMembership = true)
    (hcalm : g.compacts = false → e.noCompaction = true)
    (hread : g.distinct = true → ∀ context, e.read p = some context →
      (i, context) ∉ g.reading.used) :
    ∃ g', Goes S i e p p' out g g' := by
  have hnet : g.reading.cluster.next S.act i e = some
      ⟨Function.update g.reading.cluster.procs i (some p'), g.reading.cluster.sent ++ out⟩ := by
    rw [Net.next, hp, Option.bind_some, hact]
    rfl
  have hnext : g.distinct = true → g.reading.next S i e = some
      ⟨⟨Function.update g.reading.cluster.procs i (some p'), g.reading.cluster.sent ++ out⟩,
        ((e.read p).map (i, ·)).toList ++ g.reading.used⟩ := by
    intro hd
    have hfresh : ∀ r ∈ ((e.read p).map (i, ·)).toList, r ∉ g.reading.used := by
      intro r hr
      obtain ⟨context, hc, rfl⟩ := Option.map_eq_some_iff.mp (Option.mem_toList.mp hr)
      exact hread hd context hc
    unfold Reading.next
    rw [hp, Option.bind_some]
    dsimp only
    rw [if_pos ⟨hfix, hfresh⟩, hnet]
    rfl
  obtain ⟨w, hext, hrises, hknown⟩ := h.known.fixed (.single ⟨i, e, p, hp, hfix, hnet⟩)
  have hreads : g.distinct = true → Reading.Runs S g.reading _ := fun hd =>
    .single ⟨i, e, hnext hd⟩
  refine ⟨⟨_, w, g.compacts, g.distinct⟩, ⟨rfl, rfl, hreads, hext, hrises, ?_, fun j hj => ?_⟩, hnext,
    Function.update_self .., rfl, fun r hr => ?_⟩
  · exact ⟨h.run.tail ⟨i, e, p, hp, hfix, hnet⟩,
      fun hc => (h.calm hc).tail ⟨i, e, p, hp, hcalm hc, hnet⟩,
      fun hd => (h.reads hd).trans (hreads hd), hknown⟩
  · exact Function.update_of_ne hj ..
  · rcases List.mem_append.mp hr with hr | hr
    · obtain ⟨context, hc, rfl⟩ := Option.map_eq_some_iff.mp (Option.mem_toList.mp hr)
      exact .inr ⟨context, hc, rfl⟩
    · exact .inl hr

/-! ## The states of a pass -/

variable (S) in
/-- The shadow in a pass that was started with `items` and has given out `out`. -/
structure Along (items : List Item) (g : Shadow) (out : List Item) : Prop where
  sound : g.Sound S
  sent : g.reading.cluster.sent = peersOf (items ++ out)
  used : ∀ r ∈ g.reading.used, r ∈ readsOn items
  shown : ∀ x ∈ out, Shows S items g x

variable (S) in
/-- The pass goes on. -/
structure Mid (items : List Item) (i : Nat) (g : Shadow) (s : Server) : Prop where
  along : Along S items g s.out
  proc : g.reading.cluster.procs i = some (.up s.node)
  running : Running S items g i s

variable (S) in
/-- The pass has ended the loop. -/
structure Fell (items : List Item) (i : Nat) (g : Shadow) (s : Server) : Prop where
  along : Along S items g s.out
  proc : g.reading.cluster.procs i = some (.down s.node.store)
  resting : Resting items g.world i s.node.store

variable (S) in
/-- The method is matched by moves of the cluster behind the server. -/
abbrev Passes {α : Type} (items : List Item) (i : Nat) (g : Shadow) (x : ServerM α) (s : Server)
    (Q : α → Shadow → Server → Prop) : Prop := Sim (Moves S i) (Fell S items i) g x s Q

theorem Along.goes {e : Raft.Event} {p p' : Raft.Proc Disk} {out : List Item} (h : Along S items g out)
    (hg : Goes S i e p p' [] g g')
    (hread : ∀ context, e.read p = some context → (i, context) ∈ readsOn items) :
    Along S items g' out where
  sound := hg.moves.sound
  sent := by rw [hg.sent, List.append_nil, h.sent]
  used r hr := by
    rcases hg.used r hr with hr | ⟨context, hc, rfl⟩
    · exact h.used r hr
    · exact hread context hc
  shown x hx := (h.shown x hx).moves h.sound hg.moves

/-- Responses are given out. -/
theorem Along.answer {out more : List Item} (h : Along S items g out)
    (hmore : ∀ x ∈ more, ∃ reply response, x = .answered reply response ∧ Shows S items g x) :
    Along S items g (out ++ more) where
  sound := h.sound
  sent := by
    have hnil : peersOf more = [] := by
      refine List.filterMap_eq_nil_iff.mpr fun x hx => ?_
      obtain ⟨reply, response, rfl, -⟩ := hmore x hx
      rfl
    rw [h.sent, ← List.append_assoc, peersOf_append (items ++ out), hnil, List.append_nil]
  used := h.used
  shown x hx := (List.mem_append.mp hx).elim (h.shown x) fun hx => by
    obtain ⟨_, _, -, hs⟩ := hmore x hx
    exact hs

namespace Mid

theorem rep (h : Mid S items i g s) : Rep compacting S.voters g.world i s.node :=
  h.along.sound.rep h.proc

theorem le_commit (h : Mid S items i g s) : s.node.commit ≤ g.world.commit i := h.rep.bounds.2.2

theorem applied_le (h : Mid S items i g s) : s.node.applied ≤ g.world.commit i :=
  h.rep.bounds.2.1.trans h.le_commit

/-- What the node has committed now will be past. -/
theorem past (h : Mid S items i g s) {response : ClientResponse}
    (hc : response.commit = s.node.commit) (hd : g.distinct = true) : Past S g.reading response :=
  ⟨g.reading, i, s.node, h.along.sound.reads hd, .refl, by rw [nodeAt, h.proc], hc.le⟩

/-- The server gives out responses. -/
theorem answer (h : Mid S items i g s) {more : List Item}
    (hmore : ∀ x ∈ more, ∃ reply response, x = .answered reply response ∧ Shows S items g x) :
    Mid S items i g { s with out := s.out ++ more } :=
  ⟨h.along.answer hmore, h.proc, ⟨h.running.carries, h.running.asked, h.running.clients,
    h.running.pending, h.running.reads, h.running.calm⟩, h.running.machine⟩

end Mid

/-! ## Methods of the node -/

/-- The program is the method `op`, with its result. -/
def Makes {α : Type} (op : Op) (x : NodeM Disk α) : Prop := ∀ n, match x n with
  | .ok _ n' => op.run n = .ok () n'
  | .error e n' => op.run n = .error e n'

theorem Makes.discard {α : Type} {op : Op} {x : NodeM Disk α}
    (h : op.run = do let _ ← x; pure ()) : Makes op x := by
  intro n
  rw [h]
  show match x n with
    | .ok _ n' => EStateM.bind x (fun _ => pure ()) n = .ok () n'
    | .error e n' => EStateM.bind x (fun _ => pure ()) n = .error e n'
  unfold EStateM.bind
  cases x n <;> rfl

theorem Makes.startReadIndex (context : UInt64) :
    Makes (.startReadIndex context) (Raft.startReadIndex context) := .discard rfl

theorem Makes.proposeRequest (operation : CommandOp) (clientID requestID key value : UInt64) :
    Makes (.proposeRequest operation clientID requestID key value)
      (Raft.proposeRequest operation clientID requestID key value) := .discard rfl

theorem Makes.applyEntries : Makes .applyEntries (Raft.applyEntries []) := .discard rfl

theorem Makes.compact (index : Nat) (state : List UInt8) :
    Makes (.compact index state) (Raft.compact index state) := .discard rfl

theorem Makes.unit (op : Op) : Makes op (op.run : NodeM Disk Unit) := by
  intro n
  cases op.run n <;> rfl

/-- A method of the node is an event of the shadow. -/
theorem Mid.call {α : Type} {x : NodeM Disk α} {op : Op} {Q : α → Shadow → Server → Prop}
    (h : Mid S items i g s) (hop : Makes op x) (hfix : (Raft.Event.call op).fixedMembership = true)
    (hd : op.Deliverable i (peersOf (items ++ s.out)))
    (hcalm : g.compacts = false → (Raft.Event.call op).noCompaction = true)
    (hread : ∀ context, (Raft.Event.call op).read (.up s.node) = some context →
      (g.distinct = true → (i, context) ∉ g.reading.used) ∧ (i, context) ∈ readsOn items)
    (hbrings : op.Brings (Asked items) (Pictured items g.world i) s.node)
    (hq : ∀ a n g', x s.node = .ok a n → Goes S i (.call op) (.up s.node) (.up n) [] g g' →
      Along S items g' s.out → Carries (Asked items) (Pictured items g.world i) n →
      Q a g' { s with node := n }) :
    Passes S items i g (onNode x) s Q := by
  have hact : S.act i (.call op) (.up s.node) g.reading.cluster.sent =
      some (.after (op.run s.node), []) := by
    show (if op.Deliverable i g.reading.cluster.sent then _ else _) = _
    rw [if_pos (h.along.sent ▸ hd)]
  obtain ⟨g', hg⟩ := h.along.sound.event h.proc hact hfix hcalm fun hd c hc => (hread c hc).1 hd
  have halong := h.along.goes hg fun c hc => (hread c hc).2
  have hrun := hop s.node
  have hkeep := h.running.carries.run (h.along.sound.sane h.proc) (asked_tolerant items) hbrings
  unfold Passes Sim onNode zoom
  cases hx : x s.node with
  | ok a n =>
    rw [hx] at hrun
    dsimp only at hrun ⊢
    have hc := (hkeep.ok hrun).2
    rw [hrun] at hg
    exact ⟨g', .single hg.moves, hq a n g' hx hg halong hc⟩
  | error e n =>
    rw [hx] at hrun
    dsimp only at hrun ⊢
    have hc := hkeep.error hrun
    rw [hrun] at hg
    exact ⟨g', .single hg.moves, halong, hg.proc,
      ⟨hc.suffix, hc.snapshot.moves h.along.sound hg.moves⟩⟩

/-- A method that applies nothing. -/
theorem Mid.method {α : Type} {x : NodeM Disk α} {op : Op} (h : Mid S items i g s)
    (hop : Makes op x) (hfix : (Raft.Event.call op).fixedMembership = true)
    (hd : op.Deliverable i (peersOf (items ++ s.out)))
    (hcalm : g.compacts = false → (Raft.Event.call op).noCompaction = true)
    (hread : ∀ context, (Raft.Event.call op).read (.up s.node) = some context →
      (g.distinct = true → (i, context) ∉ g.reading.used) ∧ (i, context) ∈ readsOn items)
    (hbrings : op.Brings (Asked items) (Pictured items g.world i) s.node) (ha : op ≠ .applyEntries)
    (hi : ∀ m, op = .step m → ¬ s.node.TakesSnapshot m) :
    Passes S items i g (onNode x) s fun a g' s' => Mid S items i g' s' ∧
      Goes S i (.call op) (.up s.node) (.up s'.node) [] g g' ∧
      ∃ node, x s.node = .ok a node ∧ node.applied = s.node.applied ∧ s' = { s with node } := by
  refine h.call hop hfix hd hcalm hread hbrings fun a n g' hx hg halong hc => ?_
  have hrun := hop s.node
  rw [hx] at hrun
  have happlied := Op.applied_eq (h.along.sound.sane h.proc) hrun ha hi
  exact ⟨⟨halong, hg.proc, h.running.moves h.along.sound hg.moves h.applied_le hc happlied⟩, hg,
    n, hx, happlied, rfl⟩

/-! ## Requests -/

theorem not_settles {req : ClientRequest} {response : ClientResponse} (hok : response.status ≠ .ok)
    (hnone : response.status ≠ .notFound) : ¬ Settles req response := by
  unfold Settles
  split
  · exact fun h => h.elim hok hnone
  · exact id
  · exact hok

/-- A mutation ends with success. -/
theorem Settles.ok {req : ClientRequest} {response : ClientResponse} (h : Settles req response)
    (hget : req.operation ≠ .get) : response.status = .ok := by
  unfold Settles at h
  split at h
  · exact absurd ‹_› hget
  · exact h.elim
  · exact h

namespace Mid

theorem respond (h : Mid S items i g s) {r : Request} {status : Status} {value : UInt64}
    (ht : Told items g r.reply (s.response status r.value value)) :
    Passes S items i g (Service.respond r status value) s fun _ => Mid S items i := by
  refine Sim.seq_get (Sim.update (h.answer fun x hx => ?_))
  exact ⟨_, _, List.mem_singleton.mp hx, by rw [List.mem_singleton.mp hx]; exact ⟨ht, h.past rfl⟩⟩

/-- The server answers that it has done nothing, or does not know. -/
theorem decline (h : Mid S items i g s) {r : Request} {status : Status} {value : UInt64}
    (hask : .asked i r ∈ items) (hok : status ≠ .ok) (hnone : status ≠ .notFound) :
    Passes S items i g (Service.respond r status value) s fun _ => Mid S items i :=
  h.respond (.unsettled hask (not_settles hok hnone))

theorem handleGet {pre : List Item} {r : Request} (h : Mid S (pre ++ [.asked i r]) i g s)
    (hget : r.value.operation = .get)
    (hfresh : g.distinct = true → (i, contextID r.value) ∉ g.reading.used)
    (hpast : g.distinct = true → ∀ reply response, .answered reply response ∈ pre →
      Past S g.reading response) :
    Passes S (pre ++ [.asked i r]) i g (Service.handleGet r) s fun _ =>
      Mid S (pre ++ [.asked i r]) i := by
  have hask : .asked i r ∈ pre ++ [.asked i r] := by simp
  have hmem : (i, contextID r.value) ∈ readsOn (pre ++ [.asked i r]) :=
    List.mem_filterMap.mpr ⟨_, hask, if_pos hget⟩
  unfold Service.handleGet
  refine Sim.seq_get (Sim.ite (fun _ => h.decline hask nofun nofun) fun _ => ?_)
  refine Sim.ite (fun _ => h.decline hask nofun nofun) fun hc => ?_
  refine Sim.seq (h.method (.startReadIndex _) rfl trivial (fun _ => rfl) (fun context hread => ?_)
    trivial nofun fun _ heq => nomatch heq) ?_
  · obtain ⟨n, n', heq, -, -⟩ := Raft.Event.read_some hread
    cases heq
    exact ⟨hfresh, hmem⟩
  rintro started g' s' - ⟨h', hgoes, n, -, -, rfl⟩
  refine Sim.ite (fun _ => Sim.update ⟨h'.along, h'.proc, { h'.running with reads := ?_ }⟩) fun _ =>
    h'.decline hask nofun nofun
  intro read hr
  rcases List.mem_append.mp hr with hr | hr
  · exact h'.running.reads read hr
  · rw [List.mem_singleton.mp hr]
    refine ⟨hget, hc, pre, [], rfl, fun hd => ?_⟩
    have hd' : g.distinct = true := hgoes.moves.distinct ▸ hd
    exact ⟨g.reading, g'.reading, h.along.sound.reads hd', hgoes.next hd', .refl, hpast hd'⟩

/-- The record of a client answers a request that was executed before. -/
theorem told_cached (h : Mid S items i g s) (ha : s.node.applied = s.node.commit) {r : Request}
    (hask : .asked i r ∈ items) (hget : r.value.operation ≠ .get) {result : Result}
    (hc : s.machine.cached r.value.clientID r.value.requestID = .ok (some result)) :
    Told items g r.reply (s.response .ok r.value result.value) := by
  obtain ⟨pre, post, heq⟩ := List.append_of_mem hask
  refine ⟨i, r, pre, post, heq, rfl, fun _ hg => absurd hg hget, fun hlt _ => ?_⟩
  obtain ⟨hcom, hlen⟩ := h.along.sound.committed h.applied_le
  rw [h.running.machine (ha ▸ hlt)] at hc
  exact ⟨_, hcom, hlen.trans ha, h.running.asked, fun hg => absurd hg hget, fun hg => absurd hg hget,
    fun _ => executed_of_cached (supported_commandsOf h.running.asked) hc⟩

theorem handleMutation (h : Mid S items i g s) (ha : s.node.applied = s.node.commit) {r : Request}
    (hask : .asked i r ∈ items) (hget : r.value.operation ≠ .get) :
    Passes S items i g (Service.handleMutation r) s fun _ => Mid S items i := by
  have hawait : Waits items i (r.value.clientID, r.value.requestID) r.reply :=
    ⟨r, hask, rfl, rfl, hget⟩
  unfold Service.handleMutation
  refine Sim.seq_get (Sim.ite (fun _ => h.decline hask nofun nofun) fun hid => ?_)
  split
  · exact h.decline hask nofun nofun
  · exact h.respond (h.told_cached ha hask hget ‹_›)
  split
  · -- the channel joins those that wait already
    refine Sim.update ⟨h.along, h.proc, { h.running with clients := ?_, pending := ?_ }⟩
    · intro p hp
      obtain ⟨q, hq, rfl⟩ := List.mem_map.mp hp
      exact h.running.clients q hq
    · intro p hp reply hr
      obtain ⟨⟨k, waiters⟩, hq, rfl⟩ := List.mem_map.mp hp
      dsimp only at hr ⊢
      split at hr
      · rename_i hk
        rcases List.mem_append.mp hr with hr | hr
        · exact h.running.pending _ hq reply hr
        · rw [List.mem_singleton.mp hr, hk]
          exact hawait
      · exact h.running.pending _ hq reply hr
  split
  · exact h.decline hask nofun nofun
  rename_i operation hop
  refine Sim.seq (h.method (.proposeRequest _ _ _ _ _) rfl trivial (fun _ => rfl) nofun
    (fun _ _ => ?_) nofun fun _ heq => nomatch heq) ?_
  · exact .inr ⟨i, r, hask, hop, rfl, rfl, rfl, rfl⟩
  rintro proposed g' s' - ⟨h', -, n, -, -, rfl⟩
  refine Sim.ite (fun _ => Sim.update ⟨h'.along, h'.proc, { h'.running with
    clients := ?_, pending := ?_ }⟩) fun _ => h'.decline hask nofun nofun
  · intro p hp
    rcases List.mem_cons.mp hp with rfl | hp
    · exact fun h0 => hid (.inl h0)
    · exact h'.running.clients p hp
  · intro p hp reply hr
    rcases List.mem_cons.mp hp with rfl | hp
    · rw [List.mem_singleton.mp hr]
      exact hawait
    · exact h'.running.pending p hp reply hr

theorem handleRequest {pre : List Item} {r : Request} (h : Mid S (pre ++ [.asked i r]) i g s)
    (ha : s.node.applied = s.node.commit)
    (hfresh : g.distinct = true → r.value.operation = .get →
      (i, contextID r.value) ∉ g.reading.used)
    (hpast : g.distinct = true → ∀ reply response, .answered reply response ∈ pre →
      Past S g.reading response) :
    Passes S (pre ++ [.asked i r]) i g (Service.handleRequest r) s fun _ =>
      Mid S (pre ++ [.asked i r]) i := by
  have hask : .asked i r ∈ pre ++ [.asked i r] := by simp
  unfold Service.handleRequest
  refine Sim.seq_get (Sim.ite (fun hst => h.respond (.unsettled hask ?_)) fun _ => ?_)
  · rw [Settles, hst]
    exact id
  refine Sim.ite (fun _ => h.decline hask nofun nofun) fun _ => ?_
  exact Sim.ite (fun hget => h.handleGet hget (fun hd => hfresh hd hget) hpast) fun hget =>
    h.handleMutation ha hask hget

/-! ## The rest of the pass -/

theorem message (h : Mid S items i g s) (hout : s.out = []) {m : Message} (hm : .peer m ∈ items)
    (hdst : m.dst = i) (hno : ¬ s.node.TakesSnapshot m)
    (hask : m.hasEntry = true → Asked items m.entry) :
    Passes S items i g (onNode (Raft.step m)) s fun _ => Mid S items i := by
  refine (h.method (.unit (.step m)) rfl ⟨?_, hdst⟩ (fun _ => rfl) nofun
    ⟨hask, fun ht => absurd ht hno⟩ nofun ?_).mono ?_
  · rw [hout, List.append_nil]
    exact mem_peersOf.mpr hm
  · intro m' heq
    cases heq
    exact hno
  · exact fun _ _ _ _ h' => h'.1

theorem tick (h : Mid S items i g s) :
    Passes S items i g (onNode Raft.tick) s fun _ => Mid S items i := by
  refine (h.method (.unit .tick) rfl trivial (fun _ => rfl) nofun trivial nofun
    fun _ heq => nomatch heq).mono ?_
  exact fun _ _ _ _ h' => h'.1

/-- The loop ends with the error of the store. -/
theorem halt {α : Type} {e : StorageError} {Q : α → Shadow → Server → Prop} (h : Mid S items i g s) :
    Passes S items i g (throw (.storage e)) s Q := by
  obtain ⟨g', hg⟩ := h.along.sound.event (e := .crash) h.proc rfl rfl (fun _ => rfl) fun _ => nofun
  refine Sim.step hg.moves (Sim.fail ⟨h.along.goes hg nofun, hg.proc, ?_⟩)
  exact h.running.resting.moves h.along.sound hg.moves

theorem sendPeers (h : Mid S items i g s) :
    Passes S items i g Service.sendPeers s fun _ => Mid S items i := by
  obtain ⟨g', hg⟩ := h.along.sound.event (e := .drain) h.proc rfl rfl (fun _ => rfl) fun _ => nofun
  have hsound := h.along.sound
  have hrun : Service.sendPeers s = .ok () { s with
      node := { s.node with outbound := [] }, out := s.out ++ s.node.outbound.map .peer } := rfl
  unfold Passes Sim
  rw [hrun]
  refine ⟨g', .single hg.moves, ⟨hg.moves.sound, ?_, fun r hr => ?_, fun x hx => ?_⟩, hg.proc, ?_⟩
  · rw [hg.sent, h.along.sent, ← List.append_assoc, peersOf_append (items ++ s.out), peersOf_map]
  · rcases hg.used r hr with hr | ⟨context, hc, -⟩
    · exact h.along.used r hr
    · cases hc
  · rcases List.mem_append.mp hx with hx | hx
    · exact (h.along.shown x hx).moves hsound hg.moves
    · obtain ⟨m, hm, rfl⟩ := List.mem_map.mp hx
      exact h.running.carries.outbound m hm
  · have hc : Carries (Asked items) (Pictured items g.world i) { s.node with outbound := [] } :=
      ⟨h.running.carries.log, fun _ hm => absurd hm List.not_mem_nil, h.running.carries.store,
        h.running.carries.snapshot⟩
    have hrun := h.running.moves hsound hg.moves h.applied_le hc rfl
    exact ⟨⟨hrun.carries, hrun.asked, hrun.clients, hrun.pending, hrun.reads, hrun.calm⟩, hrun.machine⟩

end Mid

/-! ## Applying -/

variable (S) in
/-- The server has applied the commands `done`, and is going to apply `rest`. -/
structure Applying (items : List Item) (i : Nat) (g : Shadow) (done rest : List Entry) (s : Server) :
    Prop where
  along : Along S items g s.out
  proc : g.reading.cluster.procs i = some (.up s.node)
  serving : Serving S items g i s
  applied : s.node.applied = s.node.commit
  commands : commandsOf ((g.world.log i).take s.node.commit) = done ++ rest
  machine : g.Short s.node.commit → s.machine = applyAll done

namespace Applying

variable {done rest : List Entry} {e : Entry}

theorem start (h : Mid S items i g s) :
    Passes S items i g (onNode (applyEntries [])) s fun es g' s' =>
      ∃ done, Applying S items i g' done es s' := by
  refine h.call .applyEntries rfl trivial (fun _ => rfl) nofun trivial fun es n g' hx hg halong hc => ?_
  obtain ⟨w, -, rfl, rfl, -, hes⟩ := (applyEntries_sim h.rep h.along.sound.inv).ok hx
  have hask : ∀ e ∈ es, Asked items e := fun e he =>
    h.running.carries.log e (applyEntries_mem hx e he)
  have hb := h.rep.bounds
  have hlog := hg.moves.take_log h.along.sound hb.2.2
  rw [List.nil_append] at hes
  have hcommands : commandsOf ((g'.world.log i).take s.node.commit) =
      commandsOf ((g.world.log i).take s.node.applied) ++ es := by
    rw [hlog, hes]
    exact commandsOf_take _ hb.2.1
  refine ⟨_, halong, hg.proc, ?_, rfl, hcommands, fun hlt => ?_⟩
  · refine
      { carries := hc.mono (fun _ => id) fun _ hs => hs.moves h.along.sound hg.moves
        asked := fun e he hk => ?_
        clients := h.running.clients
        pending := h.running.pending
        reads := fun read hr => (h.running.reads read hr).moves hg.moves
        calm := fun hc => h.running.calm (hg.moves.compacts ▸ hc) }
    have hmem : e ∈ commandsOf ((g'.world.log i).take s.node.commit) := mem_commandsOf.mpr ⟨he, hk⟩
    rw [hcommands] at hmem
    rcases List.mem_append.mp hmem with hmem | hmem
    · exact h.running.asked e (mem_commandsOf.mp hmem).1 hk
    · exact hask e hmem hk
  · exact h.running.machine fun hc =>
      Nat.lt_of_le_of_lt hb.2.1 (hlt (hg.moves.compacts.trans hc))

theorem mid (h : Applying S items i g done [] s) : Mid S items i g s := by
  refine ⟨h.along, h.proc, h.serving, fun hlt => ?_⟩
  rw [h.applied] at hlt ⊢
  rw [h.machine hlt, replay, h.commands, List.append_nil]

/-- The response to those who wait for the command. -/
theorem told (h : Applying S items i g done (e :: rest) s) {waiters : List Nat} {reply : Nat}
    (hl : s.pending.lookup (e.clientID, e.requestID) = some waiters) (hr : reply ∈ waiters) :
    Told items g reply (s.applied e (s.machine.apply e).2) := by
  have hmem : ((e.clientID, e.requestID), waiters) ∈ s.pending := by
    obtain ⟨before, later, hp, -⟩ := List.lookup_eq_some_iff.mp hl
    rw [hp]
    simp
  obtain ⟨r, hask, rfl, hkey, hget⟩ := h.serving.pending _ hmem reply hr
  obtain ⟨pre, post, heq⟩ := List.append_of_mem hask
  refine ⟨i, r, pre, post, heq, rfl, fun _ hg => absurd hg hget, fun hlt hs => ?_⟩
  have hle : s.node.commit ≤ g.world.commit i := (h.along.sound.rep h.proc).bounds.2.2
  obtain ⟨hcom, hlen⟩ := h.along.sound.committed hle
  have hasked : ∀ e' ∈ (g.world.log i).take s.node.commit, Asked items e' := h.applied ▸ h.serving.asked
  refine ⟨_, hcom, hlen, hasked, fun hg => absurd hg hget, fun hg => absurd hg hget, fun _ => ?_⟩
  have hstatus := hs.ok hget
  have hmachine := h.machine hlt
  cases hres : (s.machine.apply e).2 with
  | error err =>
    rw [hres] at hstatus
    cases hstatus
  | ok result =>
    -- a client with a number has asked for the command, so it is not an old one
    have he := mem_commandsOf.mp (h.commands ▸ List.mem_append_right done List.mem_cons_self)
    have hclient : e.clientID ≠ 0 := h.serving.clients _ hmem
    have hlegacy : e.operation ≠ .legacy := by
      rcases hasked e he.1 he.2 with ⟨-, hzero⟩ | ⟨id, r', -, hi⟩
      · exact absurd hzero hclient
      · rcases hi.supported with hop | hop <;> rw [hop] <;> decide
    rw [hmachine] at hres
    have hexec := executed_of_apply (supported_commandsOf hasked) h.commands hlegacy hres
    rw [(Prod.mk.inj hkey).1, (Prod.mk.inj hkey).2]
    exact hexec

/-- One pass of the loop. -/
theorem applyEntry (h : Applying S items i g done (e :: rest) s) :
    Passes S items i g (Service.applyEntry e) s fun _ g' s' =>
      g' = g ∧ Applying S items i g (done ++ [e]) rest s' := by
  have hcommands : commandsOf ((g.world.log i).take s.node.commit) = done ++ [e] ++ rest := by
    rw [h.commands, List.append_assoc, List.singleton_append]
  have hmachine : g.Short s.node.commit → (s.machine.apply e).1 = applyAll (done ++ [e]) := fun hlt => by
    rw [h.machine hlt, applyAll_snoc]
  unfold Service.applyEntry
  refine Sim.seq_get (Sim.seq_update ?_)
  split
  · exact Sim.ret ⟨rfl, h.along, h.proc, { h.serving with }, h.applied, hcommands, hmachine⟩
  · rename_i waiters hlookup
    refine Sim.seq_update (Sim.update ⟨rfl, h.along.answer fun x hx => ?_, h.proc, ?_, h.applied,
      hcommands, hmachine⟩)
    · obtain ⟨reply, hr, rfl⟩ := List.mem_map.mp hx
      refine ⟨_, _, rfl, h.told hlookup hr, ?_⟩
      exact fun hd =>
        ⟨g.reading, i, s.node, h.along.sound.reads hd, .refl, by rw [nodeAt, h.proc], le_rfl⟩
    · exact { h.serving with
        clients := fun p hp => h.serving.clients p (List.mem_filter.mp hp).1
        pending := fun p hp => h.serving.pending p (List.mem_filter.mp hp).1 }

end Applying

theorem saveSnapshot_commit {snapshot : Snapshot} {n : Node Disk} :
    Triple (fun _ => True) (saveSnapshot snapshot) n fun _ n' => n'.commit = n.commit := by
  have hcall : ∀ {x : EStateM StorageError Disk Unit} {n : Node Disk},
      Triple (fun _ => True) (callStoreOrFail x) n fun _ n' => n'.commit = n.commit := fun {_ _} =>
    callStoreOrFail_sim (fun _ _ => ⟨(), .refl, rfl⟩) fun _ _ _ => rfl
  unfold saveSnapshot
  refine Sim.ite (fun _ => Sim.seq hcall fun saved _ n₁ _ h₁ => ?_) fun _ => Sim.seq_update (Sim.ret rfl)
  exact Sim.ite (fun _ => Sim.mono hcall fun _ _ _ _ h₂ => h₂.trans h₁) fun _ => Sim.ret h₁

theorem compact_commit {index : Nat} {state : List UInt8} {n : Node Disk} :
    Triple (fun _ => True) (Raft.compact index state) n fun _ n' => n'.commit = n.commit := by
  unfold Raft.compact
  refine Sim.seq_get (Sim.ite (fun _ => Sim.ret rfl) fun _ => ?_)
  split
  · exact Sim.ret rfl
  · refine Sim.seq saveSnapshot_commit fun saved _ n₁ _ h₁ => ?_
    exact Sim.ite (fun _ => Sim.seq_update (Sim.ret h₁)) fun _ => Sim.ret h₁

theorem Mid.apply (h : Mid S items i g s) :
    Passes S items i g Service.apply s fun _ g' s' =>
      Mid S items i g' s' ∧ s'.node.applied = s'.node.commit := by
  unfold Service.apply
  refine Sim.seq (Applying.start h) fun es g₁ s₁ _ ⟨done, h₁⟩ => ?_
  refine Sim.seq (Sim.eachRest (I := fun rest g' s' => ∃ done, Applying S items i g' done rest s')
    ⟨done, h₁⟩ fun e _ rest g₂ s₂ ⟨done₂, h₂⟩ => h₂.applyEntry.mono ?_) ?_
  · rintro _ _ s' - ⟨rfl, h'⟩
    exact ⟨_, h'⟩
  rintro _ g₃ s₃ - ⟨done₃, h₃⟩
  have hmid := h₃.mid
  refine Sim.seq_get (Sim.ite (fun hsnap => Sim.discard ?_) fun _ => Sim.ret ⟨hmid, h₃.applied⟩)
  refine (hmid.method (.compact _ _) rfl trivial (fun hc => ?_) nofun
    (fun n term => ?_) nofun fun _ heq => nomatch heq).mono ?_
  · exact absurd (hmid.running.calm hc) hsnap.1
  · refine ⟨hmid.applied_le, hmid.running.asked, fun _ hlt => ⟨snapshot_ne_nil _, ?_⟩⟩
    show Machine.restore s₃.machine.snapshot = .ok (replay ((g₃.world.log i).take s₃.node.applied))
    rw [hmid.running.machine fun _ => hlt]
    exact restore_replay (Nat.lt_of_le_of_lt (List.length_take_le ..) hlt)
  · rintro a g' s' - ⟨h', -, n, hx, happlied, rfl⟩
    exact ⟨h', happlied.trans (h₃.applied.trans (compact_commit.ok hx).symm)⟩

/-! ## Reads -/

/-- The response to a read that is complete. -/
theorem Mid.told_read (h : Mid S items i g s) (ha : s.node.applied = s.node.commit)
    {read : PendingRead} (hr : read ∈ s.reads) (hc : s.completes read = true) :
    Told items g read.request.reply (s.readResponse read.request.value) := by
  obtain ⟨hget, hctx, pre, post, heq, hbegun⟩ := h.running.reads read hr
  have hcommit : (s.readResponse read.request.value).commit = s.node.commit := by
    unfold Server.readResponse
    split <;> rfl
  refine ⟨i, read.request, pre, post, heq, rfl, fun hd _ _ reply' response' hmem => ?_,
    fun hlt _ => ?_⟩
  · obtain ⟨x₀, x₁, h₀, hnext, h₁, hpast⟩ := hbegun hd
    obtain ⟨y, j, a, hy, hyx, haj, hle⟩ := hpast reply' response' hmem
    unfold Server.completes at hc
    split at hc
    · cases hc
    · rename_i index hindex
      have hcovers := hy.covers hyx hnext h₁ hctx haj (by rw [nodeAt, h.proc]) hindex
      rw [hcommit, ← ha]
      exact hle.trans (hcovers.trans (of_decide_eq_true hc))
  · rw [hcommit] at hlt ⊢
    rw [← ha] at hlt
    obtain ⟨hcom, hlen⟩ := h.along.sound.committed h.applied_le
    refine ⟨_, hcom, hlen.trans ha, h.running.asked, fun _ hok => ?_, fun _ hnone => ?_,
      fun hno => absurd hget hno⟩
    · rw [← h.running.machine hlt]
      unfold Server.readResponse at hok ⊢
      split at hok
      · cases hok
      · rename_i value hvalue
        rw [hvalue]
        rfl
    · rw [← h.running.machine hlt]
      unfold Server.readResponse at hnone
      split at hnone
      · assumption
      · cases hnone

theorem Mid.completeReads (h : Mid S items i g s) (ha : s.node.applied = s.node.commit) :
    Passes S items i g Service.completeReads s fun _ g' s' =>
      Mid S items i g' s' ∧ s'.node.applied = s'.node.commit := by
  unfold Service.completeReads
  refine Sim.seq_get (Sim.seq_update (Sim.update ⟨?_, ha⟩))
  have h' := h.answer fun x (hx : x ∈ (s.reads.filter s.completes).map fun read =>
      .answered read.request.reply (s.readResponse read.request.value)) => by
    obtain ⟨read, hr, rfl⟩ := List.mem_map.mp hx
    obtain ⟨hr, hc⟩ := List.mem_filter.mp hr
    refine ⟨_, _, rfl, h.told_read ha hr hc, h.past ?_⟩
    unfold Server.readResponse
    split <;> rfl
  exact ⟨h'.along, h'.proc, { h'.running with
    reads := fun read hr => h'.running.reads read (List.mem_filter.mp hr).1 }⟩

/-! ## The pass -/

/-- What the loop takes after the items `pre`. No snapshot of a leader is installed, and a read has
a new context. -/
def Input.Fits (pre : List Item) (i : Nat) (g : Shadow) (s : Server) : Input → Prop
  | .message m => .peer m ∈ pre ∧ m.dst = i ∧ ¬ s.node.TakesSnapshot m
  | .request r => g.distinct = true → r.value.operation = .get →
    (i, contextID r.value) ∉ g.reading.used
  | .tick => True

theorem Mid.take {pre : List Item} {input : Input} (h : Mid S (pre ++ input.items i) i g s)
    (hout : s.out = []) (ha : s.node.applied = s.node.commit) (hacc : Accounted S pre g)
    (hfit : input.Fits pre i g s) :
    Passes S (pre ++ input.items i) i g (Service.take input) s fun _ =>
      Mid S (pre ++ input.items i) i := by
  cases input with
  | message m =>
    simp only [Input.items, List.append_nil] at h ⊢
    exact h.message hout hfit.1 hfit.2.1 hfit.2.2 (hacc.peer hfit.1)
  | request r => exact h.handleRequest ha hfit fun hd _ _ => hacc.past hd
  | tick => exact h.tick

theorem Mid.iterate {pre : List Item} {input : Input} (h : Mid S (pre ++ input.items i) i g s)
    (hout : s.out = []) (ha : s.node.applied = s.node.commit) (hacc : Accounted S pre g)
    (hfit : input.Fits pre i g s) :
    Passes S (pre ++ input.items i) i g (Service.iterate input) s fun _ g' s' =>
      Mid S (pre ++ input.items i) i g' s' ∧ s'.node.applied = s'.node.commit := by
  refine Sim.seq (h.take hout ha hacc hfit) fun _ g₁ s₁ _ h₁ => Sim.seq_get ?_
  split
  · exact h₁.halt
  · refine Sim.seq h₁.sendPeers fun _ g₂ s₂ _ h₂ => Sim.seq h₂.apply fun _ g₃ s₃ _ h₃ => ?_
    exact h₃.1.completeReads h₃.2

end Promtact.Service
