import Promtact.Raft.Reads.Linear
import Promtact.Raft.Validity
import Promtact.Server.Loop
import Promtact.Server.Replay

/-!
# Servers over a cluster of nodes

The servers use their nodes as a cluster does, and the cluster is a world of the consensus protocol.
A `Shadow` is the cluster of the nodes, with the world that it is; it moves with the servers.

What is said about the servers is said relative to the shadow:

* `Asked`: an entry is in some log because a client asked for it.
* `Running`: the machine of a server is that of the log it has applied, and those who wait have asked.
* `Resting`: what a server needs for that when it is opened again.
* `Told`: a response is right. It is explained by a log that is committed, and a read does not go back
  behind what was answered before it was asked for.

This needs that no running server installs a snapshot of a leader: it would be in the log, and not
in the machine. What is said about machines also needs that a snapshot can hold them
(`Shadow.Short`), and what is said about reads that their contexts are distinct.
-/

namespace Promtact.Service

open Raft Protocol StateMachine Refine Network Consensus

/-! ## What was asked -/

/-- The messages between the nodes. -/
def peersOf (items : List Item) : List Message :=
  items.filterMap fun
    | .peer m => some m
    | _ => none

/-- The reads that were asked for, with their contexts. -/
def readsOn (items : List Item) : List (Nat × UInt64) :=
  items.filterMap fun
    | .asked id r => if r.value.operation = .get then some (id, contextID r.value) else none
    | _ => none

theorem peersOf_append (items items' : List Item) :
    peersOf (items ++ items') = peersOf items ++ peersOf items' := List.filterMap_append

theorem readsOn_append (items items' : List Item) :
    readsOn (items ++ items') = readsOn items ++ readsOn items' := List.filterMap_append

theorem mem_peersOf {items : List Item} {m : Message} : m ∈ peersOf items ↔ .peer m ∈ items := by
  unfold peersOf
  rw [List.mem_filterMap]
  constructor
  · rintro ⟨x, hx, heq⟩
    cases x with
    | peer m' => cases heq; exact hx
    | asked => cases heq
    | answered => cases heq
  · exact fun h => ⟨_, h, rfl⟩

theorem peersOf_map (out : List Message) : peersOf (out.map .peer) = out := by
  unfold peersOf
  rw [List.filterMap_map]
  exact List.filterMap_some

/-- The request asks for the command of the entry. -/
structure Issues (req : ClientRequest) (e : Entry) : Prop where
  operation : commandOp req.operation = some e.operation
  clientID : req.clientID = e.clientID
  requestID : req.requestID = e.requestID
  key : req.key = e.key
  value : req.value = e.value

/-- A client asked for the command of the entry, if it has one. -/
def Asked (items : List Item) (e : Entry) : Prop :=
  e.kind = .normal → e.operation = .legacy ∧ e.clientID = 0 ∨
    ∃ id r, .asked id r ∈ items ∧ Issues r.value e

theorem Asked.mono {items items' : List Item} {e : Entry} (h : Asked items e) (hsub : items ⊆ items') :
    Asked items' e := fun hk => (h hk).imp_right fun ⟨id, r, hmem, hi⟩ => ⟨id, r, hsub hmem, hi⟩

theorem asked_tolerant (items : List Item) : Tolerant (Asked items) :=
  ⟨fun _ _ => .inl ⟨rfl, rfl⟩, fun _ => nofun, fun _ _ _ => nofun, fun _ _ => nofun⟩

theorem Issues.supported {req : ClientRequest} {e : Entry} (h : Issues req e) :
    e.operation = .put ∨ e.operation = .delete := by
  have hop := h.operation
  unfold commandOp at hop
  split at hop
  · exact .inl (Option.some.inj hop).symm
  · exact .inr (Option.some.inj hop).symm
  · cases hop

theorem Asked.supported {items : List Item} {e : Entry} (h : Asked items e) (hk : e.kind = .normal) :
    Supported e := by
  rcases h hk with ⟨hop, -⟩ | ⟨id, r, -, hi⟩
  · rw [Supported, hop]
    decide
  · rcases hi.supported with hop | hop
    · rw [Supported, hop]
      decide
    · rw [Supported, hop]
      decide

theorem supported_commandsOf {items : List Item} {ℓ : List Entry} (h : ∀ e ∈ ℓ, Asked items e) :
    ∀ e ∈ commandsOf ℓ, Supported e := fun e he =>
  (h e (mem_commandsOf.mp he).1).supported (mem_commandsOf.mp he).2

/-! ## Shadows -/

/-- The cluster of the nodes with the reads that were started, and the world that it is. What the
run may contain does not change. -/
structure Shadow where
  reading : Reading
  world : World Nat Entry
  /-- Servers may compact their logs. -/
  compacts : Bool
  /-- No server gets two reads with the same context. -/
  distinct : Bool

/-- A snapshot of a log of this length holds its machine, if there are snapshots. -/
def Shadow.Short (g : Shadow) (k : Nat) : Prop := g.compacts = true → k < 2 ^ 32

variable (S : Setup Disk)

/-- Where the nodes start. -/
abbrev origin : Reading := ⟨S.start, []⟩

/-- The cluster behind the servers is reached by a run, and its world is known. -/
structure Shadow.Sound (g : Shadow) : Prop where
  run : Net.Runs S.act FixedMembership S.start g.reading.cluster
  calm : g.compacts = false → Net.Runs S.act NoCompaction S.start g.reading.cluster
  reads : g.distinct = true → Reading.Runs S (origin S) g.reading
  known : S.Known compacting g.world g.reading.cluster

/-- Node `i` has made some moves. -/
structure Moves (i : Nat) (g g' : Shadow) : Prop where
  compacts : g'.compacts = g.compacts
  distinct : g'.distinct = g.distinct
  reads : g.distinct = true → Reading.Runs S g.reading g'.reading
  ext : g.world.Ext g'.world
  rises : g.world.Rises g'.world
  sound : g'.Sound S
  others : ∀ j, j ≠ i → g'.reading.cluster.procs j = g.reading.cluster.procs j

variable {S} {i j k : Nat} {g g' g'' : Shadow} {items items' : List Item}

theorem Shadow.Sound.inv (h : g.Sound S) : Inv (params compacting S.voters) g.world :=
  h.known.joined.inv

theorem Shadow.Sound.rep (h : g.Sound S) {n : Node Disk}
    (hp : g.reading.cluster.procs i = some (.up n)) : Rep compacting S.voters g.world i n :=
  (h.known.joined.procs i _ hp).2

theorem Shadow.Sound.sane (h : g.Sound S) {n : Node Disk}
    (hp : g.reading.cluster.procs i = some (.up n)) : Sane n := by
  have hn : nodeAt g.reading.cluster i = some n := by rw [nodeAt, hp]
  exact ((S.keepsApart.run ((Setup.arrives h.run).mono fun _ _ _ h => h.2)).1 i n hn).1

theorem Shadow.Sound.stored (h : g.Sound S) {store : Disk}
    (hp : g.reading.cluster.procs i = some (.down store)) :
    Stored compacting S.voters g.world i store := (h.known.joined.procs i _ hp).2

/-- Without compaction there is no snapshot in a store. -/
theorem Shadow.Sound.blank (h : g.Sound S) (hc : g.compacts = false) {store : Disk}
    (hp : g.reading.cluster.procs i = some (.down store)) : store.data.snapshot.lastIndex = 0 := by
  obtain ⟨w, -, hj⟩ := Setup.joined_start.run (fun _ _ => trivial)
    ((h.calm hc).mono fun _ _ _ => NoCompaction.permitted)
  obtain ⟨d, hh, hd⟩ := (hj.procs i _ hp).2
  cases hh
  refine Decidable.byContradiction fun hne => ?_
  cases (hd.covers.some hne).1

/-- And none in a message. -/
theorem Shadow.Sound.empty (h : g.Sound S) (hc : g.compacts = false) {m : Message}
    (hm : m ∈ g.reading.cluster.sent) (htype : m.type = .installSnapshot) : m.snapshotOld = 0 := by
  obtain ⟨w, -, hj⟩ := Setup.joined_start.run (fun _ _ => trivial)
    ((h.calm hc).mono fun _ _ _ => NoCompaction.permitted)
  have hvalid := hj.sent m hm
  unfold ValidMsg at hvalid
  rw [htype] at hvalid
  refine Decidable.byContradiction fun hne => ?_
  obtain ⟨r, -, -, hcov, -⟩ := hvalid hne
  by_cases hz : m.toSnapshot.lastIndex = 0
  · exact hne (congrArg Snapshot.oldVoters (hcov.none hz))
  · cases (hcov.some hz).1

theorem Moves.refl (h : g.Sound S) : Moves S i g g :=
  ⟨rfl, rfl, fun _ => .refl, .refl _, .refl _, h, fun _ _ => rfl⟩

theorem Moves.trans (h : Moves S i g g') (h' : Moves S i g' g'') : Moves S i g g'' :=
  ⟨h'.compacts.trans h.compacts, h'.distinct.trans h.distinct,
    fun hd => (h.reads hd).trans (h'.reads (h.distinct.trans hd)), h.ext.trans h'.ext,
    h.rises.trans h'.rises, h'.sound, fun j hj => (h'.others j hj).trans (h.others j hj)⟩

theorem Moves.short (h : Moves S i g g') : g'.Short k ↔ g.Short k := by
  unfold Shadow.Short
  rw [h.compacts]

theorem Moves.of_star (h : g.Sound S) (hs : Relation.ReflTransGen (Moves S i) g g') :
    Moves S i g g' := by
  induction hs with
  | refl => exact .refl h
  | tail _ hm ih => exact ih.trans hm

/-- What a member has committed stays. -/
theorem Moves.take_log (h : Moves S i g g') (hg : g.Sound S) (hk : k ≤ g.world.commit j) :
    (g'.world.log j).take k = (g.world.log j).take k :=
  h.sound.inv.backed_agree (h.sound.inv.commit_ev j)
    (hg.inv.backed_ext h.ext (hg.inv.commit_ev j)) (hk.trans (h.rises.commit j)) hk

/-! ## Committed logs -/

/-- The log is committed in the world. -/
def Committed (w : World Nat Entry) (ℓ : List Entry) : Prop := ∃ t, w.Backed t ℓ ℓ.length

theorem Committed.moves {ℓ : List Entry} (h : Committed g.world ℓ) (hg : g.Sound S)
    (hm : Moves S i g g') : Committed g'.world ℓ := by
  obtain ⟨t, hb⟩ := h
  exact ⟨t, hg.inv.backed_ext hm.ext hb⟩

/-- Of two logs that are committed, one is the beginning of the other. -/
theorem Committed.take {ℓ ℓ' : List Entry} (hg : g.Sound S) (h : Committed g.world ℓ)
    (h' : Committed g.world ℓ') (hle : ℓ.length ≤ ℓ'.length) : ℓ'.take ℓ.length = ℓ := by
  obtain ⟨t, hb⟩ := h
  obtain ⟨t', hb'⟩ := h'
  rw [hg.inv.backed_agree hb' hb hle le_rfl, List.take_length]

/-- What a member has committed is committed. -/
theorem Shadow.Sound.committed (h : g.Sound S) (hk : k ≤ g.world.commit i) :
    Committed g.world ((g.world.log i).take k) ∧ ((g.world.log i).take k).length = k := by
  have hb : g.world.Backed (g.world.term i) (g.world.log i) k :=
    (h.inv.commit_ev i).mono le_rfl (List.take_prefix _ _) hk
  have hlen : ((g.world.log i).take k).length = k := by
    rw [List.length_take]
    exact Nat.min_eq_left hb.1
  exact ⟨⟨g.world.term i, hlen.symm ▸ hb.mono le_rfl (List.prefix_refl _) le_rfl⟩, hlen⟩

/-! ## Responses -/

variable (S) in
/-- Some node had committed as much as the response says. -/
def Past (x : Reading) (response : ClientResponse) : Prop :=
  ∃ y j a, Reading.Runs S (origin S) y ∧ Reading.Runs S y x ∧ nodeAt y.cluster j = some a ∧
    response.commit ≤ a.commit

theorem Past.runs {x y : Reading} {response : ClientResponse} (h : Past S x response)
    (hr : Reading.Runs S x y) : Past S y response := by
  obtain ⟨z, j, a, hz, hzx, ha, hle⟩ := h
  exact ⟨z, j, a, hz, hzx.trans hr, ha, hle⟩

/-- The response says how the request ended. -/
def Settles (req : ClientRequest) (response : ClientResponse) : Prop :=
  match req.operation with
  | .get => response.status = .ok ∨ response.status = .notFound
  | .status => False
  | _ => response.status = .ok

/-- The response is that of the machine after the log. -/
structure Explains (ℓ : List Entry) (req : ClientRequest) (response : ClientResponse) : Prop where
  found : req.operation = .get → response.status = .ok →
    (replay ℓ).get req.key = some response.value
  missing : req.operation = .get → response.status = .notFound → (replay ℓ).get req.key = none
  executed : req.operation ≠ .get → Executed ℓ req.clientID req.requestID response.value

/-- The response to a request that was asked for after the items `pre`. -/
structure Right (items : List Item) (g : Shadow) (pre : List Item) (req : ClientRequest)
    (response : ClientResponse) : Prop where
  /-- A read sees what was answered before it. -/
  inTime : g.distinct = true → req.operation = .get → Settles req response →
    ∀ reply' response', .answered reply' response' ∈ pre → response'.commit ≤ response.commit
  explained : g.Short response.commit → Settles req response → ∃ ℓ, Committed g.world ℓ ∧
    ℓ.length = response.commit ∧ (∀ e ∈ ℓ, Asked items e) ∧ Explains ℓ req response

/-- What was told over the channel is right. -/
def Told (items : List Item) (g : Shadow) (reply : Nat) (response : ClientResponse) : Prop :=
  ∃ id r pre post, items = pre ++ .asked id r :: post ∧ r.reply = reply ∧
    Right items g pre r.value response

theorem Told.mono {reply : Nat} {response : ClientResponse} (out : List Item)
    (h : Told items g reply response) : Told (items ++ out) g reply response := by
  obtain ⟨id, r, pre, post, heq, hr, hright⟩ := h
  refine ⟨id, r, pre, post ++ out, by rw [heq]; simp, hr, hright.inTime, fun hlt hs => ?_⟩
  obtain ⟨ℓ, hc, hlen, hask, hex⟩ := hright.explained hlt hs
  exact ⟨ℓ, hc, hlen, fun e he => (hask e he).mono (List.subset_append_left _ _), hex⟩

theorem Told.moves {reply : Nat} {response : ClientResponse} (h : Told items g reply response)
    (hg : g.Sound S) (hm : Moves S i g g') : Told items g' reply response := by
  obtain ⟨id, r, pre, post, heq, hr, hright⟩ := h
  refine ⟨id, r, pre, post, heq, hr, fun hd => hright.inTime (hm.distinct ▸ hd), fun hlt hs => ?_⟩
  obtain ⟨ℓ, hc, hrest⟩ := hright.explained (hm.short.mp hlt) hs
  exact ⟨ℓ, hc.moves hg hm, hrest⟩

/-- Nothing is said about the end of the request. -/
theorem Told.unsettled {r : Request} {response : ClientResponse} (hask : .asked i r ∈ items)
    (hs : ¬ Settles r.value response) : Told items g r.reply response := by
  obtain ⟨pre, post, heq⟩ := List.append_of_mem hask
  exact ⟨i, r, pre, post, heq, rfl, fun _ _ h => absurd h hs, fun _ h => absurd h hs⟩

variable (S) in
/-- What an item that comes after `items` shows. -/
def Shows (items : List Item) (g : Shadow) : Item → Prop
  | .peer m => m.hasEntry = true → Asked items m.entry
  | .asked _ _ => True
  | .answered reply response =>
    Told items g reply response ∧ (g.distinct = true → Past S g.reading response)

theorem Shows.mono {x : Item} (out : List Item) (h : Shows S items g x) :
    Shows S (items ++ out) g x := by
  cases x with
  | peer m => exact fun hm => (h hm).mono (List.subset_append_left _ _)
  | asked => trivial
  | answered reply response => exact ⟨h.1.mono out, h.2⟩

theorem Shows.moves {x : Item} (h : Shows S items g x) (hg : g.Sound S) (hm : Moves S i g g') :
    Shows S items g' x := by
  cases x with
  | peer m => exact h
  | asked => trivial
  | answered reply response =>
    refine ⟨h.1.moves hg hm, fun hd => ?_⟩
    have hd' : g.distinct = true := hm.distinct ▸ hd
    exact (h.2 hd').runs (hm.reads hd')

variable (S) in
/-- All items of a run. -/
def Accounted (items : List Item) (g : Shadow) : Prop :=
  ∀ pre x post, items = pre ++ x :: post → Shows S pre g x

theorem Accounted.moves (h : Accounted S items g) (hg : g.Sound S) (hm : Moves S i g g') :
    Accounted S items g' := fun pre x post heq => (h pre x post heq).moves hg hm

theorem Accounted.append (h : Accounted S items g) {out : List Item}
    (hout : ∀ x ∈ out, Shows S items g x) : Accounted S (items ++ out) g := by
  intro pre x post heq
  rcases List.append_eq_append_iff.mp heq with ⟨mid, hpre, hout'⟩ | ⟨mid, hitems, hmid⟩
  · rw [hpre]
    exact (hout x (by rw [hout']; simp)).mono mid
  · cases mid with
    | nil =>
      rw [List.append_nil] at hitems
      exact hitems ▸ hout x (by rw [List.nil_append] at hmid; rw [← hmid]; simp)
    | cons y mid =>
      rw [List.cons_append] at hmid
      cases hmid
      exact h pre x mid hitems

theorem Accounted.peer (h : Accounted S items g) {m : Message} (hm : .peer m ∈ items)
    (he : m.hasEntry = true) : Asked items m.entry := by
  obtain ⟨pre, post, heq⟩ := List.append_of_mem hm
  exact (h pre _ post heq he).mono (heq ▸ List.subset_append_left _ _)

theorem Accounted.past (h : Accounted S items g) (hd : g.distinct = true) {reply : Nat}
    {response : ClientResponse} (hm : .answered reply response ∈ items) :
    Past S g.reading response := by
  obtain ⟨pre, post, heq⟩ := List.append_of_mem hm
  exact (h pre _ post heq).2 hd

/-! ## Servers -/

/-- The snapshot holds the machine of the log up to it. -/
structure Pictured (items : List Item) (w : World Nat Entry) (i : Nat) (snapshot : Snapshot) : Prop where
  le : snapshot.lastIndex ≤ w.commit i
  asked : ∀ e ∈ (w.log i).take snapshot.lastIndex, Asked items e
  restore : snapshot.lastIndex ≠ 0 → snapshot.lastIndex < 2 ^ 32 → snapshot.state ≠ [] ∧
    Machine.restore snapshot.state = .ok (replay ((w.log i).take snapshot.lastIndex))

theorem Pictured.mono {w : World Nat Entry} {snapshot : Snapshot} (h : Pictured items w i snapshot)
    (hsub : items ⊆ items') : Pictured items' w i snapshot :=
  ⟨h.le, fun e he => (h.asked e he).mono hsub, h.restore⟩

theorem Pictured.moves {snapshot : Snapshot} (h : Pictured items g.world i snapshot) (hg : g.Sound S)
    (hm : Moves S j g g') : Pictured items g'.world i snapshot := by
  have hlog := hm.take_log hg h.le
  exact ⟨h.le.trans (hm.rises.commit i), hlog.symm ▸ h.asked, hlog.symm ▸ h.restore⟩

/-- The store of a server that does not run. -/
structure Resting (items : List Item) (w : World Nat Entry) (i : Nat) (store : Disk) : Prop where
  suffix : ∀ e ∈ store.data.suffix, Asked items e
  snapshot : Pictured items w i store.data.snapshot

theorem Resting.mono {w : World Nat Entry} {store : Disk} (h : Resting items w i store)
    (hsub : items ⊆ items') : Resting items' w i store :=
  ⟨fun e he => (h.suffix e he).mono hsub, h.snapshot.mono hsub⟩

theorem Resting.moves {store : Disk} (h : Resting items g.world i store) (hg : g.Sound S)
    (hm : Moves S j g g') : Resting items g'.world i store := ⟨h.suffix, h.snapshot.moves hg hm⟩

variable (S) in
/-- The read was started after it was asked for, and has seen what was answered before that. -/
structure Begun (items : List Item) (g : Shadow) (i : Nat) (read : PendingRead) : Prop where
  get : read.request.value.operation = .get
  nonzero : read.context ≠ 0
  begun : ∃ pre post, items = pre ++ .asked i read.request :: post ∧ (g.distinct = true →
    ∃ x₀ x₁, Reading.Runs S (origin S) x₀ ∧
      x₀.next S i (.call (.startReadIndex read.context)) = some x₁ ∧ Reading.Runs S x₁ g.reading ∧
      ∀ reply response, .answered reply response ∈ pre → Past S x₀ response)

theorem Begun.mono {read : PendingRead} (out : List Item) (h : Begun S items g i read) :
    Begun S (items ++ out) g i read := by
  obtain ⟨pre, post, heq, hrest⟩ := h.begun
  exact ⟨h.get, h.nonzero, pre, post ++ out, by rw [heq]; simp, hrest⟩

theorem Begun.moves {read : PendingRead} (h : Begun S items g i read) (hm : Moves S j g g') :
    Begun S items g' i read := by
  obtain ⟨pre, post, heq, hbegun⟩ := h.begun
  refine ⟨h.get, h.nonzero, pre, post, heq, fun hd => ?_⟩
  have hd' : g.distinct = true := hm.distinct ▸ hd
  obtain ⟨x₀, x₁, h₀, hn, h₁, hp⟩ := hbegun hd'
  exact ⟨x₀, x₁, h₀, hn, h₁.trans (hm.reads hd'), hp⟩

/-- The channel waits for a mutation that was asked for. -/
def Waits (items : List Item) (i : Nat) (key : PendingKey) (reply : Nat) : Prop :=
  ∃ r, .asked i r ∈ items ∧ r.reply = reply ∧ (r.value.clientID, r.value.requestID) = key ∧
    r.value.operation ≠ .get

variable (S) in
/-- A server that runs, but for its machine. -/
structure Serving (items : List Item) (g : Shadow) (i : Nat) (s : Server) : Prop where
  carries : Carries (Asked items) (Pictured items g.world i) s.node
  asked : ∀ e ∈ (g.world.log i).take s.node.applied, Asked items e
  clients : ∀ p ∈ s.pending, p.1.1 ≠ 0
  pending : ∀ p ∈ s.pending, ∀ reply ∈ p.2, Waits items i p.1 reply
  reads : ∀ read ∈ s.reads, Begun S items g i read
  calm : g.compacts = false → s.snapshotEntries = 0

variable (S) in
/-- A server that runs: its machine is that of the log that it has applied. -/
structure Running (items : List Item) (g : Shadow) (i : Nat) (s : Server) : Prop
    extends Serving S items g i s where
  machine : g.Short s.node.applied → s.machine = replay ((g.world.log i).take s.node.applied)

theorem Running.mono {s : Server} (out : List Item) (h : Running S items g i s) :
    Running S (items ++ out) g i s where
  carries := h.carries.mono (fun _ he => he.mono (List.subset_append_left _ _))
    fun _ hs => hs.mono (List.subset_append_left _ _)
  asked e he := (h.asked e he).mono (List.subset_append_left _ _)
  machine := h.machine
  clients := h.clients
  pending p hp reply hr := by
    obtain ⟨r, hmem, hrest⟩ := h.pending p hp reply hr
    exact ⟨r, List.mem_append_left _ hmem, hrest⟩
  reads read hr := (h.reads read hr).mono out
  calm := h.calm

/-- The node of the server, or another one, has moved. -/
theorem Running.moves {s : Server} {n : Node Disk} (h : Running S items g i s) (hg : g.Sound S)
    (hm : Moves S j g g') (hle : s.node.applied ≤ g.world.commit i)
    (hc : Carries (Asked items) (Pictured items g.world i) n) (ha : n.applied = s.node.applied) :
    Running S items g' i { s with node := n } where
  carries := hc.mono (fun _ => id) fun _ hs => hs.moves hg hm
  asked := by
    rw [ha, hm.take_log hg hle]
    exact h.asked
  machine := by
    rw [ha, hm.take_log hg hle, hm.short]
    exact h.machine
  clients := h.clients
  pending := h.pending
  reads read hr := (h.reads read hr).moves hm
  calm hc := h.calm (hm.compacts ▸ hc)

theorem Running.resting {s : Server} (h : Running S items g i s) :
    Resting items g.world i s.node.store := ⟨h.carries.store, h.carries.snapshot⟩

end Promtact.Service
