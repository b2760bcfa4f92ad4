import Promtact.Raft.Changes.Runs

/-!
# Commands are proposed before they are replicated

No node makes up a command. If every command that is proposed has a property, then so has every
command in the log of a node, in its store and in a message (`validity`), whatever is lost, repeated
or refused.

`Carries K P` is the invariant of one node: everything in its log, in its store and in its messages
is in `K`, and the snapshot in its store is in `P`. Every change of a method keeps it
(`Carries.change`), so every method does (`Carries.run`). A method that panics leaves a store with
the property, as `Left` says which one that is.
-/

namespace Promtact.Raft

open Refine Network

/-- The predicate holds of what no client proposes: the first element of a log, and the entries that
a leader makes itself. -/
structure Tolerant (K : Entry → Prop) : Prop where
  first : ∀ term, K { term }
  noop : ∀ term, K { term, kind := .noop }
  joint : ∀ term oldVoters newVoters, K { term, kind := .jointConfig, oldVoters, newVoters }
  final : ∀ term oldVoters, K { term, kind := .finalConfig, oldVoters }

/-- Everything that the node has is in `K`, and the snapshot in its store is in `P`. -/
structure Carries (K : Entry → Prop) (P : Snapshot → Prop) (n : Node Disk) : Prop where
  log : ∀ e ∈ n.log, K e
  outbound : ∀ m ∈ n.outbound, m.hasEntry = true → K m.entry
  store : ∀ e ∈ n.store.data.suffix, K e
  snapshot : P n.store.data.snapshot

/-- The entries of a store are in `K`, and its snapshot is in `P`. -/
structure Stocks (K : Entry → Prop) (P : Snapshot → Prop) (d : Recovery) : Prop where
  suffix : ∀ e ∈ d.suffix, K e
  snapshot : P d.snapshot

/-- What the method gets from outside is in `K` and `P`: the command that it proposes, what the node
takes from the message that it handles, the image for its snapshot. -/
def Op.Brings (K : Entry → Prop) (P : Snapshot → Prop) (n₀ : Node Disk) : Op → Prop
  | .propose command => ∀ term, K { term, command }
  | .proposeRequest operation clientID requestID key value =>
    ∀ term, K { term, operation, clientID, requestID, key, value }
  | .step m => (m.hasEntry = true → K m.entry) ∧ (n₀.TakesSnapshot m → P m.toSnapshot)
  | .compact index state => ∀ (n : Node Disk) term, P (n.ownSnapshot index term state)
  | _ => True

variable {K : Entry → Prop} {P : Snapshot → Prop} {op : Op} {n₀ n n' : Node Disk}

/-! ## The store -/

namespace Stocks

variable {s s' : Disk} {e : Entry}

theorem of_eq {d d' : Recovery} (h : Stocks K P d) (hd : d' = d) : Stocks K P d' := hd ▸ h

theorem saveHardState (h : Stocks K P s.data) {hard : HardState}
    (hs : StableStore.saveHardState hard s = .ok () s') : Stocks K P s'.data := by
  have hdata : s'.data = { s.data with hard } := (LawfulStore.saveHardState_ok rfl hs).1
  rw [hdata]
  exact ⟨h.suffix, h.snapshot⟩

theorem append (h : Stocks K P s.data) (he : K e) {index : Nat}
    (hs : StableStore.append index e s = .ok () s') : Stocks K P s'.data := by
  have hdata : .ok (s.data.append index e) = Except.ok s'.data := Disk.call_ok hs
  rw [← Except.ok.inj hdata]
  refine ⟨fun e' he' => ?_, h.snapshot⟩
  rcases List.mem_append.mp he' with he' | he'
  · exact h.suffix e' (List.mem_of_mem_take he')
  · exact List.mem_singleton.mp he' ▸ he

theorem saveSnapshot (h : Stocks K P s.data) {snapshot : Snapshot} (hP : P snapshot)
    (hs : StableStore.saveSnapshot snapshot s = .ok () s') : Stocks K P s'.data := by
  have hdata := Disk.call_ok hs
  split at hdata
  · cases hdata
  · rw [← Except.ok.inj hdata]
    refine ⟨fun e he => ?_, hP⟩
    unfold Recovery.install at he
    dsimp only at he
    split at he
    · exact h.suffix e (List.mem_of_mem_drop he)
    · cases he

theorem compactLog (h : Stocks K P s.data) {index : Nat}
    (hs : StableStore.compactLog index s = .ok () s') : Stocks K P s'.data :=
  h.of_eq (LawfulStore.compactLog_ok rfl hs)

end Stocks

/-! ## Changes -/

/-- What a leader appends is in `K`. -/
theorem Op.Brings.proposed {e : Entry} (hb : op.Brings K P n₀) (hK : Tolerant K) (h : Proposes op n e) :
    K e := by
  cases h with
  | noop => exact hK.noop _
  | command h =>
    cases op with
    | propose | proposeRequest =>
      cases h
      exact hb _
    | _ => exact h.elim
  | joint => exact hK.joint _ _ _
  | final => exact hK.final _ _

theorem Op.Brings.entry {m : Message} (hb : op.Brings K P n₀) (hop : op = .step m)
    (hh : m.hasEntry = true) : K m.entry := by
  subst hop
  exact hb.1 hh

/-- What a node saves is in `P`. -/
theorem Op.Brings.saved {snapshot : Snapshot} (hb : op.Brings K P n₀) (h : Save op n₀ n snapshot n') :
    P snapshot := by
  cases h with
  | own hn hop =>
    subst hop
    exact hb n _
  | install hn hop htype hm hb' =>
    subst hop
    exact hb.2 (hn.takesSnapshot htype hm hb')

namespace Carries

theorem stocks (h : Carries K P n) : Stocks K P n.store.data := ⟨h.store, h.snapshot⟩

theorem mono {K' : Entry → Prop} {P' : Snapshot → Prop} (h : Carries K P n) (hK : ∀ e, K e → K' e)
    (hP : ∀ s, P s → P' s) : Carries K' P' n :=
  ⟨fun e he => hK e (h.log e he), fun m hm hh => hK _ (h.outbound m hm hh),
    fun e he => hK e (h.store e he), hP _ h.snapshot⟩

/-- A change of other fields. -/
theorem same (h : Carries K P n) (hl : n'.log = n.log) (ho : n'.outbound = n.outbound)
    (hs : n'.store = n.store) : Carries K P n' :=
  ⟨hl ▸ h.log, ho ▸ h.outbound, hs ▸ h.store, hs ▸ h.snapshot⟩

theorem frame (h : Carries K P n) (hf : Frame n n') : Carries K P n' :=
  h.same hf.log hf.outbound hf.store

theorem withStore (h : Carries K P n) {s : Disk} (hs : Stocks K P s.data) :
    Carries K P { n with store := s } := ⟨h.log, h.outbound, hs.suffix, hs.snapshot⟩

theorem withLog (h : Carries K P n) {log : List Entry} (hl : ∀ e ∈ log, K e) :
    Carries K P { n with log } := ⟨hl, h.outbound, h.store, h.snapshot⟩

/-- A store that refused a call stops the node. -/
theorem fail (h : Carries K P n) (err : Option StorageError) : Carries K P (n.fail err) :=
  ⟨h.log, fun _ hm => absurd hm List.not_mem_nil, h.store, h.snapshot⟩

theorem refused (h : Carries K P n) {f : Recovery → Except StorageError Recovery} {s : Disk}
    {e : StorageError} (hs : Disk.call f n.store = .error e s) :
    Carries K P ({ n with store := s }.fail (some e)) :=
  (h.withStore (h.stocks.of_eq (Disk.call_error hs))).fail _

theorem take (h : Carries K P n) (k : Nat) : ∀ e ∈ n.log.take k, K e :=
  fun e he => h.log e (List.mem_of_mem_take he)

theorem snoc (h : Carries K P n) {log : List Entry} {e : Entry} (hl : ∀ e ∈ log, K e) (he : K e)
    {index : Nat} {s : Disk} (hs : StableStore.append index e n.store = .ok () s) :
    Carries K P { n with store := s, log := log ++ [e] } := by
  refine (h.withStore (h.stocks.append he hs)).withLog fun e' he' => ?_
  rcases List.mem_append.mp he' with he' | he'
  · exact hl e' he'
  · exact List.mem_singleton.mp he' ▸ he

theorem logAbove (h : Carries K P n) (hK : Tolerant K) (snapshot : Snapshot) :
    ∀ e ∈ n.logAbove snapshot, K e := by
  intro e he
  unfold Node.logAbove at he
  split at he
  · exact h.log e (List.mem_of_mem_drop he)
  · rw [List.mem_singleton.mp he]
    exact hK.first _

theorem save (h : Carries K P n) (hK : Tolerant K) {snapshot : Snapshot}
    (hp : Save op n₀ n snapshot n') {s : Disk} (hs : Stocks K P s.data) :
    Carries K P { n' with store := s } := by
  cases hp with
  | own =>
    exact ⟨fun e he => h.log e (List.mem_of_mem_drop he), h.outbound, hs.suffix, hs.snapshot⟩
  | install => exact ⟨h.logAbove hK _, h.outbound, hs.suffix, hs.snapshot⟩

/-- The step lemma: one case per change. -/
theorem change (h : Carries K P n) (hlog : n.log ≠ []) (hK : Tolerant K) (hb : op.Brings K P n₀)
    (hc : Change op n₀ n n') : Carries K P n' := by
  cases hc with
  | track ht => exact h.frame ht.volatile.toFrame
  | @send m hm =>
    refine ⟨h.log, fun m' hm' => ?_, h.store, h.snapshot⟩
    rcases List.mem_append.mp hm' with hm' | hm'
    · exact h.outbound m' hm'
    · rw [List.mem_singleton.mp hm']
      exact fun hh => h.log _ (hm.entry hh)
  | ensure hop mask => exact h.frame (.ensurePeers n mask)
  | newTerm hr hop htype ht hs =>
    exact (h.withStore (h.stocks.saveHardState hs)).same rfl rfl rfl
  | campaign hr hwhy hbit hs => exact (h.withStore (h.stocks.saveHardState hs)).same rfl rfl rfl
  | vote hr hop htype hterm hv hvoter hs =>
    exact (h.withStore (h.stocks.saveHardState hs)).same rfl rfl rfl
  | @commit k s hr hk hc hs =>
    have hset : Carries K P { n with commit := k, store := s } :=
      (h.withStore (h.stocks.saveHardState hs)).same rfl rfl rfl
    exact hset.frame (Volatile.settle _ _ _).toFrame
  | persistError hp hs => exact h.refused hs
  | append hr hl hn he halone hs => exact h.snoc h.log (hb.proposed hK he) hs
  | propose hr hl hn he hc hs => exact (h.snoc h.log (hb.proposed hK he) hs).same rfl rfl rfl
  | appendError hn hs => exact h.refused hs
  | @store m s hr hm hs =>
    have hstored := h.snoc (h.take (m.logIndex + 1 - n.baseIndex)) (hb.entry hm.op hm.entry) hs
    exact hstored.frame (hm.stored hlog _).toFrame
  | @storeError m err s hm hs =>
    have htrim := (h.withLog (h.take (m.logIndex + 1 - n.baseIndex))).frame (hm.trim hlog).toFrame
    exact htrim.refused (by rw [(hm.trim hlog).store]; exact hs)
  | save hp hs hs' =>
    exact h.save hK hp ((h.stocks.saveSnapshot (hb.saved hp) hs).compactLog hs')
  | saveError hp hs => exact h.refused hs
  | compactError hp hs hs' =>
    exact (h.withStore (h.stocks.saveSnapshot (hb.saved hp) hs)).refused hs'
  | noSnapshotStore hp hs => exact h.fail none
  | wait | follow | preVote | preVoteAck | voteAck | lead | pending | read | readAck | readReady
  | apply => exact h.same rfl rfl rfl

/-- What a panic leaves in the store. -/
theorem left (h : Carries K P n) (hK : Tolerant K) (hb : op.Brings K P n₀) {s : Disk}
    (hs : Left op n s) : Stocks K P s.data := by
  cases hs with
  | same => exact h.stocks
  | saved hs => exact h.stocks.saveHardState hs
  | appended he hs => exact h.stocks.append (hb.proposed hK he) hs

/-- A method keeps what the node carries. If it panics, the store has it. -/
theorem run (h : Carries K P n) (hs : Sane n) (hK : Tolerant K) (hb : op.Brings K P n) :
    Triple (fun n' => Stocks K P n'.store.data) op.run n fun _ n' => Sane n' ∧ Carries K P n' := by
  refine (op.keepsAlways (I := Carries K P) hs h fun hs₁ h₁ hc => h₁.change hs₁.log hK hb hc).weaken ?_
  rintro _ n' - ⟨w, hw, hleft⟩
  exact hw.left hK hb hleft

/-! ## New nodes -/

variable {id timeout : Nat} {peers : List Nat} {store : Disk} {d : Recovery}

theorem new (hK : Tolerant K) (h : newNodeWithStore id peers timeout store = .ok n)
    (hs : ∀ e ∈ store.data.suffix, K e) (hP : P store.data.snapshot) : Carries K P n := by
  obtain ⟨-, -, heq⟩ := newNodeWithStore_ok h
  rw [heq]
  exact ⟨fun e he => List.mem_singleton.mp he ▸ hK.first 0, fun _ hm => absurd hm List.not_mem_nil,
    hs, hP⟩

theorem checkRecovered (h : Carries K P n) : Carries K P n.checkRecovered := by
  obtain ⟨n', hf, heq⟩ := Frame.checkRecovered n
  rcases heq with heq | heq <;> rw [heq]
  · exact h.frame hf
  · exact (h.frame hf).fail _

theorem recover (hK : Tolerant K) (h : Raft.recover id peers timeout store d = .ok n)
    (hs : ∀ e ∈ store.data.suffix, K e) (hP : P store.data.snapshot) (hd : ∀ e ∈ d.suffix, K e) :
    Carries K P n := by
  obtain ⟨n₀, hn₀, h⟩ := recover_cases h
  have h₀ : Carries K P n₀ := .new hK hn₀ hs hP
  have hlog : ∀ term, ∀ e ∈ { term } :: d.suffix, K e := fun term e he =>
    (List.mem_cons.mp he).elim (fun heq => heq ▸ hK.first term) (hd e)
  rcases h with rfl | rfl | rfl
  · exact .checkRecovered ⟨hlog 0, h₀.outbound, h₀.store, h₀.snapshot⟩
  · exact (h₀.same rfl rfl rfl : Carries K P (n₀.atSnapshot d)).fail _
  · have h₁ : Carries K P (n₀.atSnapshot d) := h₀.same rfl rfl rfl
    have h₂ := h₁.frame (.ensurePeers _ (d.snapshot.oldVoters ||| d.snapshot.newVoters))
    generalize (n₀.atSnapshot d).ensurePeers _ = m at h₂ ⊢
    exact .checkRecovered ⟨hlog _, h₂.outbound, h₂.store, h₂.snapshot⟩

end Carries

/-! ## Entries to apply -/

theorem applyEntriesLoop_mem (rest : Nat) (dst : List Entry) (n : Node Disk) :
    Triple (fun _ => True) (applyEntriesLoop rest dst) n fun es _ => ∀ e ∈ es, e ∈ dst ∨ e ∈ n.log := by
  induction rest generalizing dst n with
  | zero => exact Sim.ret fun _ he => .inl he
  | succ rest ih =>
    refine Sim.seq_update (Sim.seq_get (Sim.seq_check_of trivial fun e he => ?_))
    refine Sim.mono (ih _ _) fun es _ _ _ hes e' he' => (hes e' he').elim (fun hmem => ?_) .inr
    split at hmem
    · refine (List.mem_append.mp hmem).imp_right fun hmem => ?_
      exact List.mem_singleton.mp hmem ▸ Node.entryAt_mem he
    · exact .inl hmem

/-- The entries to apply are in the log. -/
theorem applyEntries_mem {es : List Entry} (hx : applyEntries [] n = .ok es n') : ∀ e ∈ es, e ∈ n.log := by
  have hloop : Triple (fun _ => True) (applyEntries []) n fun es _ => ∀ e ∈ es, e ∈ [] ∨ e ∈ n.log :=
    Sim.seq_get (applyEntriesLoop_mem _ _ n)
  exact fun e he => (hloop.ok hx e he).resolve_left List.not_mem_nil

/-! ## Clusters -/

/-- The method proposes nothing outside `K`. -/
def Op.Within (K : Entry → Prop) : Op → Prop
  | .propose command => ∀ term, K { term, command }
  | .proposeRequest operation clientID requestID key value =>
    ∀ term, K { term, operation, clientID, requestID, key, value }
  | _ => True

/-- The event proposes nothing outside `K`. -/
def Event.Within (K : Entry → Prop) : Event → Prop
  | .call op => op.Within K
  | _ => True

theorem Op.Within.brings (hw : op.Within K)
    (hm : ∀ m, op = .step m → m.hasEntry = true → K m.entry) : op.Brings K (fun _ => True) n₀ := by
  cases op with
  | propose | proposeRequest => exact hw
  | step m => exact ⟨hm m rfl, fun _ => trivial⟩
  | compact => exact fun _ _ => trivial
  | _ => trivial

/-- A node that runs carries only what is in `K`, and so does the store that a crash left. -/
def Carried (K : Entry → Prop) : Proc Disk → Prop
  | .up n => Carries K (fun _ => True) n
  | .down store => ∀ e ∈ store.data.suffix, K e

/-- The invariant of a process. -/
def Keeps (K : Entry → Prop) (p : Proc Disk) : Prop := Carried K p ∧ ∀ n, p = .up n → Sane n

theorem Keeps.up (h : Carries K (fun _ => True) n) (hs : Sane n) : Keeps K (.up n) :=
  ⟨h, fun _ heq => Proc.up.inj heq ▸ hs⟩

theorem Keeps.down {store : Disk} (h : ∀ e ∈ store.data.suffix, K e) : Keeps K (.down store) :=
  ⟨h, fun _ heq => by cases heq⟩

theorem Keeps.act {S : Setup Disk} (hK : Tolerant K) {i : Nat} {e : Event} {p p' : Proc Disk}
    {sent out : List Message} (h : Keeps K p) (hsent : ∀ m ∈ sent, m.hasEntry = true → K m.entry)
    (hw : e.Within K) (hact : S.act i e p sent = some (p', out)) :
    Keeps K p' ∧ ∀ m ∈ out, m.hasEntry = true → K m.entry := by
  have hnil : ∀ m ∈ ([] : List Message), m.hasEntry = true → K m.entry :=
    fun _ hm => absurd hm List.not_mem_nil
  unfold Setup.act at hact
  split at hact
  · rename_i op n
    split at hact
    · rename_i hd
      cases hact
      refine ⟨?_, hnil⟩
      have hrun := Carries.run h.1 (h.2 n rfl) hK (hw.brings fun m hop => by
        subst hop
        exact hsent m hd.1)
      cases hx : op.run n with
      | ok u n' => exact .up (hrun.ok hx).2 (hrun.ok hx).1
      | error e n' => exact .down (hrun.error hx).suffix
    · cases hact
  · rename_i n
    cases hact
    have hc : Carries K (fun _ => True) n := h.1
    have hs := h.2 n rfl
    exact ⟨.up ⟨hc.log, fun _ hm => absurd hm List.not_mem_nil, hc.store, trivial⟩ ⟨hs.log, hs.stopped⟩,
      hc.outbound⟩
  · cases hact
    exact ⟨.down (Carries.store h.1), hnil⟩
  · obtain ⟨p, hp, hpo⟩ := Option.map_eq_some_iff.mp hact
    cases hpo
    unfold Setup.restart at hp
    split at hp
    · cases hp
    · rename_i hopen
      split at hp
      · cases hp
      · rename_i hrec
        cases hp
        cases hopen
        exact ⟨.up (.recover hK hrec h.1 trivial h.1) (recover_sane hrec), hnil⟩
  · cases hact

/-- What all proposed commands have in common, all commands in logs, stores and messages have. -/
theorem validity (S : Setup Disk) {K : Entry → Prop} (hK : Tolerant K) {c : Cluster Disk}
    (hr : Net.Runs S.act (fun _ e _ => e.Within K) S.start c) :
    (∀ i p, c.procs i = some p → Carried K p) ∧ ∀ m ∈ c.sent, m.hasEntry = true → K m.entry := by
  have hkeeps := hr.keeps (R := fun _ => Keeps K) (M := fun m => m.hasEntry = true → K m.entry)
    (fun h hsent hw hact => h.act hK hsent hw hact) (fun i p hp => ?_)
    fun _ hm => absurd hm List.not_mem_nil
  · exact ⟨fun i p hp => (hkeeps.1 i p hp).1, hkeeps.2⟩
  dsimp only [Setup.start] at hp
  split at hp
  · rename_i hi
    obtain ⟨n, hn, rfl⟩ := ok_of_map hp
    refine .up (.new hK hn (fun e he => ?_) trivial) ?_
    · rw [show (S.store i).data = {} from (S.empty i hi).1] at he
      cases he
    · obtain ⟨-, -, heq⟩ := newNodeWithStore_ok hn
      rw [heq]
      exact ⟨List.cons_ne_nil _ _, fun _ => rfl⟩
  · cases hp

/-- The event proposes no command but 7. -/
def Event.sevens : Event → Bool
  | .call (.propose command) => command == 7
  | .call (.proposeRequest ..) => false
  | _ => true

/-- Node 1 has proposed the command 7, and all its commands are 7 (or the 0 of the first element).
-/
theorem validity_trio : ∃ (c : Cluster Disk) (n : Node Disk),
    Net.Runs trio.act (fun _ e _ => e.sevens = true) trio.start c ∧ nodeAt c 1 = some n ∧
      (∃ e ∈ n.log, e.command = 7) ∧
      ∀ e ∈ n.log, e.kind = .normal → e.command = 0 ∨ e.command = 7 := by
  have h : (trio.start.play trio.act (fun _ e _ => e.sevens = true)
      (elected ++ Move.calls 1 (.propose 7))).any (fun c => (nodeAt c 1).any fun n =>
        n.log.any fun e => e.command == 7) = true := by
    decide +kernel
  simp only [Option.any_eq_true, List.any_eq_true, beq_iff_eq] at h
  obtain ⟨c, hc, n, hn, hseven⟩ := h
  have hr := Net.Runs.of_play hc
  refine ⟨c, n, hr, hn, hseven, ?_⟩
  have hwithin : ∀ e : Event, e.sevens = true →
      e.Within fun e => e.kind = .normal → e.command = 0 ∨ e.command = 7 := by
    intro e he
    cases e with
    | call op =>
      cases op with
      | propose command => exact fun _ _ => .inr (eq_of_beq he)
      | proposeRequest => cases he
      | _ => trivial
    | _ => trivial
  have htolerant : Tolerant fun e => e.kind = .normal → e.command = 0 ∨ e.command = 7 := by
    refine ⟨fun _ _ => .inl rfl, fun _ h => ?_, fun _ _ _ h => ?_, fun _ _ h => ?_⟩ <;> cases h
  have hall := (validity trio htolerant (hr.mono fun _ e _ => hwithin e)).1
  exact Carries.log (hall 1 _ (procs_of_nodeAt hn))

end Promtact.Raft
