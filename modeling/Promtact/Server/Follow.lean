import Promtact.Server.Pass

/-!
# Runs of the servers, and their shadows

`Follows S c g` says that the shadow `g` is that of the servers `c`. It holds from the start, where
the nodes are stopped before they have done anything, and every event that does not install a
snapshot keeps it (`Follows.step`, `Follows.run`). Where no server compacts its log, there is no such
event (`not_installs_of_runs`).

A server that is opened builds its machine from the snapshot in its store and the log after it, and
this is the machine it had (`Along.opens`).
-/

namespace Promtact.Service

open Raft Protocol StateMachine Refine Network Consensus

variable {S : Setup Disk} {i j : Nat} {g g' : Shadow} {items : List Item} {s : Server}
  {snapshotEntries : Nat → Nat}

/-! ## Opening -/

theorem checkRecovered_applied (n : Node Disk) : n.checkRecovered.applied = n.applied ∧
    n.checkRecovered.baseIndex = n.baseIndex := by
  obtain ⟨n', hf, heq⟩ := Frame.checkRecovered n
  rcases heq with heq | heq <;> rw [heq]
  · exact ⟨hf.applied, hf.baseIndex⟩
  · exact ⟨hf.applied, hf.baseIndex⟩

/-- A node that was recovered has applied what is in the snapshot. -/
theorem recover_applied {w : World Nat Entry} {timeout : Nat} {peers : List Nat} {store : Disk}
    {n n₀ : Node Disk} (hd : Durable compacting S.voters w i store.data)
    (hn₀ : newNodeWithStore i peers timeout store = .ok n₀) (hv : n₀.votersOld = S.voters)
    (h : recover i peers timeout store store.data = .ok n) (hle : n.baseIndex ≤ n.applied) :
    n.applied = store.data.snapshot.lastIndex := by
  have hbase : n.baseIndex = store.data.snapshot.lastIndex := by
    obtain ⟨n', hn', -, -, -, -, hb, -⟩ := recover_ready hd rfl trivial hn₀ hv
    cases hn'.symm.trans h
    exact (checkRecovered_applied n').2.trans hb
  obtain ⟨n₁, hn₁, hcases⟩ := recover_cases h
  obtain ⟨-, -, hnew⟩ := newNodeWithStore_ok hn₁
  have hzero : n₁.applied = 0 := by rw [hnew]
  rcases hcases with heq | heq | heq
  · have ha : n.applied = 0 := by
      rw [heq, (checkRecovered_applied _).1]
      exact hzero
    omega
  · have ha : n.applied = 0 := by
      rw [heq]
      exact hzero
    omega
  · rw [heq, (checkRecovered_applied _).1]

theorem openMachine_pictured {w : World Nat Entry} {snapshot : Snapshot} {machine : Machine}
    (h : Pictured items w i snapshot) (hopen : openMachine snapshot = .ok machine)
    (hlt : snapshot.lastIndex ≠ 0 → snapshot.lastIndex < 2 ^ 32) :
    machine = replay ((w.log i).take snapshot.lastIndex) := by
  unfold openMachine at hopen
  by_cases hz : snapshot.lastIndex = 0
  · rw [if_neg fun hc => hc.1 hz] at hopen
    rw [hz, List.take_zero]
    exact (Except.ok.inj hopen).symm
  · obtain ⟨hne, hrestore⟩ := h.restore hz (hlt hz)
    rw [if_pos ⟨hz, hne⟩, hrestore] at hopen
    exact (Except.ok.inj hopen).symm

theorem applyOpened_ok {machine machine' : Machine} {es : List Entry}
    (h : applyOpened machine es = .ok machine') :
    machine' = es.foldl (fun m e => (m.apply e).1) machine := by
  induction es generalizing machine with
  | nil => exact (Except.ok.inj h).symm
  | cons e es ih =>
    rw [applyOpened, List.foldlM_cons] at h
    obtain ⟨m, hm, h⟩ := check_ok h
    cases hr : (machine.apply e).2 with
    | error err =>
      rw [hr] at hm
      cases hm
    | ok result =>
      rw [hr] at hm
      cases hm
      exact ih h

theorem restart_ok {store : Disk} {n : Node Disk}
    (h : recover i (S.peers i) (S.timeout i) store store.data = .ok n) :
    S.restart i store = some (.up n) := by
  have hre : DurableStore.reopen store = .ok (store, store.data) := rfl
  unfold Setup.restart
  rw [hre]
  dsimp only
  rw [h]

/-- A server is opened with the machine of the log that it has applied. -/
theorem Along.opens {store : Disk} (h : Along S items g [])
    (hcalm : g.compacts = false → ∀ i, snapshotEntries i = 0)
    (hp : g.reading.cluster.procs i = some (.down store)) (hrest : Resting items g.world i store)
    (hopen : openServer S snapshotEntries i store = .ok s) : ∃ g', Moves S i g g' ∧
      Mid S items i g' s ∧ s.node.applied = s.node.commit ∧ s.out = [] := by
  unfold openServer at hopen
  split at hopen
  · cases hopen
  rename_i hre
  cases hre
  split at hopen
  · cases hopen
  rename_i node hrec
  split at hopen
  · cases hopen
  · cases hopen
  rename_i machine es node' hmachine hx
  split at hopen
  · cases hopen
  rename_i machine' happly
  cases hopen
  -- the node is restarted
  have hact : S.act i .restart (.down store) g.reading.cluster.sent = some (.up node, []) := by
    show (S.restart i store).map _ = _
    rw [restart_ok hrec]
    rfl
  obtain ⟨g₁, hg₁⟩ := h.sound.event hp hact rfl (fun _ => rfl) fun _ => nofun
  have halong := h.goes hg₁ nofun
  have hrep : Rep compacting S.voters g₁.world i node := hg₁.moves.sound.rep hg₁.proc
  have happlied : node.applied = store.data.snapshot.lastIndex := by
    obtain ⟨d, hh, hd⟩ := h.sound.stored hp
    cases hh
    obtain ⟨n₀, hn₀, hv⟩ := S.new_ok (h.sound.known.joined.procs i _ hp).1 store
    exact recover_applied hd hn₀ hv hrec hrep.bounds.1
  have hpic := hrest.snapshot.moves h.sound hg₁.moves
  have hmid : Mid S items i g₁ { snapshotEntries := snapshotEntries i, node, machine } := by
    refine ⟨halong, hg₁.proc, ⟨?_, ?_, nofun, nofun, nofun, fun hc => ?_⟩, fun hs => ?_⟩
    · exact .recover (asked_tolerant items) hrec hrest.suffix hpic hrest.suffix
    · rw [happlied]
      exact hpic.asked
    · exact hcalm (hg₁.moves.compacts ▸ hc) i
    · rw [happlied] at hs ⊢
      refine openMachine_pictured hpic hmachine fun hne => hs ?_
      refine eq_true_of_ne_false fun hc => hne (h.sound.blank (hg₁.moves.compacts ▸ hc) hp)
  -- and applies what it has committed
  have hrun : onNode (applyEntries []) { snapshotEntries := snapshotEntries i, node, machine } =
      .ok es { snapshotEntries := snapshotEntries i, node := node', machine } := by
    unfold onNode zoom
    rw [hx]
  obtain ⟨g₂, hstar, done, ha⟩ := (Applying.start hmid).ok hrun
  refine ⟨g₂, hg₁.moves.trans (.of_star hg₁.moves.sound hstar), ⟨ha.along, ha.proc, ?_⟩, ha.applied,
    rfl⟩
  refine { ha.serving with machine := fun hlt => ?_ }
  have hcommit : node'.applied = node'.commit := ha.applied
  have hdone : machine = applyAll done := ha.machine (hcommit ▸ hlt)
  have hcommands : commandsOf ((g₂.world.log i).take node'.commit) = done ++ es := ha.commands
  show machine' = replay ((g₂.world.log i).take node'.applied)
  rw [applyOpened_ok happly, hdone, hcommit, replay, hcommands, applyAll, applyAll, List.foldl_append]

/-! ## Runs -/

variable (S) in
/-- A server between two passes, or the store of one that does not run. -/
def Stands (items : List Item) (g : Shadow) (i : Nat) : Proc → Prop
  | .up s => Mid S items i g s ∧ s.node.applied = s.node.commit ∧ s.out = []
  | .down store => g.reading.cluster.procs i = some (.down store) ∧ Resting items g.world i store

variable (S) in
/-- The shadow of the servers. -/
structure Follows (c : Servers) (g : Shadow) : Prop where
  along : Along S c.sent g []
  accounted : Accounted S c.sent g
  procs : ∀ i p, c.procs i = some p → Stands S c.sent g i p

theorem Along.later {out out' : List Item} (h : Along S items g (out ++ out')) :
    Along S (items ++ out) g out' where
  sound := h.sound
  sent := by rw [h.sent, List.append_assoc]
  used r hr := by
    rw [readsOn_append]
    exact List.mem_append_left _ (h.used r hr)
  shown x hx := (h.shown x (List.mem_append_right _ hx)).mono out

/-- What the server does between passes does not depend on the others. -/
theorem Stands.frame {p : Proc} {out : List Item} (h : Stands S items g j p) (hj : j ≠ i)
    (hg : g.Sound S) (hm : Moves S i g g') (halong : Along S (items ++ out) g' []) :
    Stands S (items ++ out) g' j p := by
  cases p with
  | up s =>
    obtain ⟨hmid, ha, hout⟩ := h
    refine ⟨⟨hout ▸ halong, (hm.others j hj).trans hmid.proc, ?_⟩, ha, hout⟩
    exact (hmid.running.moves hg hm hmid.applied_le hmid.running.carries rfl).mono out
  | down store =>
    refine ⟨(hm.others j hj).trans h.1, ?_⟩
    exact (h.2.moves hg hm).mono (List.subset_append_left _ _)

theorem Follows.update {c : Servers} {p : Proc} {out : List Item} (h : Follows S c g)
    (hm : Moves S i g g') (halong : Along S (c.sent ++ out) g' [])
    (hacc : Accounted S (c.sent ++ out) g') (hp : Stands S (c.sent ++ out) g' i p) :
    Follows S ⟨Function.update c.procs i (some p), c.sent ++ out⟩ g' := by
  refine ⟨halong, hacc, fun j q hq => ?_⟩
  dsimp only at hq
  by_cases hj : j = i
  · subst hj
    rw [Function.update_self] at hq
    cases hq
    exact hp
  · rw [Function.update_of_ne hj] at hq
    exact (h.procs j q hq).frame hj h.along.sound hm halong

/-- The end of a pass that began with the items `asked`. -/
theorem Follows.pass {c : Servers} {asked out : List Item} {p : Proc} (h : Follows S c g)
    (hm : Moves S i g g') (halong : Along S (c.sent ++ asked) g' out)
    (hacc : Accounted S (c.sent ++ asked) g)
    (hp : Along S (c.sent ++ asked ++ out) g' [] → Stands S (c.sent ++ asked ++ out) g' i p) :
    Follows S ⟨Function.update c.procs i (some p), c.sent ++ (asked ++ out)⟩ g' := by
  have halong' : Along S (c.sent ++ asked ++ out) g' [] :=
    Along.later (by rw [List.append_nil]; exact halong)
  have hacc' := (hacc.moves h.along.sound hm).append halong.shown
  have hstands := hp halong'
  rw [List.append_assoc] at halong' hacc' hstands
  exact h.update hm halong' hacc' hstands

/-- A pass begins. -/
theorem Mid.enter (h : Mid S items i g s) (hout : s.out = []) {asked : List Item}
    (hpeers : peersOf asked = []) : Mid S (items ++ asked) i g s := by
  refine ⟨⟨h.along.sound, ?_, fun r hr => ?_, ?_⟩, h.proc, h.running.mono asked⟩
  · rw [h.along.sent, hout, List.append_nil, List.append_nil, peersOf_append, hpeers, List.append_nil]
  · rw [readsOn_append]
    exact List.mem_append_left _ (h.along.used r hr)
  · rw [hout]
    exact fun _ hx => absurd hx List.not_mem_nil

/-- The server installs the snapshot that it gets, if its store takes it. -/
def Event.Installs : Event → Proc → Prop
  | .pass (.message m), .up s => s.node.TakesSnapshot m
  | _, _ => False

instance : (event : Event) → (p : Proc) → Decidable (event.Installs p)
  | .pass (.message m), .up s => inferInstanceAs (Decidable (s.node.TakesSnapshot m))
  | .pass (.message _), .down _ | .pass (.request _), _ | .pass .tick, _ | .crash, _ | .restart, _ =>
    .isFalse id

/-- No snapshot of a leader comes to the server. -/
def Event.plain : Event → Bool
  | .pass (.message m) => m.type != .installSnapshot
  | _ => true

/-- A pass of the loop. -/
theorem Follows.iterate {c : Servers} {input : Input} {p' : Proc} {out : List Item} (h : Follows S c g)
    (hp : c.procs i = some (.up s)) (hfit : input.Fits c.sent i g s)
    (hafter : after (input.items i) (Service.iterate input s) = (p', out)) :
    ∃ g', Moves S i g g' ∧ Follows S ⟨Function.update c.procs i (some p'), c.sent ++ out⟩ g' := by
  obtain ⟨hmid, ha, hout⟩ := h.procs i _ hp
  have hpeers : peersOf (input.items i) = [] := by cases input <;> rfl
  have hshown : ∀ x ∈ input.items i, Shows S c.sent g x := by
    cases input with
    | request r =>
      intro x hx
      rw [List.mem_singleton.mp hx]
      trivial
    | _ => exact fun x hx => absurd hx List.not_mem_nil
  have hpass := (hmid.enter hout hpeers).iterate hout ha h.accounted hfit
  have hacc := h.accounted.append hshown
  cases hx : Service.iterate input s with
  | ok u s' =>
    rw [hx] at hafter
    cases hafter
    obtain ⟨g', hstar, hmid', ha'⟩ := hpass.ok hx
    have hm := Moves.of_star h.along.sound hstar
    refine ⟨g', hm, h.pass hm hmid'.along hacc fun halong => ⟨⟨halong, hmid'.proc, ?_⟩, ha', rfl⟩⟩
    have hrun := hmid'.running.mono s'.out
    exact { hrun with machine := hrun.machine }
  | error e s' =>
    rw [hx] at hafter
    cases hafter
    obtain ⟨g', hstar, hfell⟩ := hpass.error hx
    have hm := Moves.of_star h.along.sound hstar
    exact ⟨g', hm, h.pass hm hfell.along hacc fun _ =>
      ⟨hfell.proc, hfell.resting.mono (List.subset_append_left _ _)⟩⟩

/-- Every event that does not install a snapshot keeps the shadow. -/
theorem Follows.step {c : Servers} {event : Event} {p p' : Proc} {out : List Item} (h : Follows S c g)
    (hcalm : g.compacts = false → ∀ i, snapshotEntries i = 0) (hp : c.procs i = some p)
    (hno : ¬ event.Installs p) (hact : act S snapshotEntries i event p c.sent = some (p', out))
    (hreads : g.distinct = true → (readsOn (c.sent ++ out)).Nodup) :
    ∃ g', Moves S i g g' ∧ Follows S ⟨Function.update c.procs i (some p'), c.sent ++ out⟩ g' := by
  have hs := h.procs i p hp
  have hquiet : ∀ {g'}, Moves S i g g' → Along S c.sent g' [] → Stands S c.sent g' i p' →
      Follows S ⟨Function.update c.procs i (some p'), c.sent ++ []⟩ g' := fun hm halong hstands => by
    refine h.update hm ?_ ?_ ?_ <;> rw [List.append_nil]
    · exact halong
    · exact h.accounted.moves h.along.sound hm
    · exact hstands
  rcases act_some hact with ⟨input, s, rfl, rfl, hav, hafter⟩ | ⟨s, rfl, rfl, rfl⟩ |
    ⟨store, s, rfl, hopen, rfl, rfl⟩
  · -- a pass of the loop
    refine h.iterate hp ?_ hafter
    cases input with
    | message m => exact ⟨hav.1, hav.2, hno⟩
    | tick => trivial
    | request r =>
      intro hd hget hused
      have hreads := hreads hd
      obtain ⟨out', rfl⟩ : ∃ out', out = [.asked i r] ++ out' := by
        cases hx : Service.iterate (.request r) s with
        | ok u s' => rw [hx] at hafter; cases hafter; exact ⟨_, rfl⟩
        | error e s' => rw [hx] at hafter; cases hafter; exact ⟨_, rfl⟩
      rw [readsOn_append, readsOn_append] at hreads
      have hread : readsOn [.asked i r] = [(i, contextID r.value)] :=
        List.filterMap_cons_some (if_pos hget)
      rw [hread] at hreads
      exact (List.nodup_append.mp hreads).2.2 _ (h.along.used _ hused) _ (by simp) rfl
  · -- a crash
    obtain ⟨hmid, -, -⟩ := hs
    obtain ⟨g', hg⟩ := h.along.sound.event (e := .crash) hmid.proc rfl rfl (fun _ => rfl)
      fun _ _ heq => nomatch heq
    exact ⟨g', hg.moves, hquiet hg.moves (h.along.goes hg fun _ heq => nomatch heq)
      ⟨hg.proc, hmid.running.resting.moves h.along.sound hg.moves⟩⟩
  · -- a server is opened
    obtain ⟨g', hm, hmid, ha, hout⟩ := h.along.opens hcalm hs.1 hs.2 hopen
    exact ⟨g', hm, hquiet hm (hout ▸ hmid.along) ⟨hmid, ha, hout⟩⟩

/-! ## The start -/

/-- The nodes in `l` are stopped before they have done anything. -/
theorem stopped (S : Setup Disk) {l : List Nat} (hl : ∀ i ∈ l, i ∈ S.ids) :
    ∃ x, Reading.Runs S (origin S) x ∧ Net.Runs S.act NoCompaction S.start x.cluster ∧
      x.cluster.sent = [] ∧ x.used = [] ∧
      (∀ i ∈ l, x.cluster.procs i = some (.down (S.store i))) ∧
      ∀ i, i ∉ l → x.cluster.procs i = S.start.procs i := by
  induction l with
  | nil =>
    exact ⟨origin S, .refl, .refl, rfl, rfl, fun _ h => absurd h List.not_mem_nil, fun _ _ => rfl⟩
  | cons j l ih =>
    obtain ⟨x, hx, hquiet, hsent, hused, hdown, hup⟩ := ih fun i hi => hl i (List.mem_cons_of_mem _ hi)
    by_cases hj : j ∈ l
    · refine ⟨x, hx, hquiet, hsent, hused, fun i hi => ?_,
        fun i hi => hup i fun h => hi (List.mem_cons_of_mem _ h)⟩
      exact hdown i ((List.mem_cons.mp hi).elim (fun h => h ▸ hj) id)
    · obtain ⟨n, hn, -⟩ := S.new_ok (hl j List.mem_cons_self) (S.store j)
      have hp : x.cluster.procs j = some (.up n) := by
        rw [hup j hj]
        show (if j ∈ S.ids then _ else _) = _
        rw [if_pos (hl j List.mem_cons_self), hn]
        rfl
      have hstore : n.store = S.store j := by rw [(newNodeWithStore_ok hn).2.2]
      have hnet : x.cluster.next S.act j .crash = some
          ⟨Function.update x.cluster.procs j (some (.down n.store)), x.cluster.sent ++ []⟩ := by
        rw [Net.next, hp, Option.bind_some]
        rfl
      have hnext : x.next S j .crash = some
          ⟨⟨Function.update x.cluster.procs j (some (.down n.store)), x.cluster.sent ++ []⟩, x.used⟩ := by
        unfold Reading.next
        rw [hp, Option.bind_some]
        dsimp only
        rw [if_pos ⟨rfl, fun _ h => absurd h List.not_mem_nil⟩, hnet]
        rfl
      refine ⟨_, hx.tail ⟨j, .crash, hnext⟩, hquiet.tail ⟨j, .crash, _, hp, rfl, hnet⟩,
        by rw [hsent]; rfl, hused, fun i hi => ?_, fun i hi => ?_⟩
      · by_cases hij : i = j
        · subst hij
          exact (Function.update_self ..).trans (by rw [hstore])
        · exact (Function.update_of_ne hij ..).trans (hdown i ((List.mem_cons.mp hi).resolve_left hij))
      · have hij : i ≠ j := fun h => hi (h ▸ List.mem_cons_self)
        exact (Function.update_of_ne hij ..).trans (hup i fun h => hi (List.mem_cons_of_mem _ h))

theorem Follows.start (S : Setup Disk) (compacts distinct : Bool) :
    ∃ g, Follows S (start S) g ∧ g.compacts = compacts ∧ g.distinct = distinct := by
  obtain ⟨x, hx, hquiet, hsent, hused, hdown, -⟩ := stopped S (l := S.ids) fun _ => id
  obtain ⟨w, -, -, hknown⟩ := Setup.Known.start.fixed hx.fixed
  have hsound : Shadow.Sound S ⟨x, w, compacts, distinct⟩ :=
    ⟨hx.fixed, fun _ => hquiet, fun _ => hx, hknown⟩
  refine ⟨_, ⟨⟨hsound, hsent, fun r hr => ?_, fun _ h => absurd h List.not_mem_nil⟩, ?_, ?_⟩, rfl, rfl⟩
  · exact absurd (hused ▸ hr) List.not_mem_nil
  · intro pre y post heq
    cases pre <;> cases heq
  · intro i p hp
    change (if i ∈ S.ids then _ else _) = _ at hp
    split at hp
    · rename_i hi
      cases hp
      have hdata : (S.store i).data = {} := (S.empty i hi).1
      refine ⟨hdown i hi, ?_, ?_, ?_, ?_⟩
      · rw [hdata]
        exact fun _ h => absurd h List.not_mem_nil
      · rw [hdata]
        exact Nat.zero_le _
      · rw [hdata]
        exact fun _ h => absurd h List.not_mem_nil
      · rw [hdata]
        exact fun h => absurd rfl h
    · cases hp

variable {c c' : Servers}

/-- A run keeps the shadow, if no two reads of a server have the same context where the shadow is to
say something about reads. -/
theorem Follows.run (h : Follows S c g) (hcalm : g.compacts = false → ∀ i, snapshotEntries i = 0)
    (hr : Net.Runs (act S snapshotEntries) (fun _ event p => ¬ event.Installs p) c c')
    (hreads : g.distinct = true → (readsOn c'.sent).Nodup) :
    ∃ g', Follows S c' g' ∧ g'.compacts = g.compacts ∧ g'.distinct = g.distinct ∧
      g.world.Ext g'.world := by
  induction hr with
  | refl => exact ⟨g, h, rfl, rfl, .refl _⟩
  | @tail c₁ c₂ _ hstep ih =>
    obtain ⟨i, event, p, hp, hno, hnext⟩ := hstep
    obtain ⟨p', out, hact, rfl⟩ := Net.next_some hp hnext
    have hbefore : g.distinct = true → (readsOn c₁.sent).Nodup := fun hd => by
      refine List.Nodup.sublist ?_ (hreads hd)
      rw [readsOn_append]
      exact List.sublist_append_left _ _
    obtain ⟨g₁, h₁, hc₁, hd₁, hx₁⟩ := ih hbefore
    obtain ⟨g₂, hm, h₂⟩ := h₁.step (hc₁ ▸ hcalm) hp hno hact (hd₁ ▸ hreads)
    exact ⟨g₂, h₂, hm.compacts.trans hc₁, hm.distinct.trans hd₁, hx₁.trans hm.ext⟩

/-- The servers have a shadow, if they install no snapshots of leaders. -/
theorem follows_of_runs (compacts distinct : Bool)
    (hcalm : compacts = false → ∀ i, snapshotEntries i = 0)
    (hr : Net.Runs (act S snapshotEntries) (fun _ event p => ¬ event.Installs p) (start S) c)
    (hreads : distinct = true → (readsOn c.sent).Nodup) :
    ∃ g, Follows S c g ∧ g.compacts = compacts ∧ g.distinct = distinct := by
  obtain ⟨g₀, h₀, rfl, rfl⟩ := Follows.start S compacts distinct
  obtain ⟨g, h, hc, hd, -⟩ := h₀.run hcalm hr hreads
  exact ⟨g, h, hc, hd⟩

/-! ## Without compaction -/

/-- No message holds a snapshot. -/
theorem Follows.not_installs {event : Event} {p : Proc} (h : Follows S c g) (hc : g.compacts = false)
    (hact : (act S snapshotEntries i event p c.sent).isSome) : ¬ event.Installs p := by
  unfold Event.Installs
  split
  · rename_i m s
    change Option.isSome (if Input.Available i c.sent (.message m) then _ else none) at hact
    split at hact
    · rename_i hav
      rintro ⟨htype, -, -, hold⟩
      refine hold (h.along.sound.empty hc ?_ htype)
      rw [h.along.sent, List.append_nil]
      exact mem_peersOf.mpr hav.1
    · cases hact
  · exact id

/-- Where no server compacts its log, none installs a snapshot. -/
theorem not_installs_of_runs {A : Nat → Event → Proc → Prop} (hcalm : ∀ i, snapshotEntries i = 0)
    (hr : Net.Runs (act S snapshotEntries) A (start S) c) :
    Net.Runs (act S snapshotEntries) (fun _ event p => ¬ event.Installs p) (start S) c := by
  induction hr with
  | refl => exact .refl
  | tail _ hstep ih =>
    obtain ⟨i, event, p, hp, -, hnext⟩ := hstep
    obtain ⟨p', out, hact, -⟩ := Net.next_some hp hnext
    obtain ⟨g, hg, hc, -⟩ := follows_of_runs false false (fun _ => hcalm) ih nofun
    exact ih.tail ⟨i, event, p, hp, hg.not_installs hc (by rw [hact]; rfl), hnext⟩

end Promtact.Service
