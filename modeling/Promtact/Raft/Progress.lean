import Promtact.Raft.Changes.Runs
import Promtact.Raft.Safety

/-!
# What a leader knows of its peers

For every peer a leader keeps the next index to send (`next`) and the last index that the peer has
acknowledged (`matchIdx`). With a fixed membership both stay within its log, and the store of a peer
that is not in a later term has the leader's log up to `matchIdx` (`progress_within_log`).

The next index may be at or below the acknowledged one: every rejection of the current term lowers
it, also one that is delivered a second time. And a leader that was deposed without noticing keeps
what it knows of a peer that has since replaced those entries. `stale_progress` has both.
-/

namespace Promtact.Raft

open Refine Consensus Network

/-! ## The next index -/

section

variable {σ : Type} [StableStore σ] {op : Op} {n₀ n n' : Node σ}

omit [StableStore σ] in
theorem Paced.enlists (h : Paced n) (hs : n'.state = .leader → n.state = .leader) (he : Enlists n n') :
    Paced n' := by
  intro hl p hp
  rw [he.lastIndex]
  rcases he.peer p hp with ⟨hp, hnext, -⟩ | ⟨-, -, hnext, -⟩
  · rw [hnext]
    exact h (hs hl) p hp
  · rw [hnext]
    exact ⟨Nat.le_add_left _ _, Nat.le_refl _⟩

omit [StableStore σ] in
theorem Paced.setNext (h : Paced n) {p k : Nat} (h1 : 1 ≤ k)
    (hk : n.state = .leader → p ∈ n.peers → k ≤ n.lastIndex + 1) : Paced (n.setNext p k) := by
  intro hl q hq
  by_cases hqp : q = p
  · subst hqp
    rw [show (n.setNext q k).next q = k from Function.update_self ..]
    exact ⟨h1, hk hl hq⟩
  · rw [show (n.setNext p k).next q = n.next q from Function.update_of_ne hqp ..]
    exact h hl q hq

/-- An acknowledged snapshot is in the log of the leader. -/
def Node.AcksBelow (n : Node σ) (op : Op) : Prop :=
  ∀ m, op = .step m → m.type = .installSnapshotResponse → m.reject = false → n.state = .leader →
    m.term = n.term → m.matchIndex ≤ n.lastIndex

/-- In the middle of the method `op`, which began at `n₀`: either the node still leads its term, and
its next indexes are within its log, or it has just been elected. -/
structure Pacing (op : Op) (n₀ n : Node σ) : Prop where
  term_le : n₀.term ≤ n.term
  stays : n₀.state = .leader → n.term = n₀.term → n.state ≠ .candidate
  paced : n.state = .leader → op.Elects ∧ ¬ (n₀.state = .leader ∧ n.term = n₀.term) ∨
    (n₀.state = .leader ∧ n.term = n₀.term) ∧ n₀.lastIndex ≤ n.lastIndex ∧ Paced n

namespace Pacing

omit [StableStore σ]

theorem refl (h : Paced n) : Pacing op n n where
  term_le := Nat.le_refl _
  stays hl _ hc := by cases hl.symm.trans hc
  paced hl := .inr ⟨⟨hl, rfl⟩, Nat.le_refl _, h⟩

theorem keep (h : Pacing op n₀ n) (hs : n'.state = n.state ∨ n'.state = .follower)
    (ht : n'.term = n.term) (hlast : n.lastIndex ≤ n'.lastIndex)
    (hp : n₀.state = .leader ∧ n.term = n₀.term → n₀.lastIndex ≤ n.lastIndex → Paced n → Paced n') :
    Pacing op n₀ n' where
  term_le := ht ▸ h.term_le
  stays hl ht' hc := by
    rcases hs with hs | hs
    · exact h.stays hl (ht ▸ ht') (hs ▸ hc)
    · cases hs.symm.trans hc
  paced hl := by
    have hl' : n.state = .leader := hs.elim (fun hs => hs ▸ hl) fun hs => by cases hs.symm.trans hl
    rw [ht]
    refine (h.paced hl').imp_right fun ⟨hsame, hle, hpaced⟩ => ?_
    exact ⟨hsame, hle.trans hlast, hp hsame hle hpaced⟩

theorem enlists (h : Pacing op n₀ n) (hs : n'.state = n.state ∨ n'.state = .follower)
    (ht : n'.term = n.term) (he : Enlists n n') : Pacing op n₀ n' :=
  h.keep hs ht he.lastIndex.ge fun _ _ hp => hp.enlists
    (fun hl => hs.elim (fun hs => hs ▸ hl) fun hs => by cases hs.symm.trans hl) he

/-- A node that follows has no next indexes. -/
theorem stop (h : Pacing op n₀ n) (hs : n'.state = .follower) (ht : n.term ≤ n'.term) :
    Pacing op n₀ n' where
  term_le := h.term_le.trans ht
  stays _ _ hc := by cases hs.symm.trans hc
  paced hl := by cases hs.symm.trans hl

/-- The log of a leader gets longer. -/
theorem longer (h : Pacing op n₀ n) {e : Entry} (hs : n'.state = n.state)
    (ht : n'.term = n.term) (hl : n'.log = n.log ++ [e]) (hb : n'.baseIndex = n.baseIndex)
    (hp : n'.peers = n.peers) (hnext : n'.next = n.next) : Pacing op n₀ n' := by
  have hlast : n.lastIndex ≤ n'.lastIndex := by
    rw [Node.lastIndex, Node.lastIndex, hb, hl, List.length_append]
    omega
  refine h.keep (.inl hs) ht hlast fun _ _ hpaced hlead p hpeer => ?_
  rw [hnext]
  have := hpaced (hs ▸ hlead) p (hp ▸ hpeer)
  omega

theorem track (h : Pacing op n₀ n) (hack : n₀.AcksBelow op) (ht : Tracks op n n') :
    Pacing op n₀ n' := by
  cases ht with
  | start =>
    obtain ⟨next, mtch, heq⟩ := n.track_eq
    exact h.keep (.inl (by rw [heq])) (by rw [heq]) (by rw [heq]; exact Nat.le_refl _)
      fun _ _ _ => Paced.track n
  | clamp hlt =>
    exact h.keep (.inl rfl) rfl (Nat.le_refl _) fun _ _ hp =>
      hp.setNext (Nat.le_add_left _ _) fun _ _ => Nat.le_refl _
  | back hop htype hl hterm hreject hlt =>
    refine h.keep (.inl rfl) rfl (Nat.le_refl _) fun _ _ hp => ?_
    refine hp.setNext (by omega) fun hl hm => ?_
    have := (hp hl _ hm).2
    omega
  | ack hop htype hl hterm hreject hle =>
    exact h.keep (.inl rfl) rfl (Nat.le_refl _) fun _ _ hp =>
      Paced.setNext (n := n.setMatch _ _) hp (Nat.le_add_left _ _) fun _ _ => Nat.succ_le_succ hle
  | snapshotAck hop htype hl hterm hreject hvoter hlt =>
    refine h.keep (.inl rfl) rfl (Nat.le_refl _) fun hsame hle hp => ?_
    have hm := hack _ hop htype hreject hsame.1 (hterm.trans hsame.2)
    exact Paced.setNext (n := n.setMatch _ _) hp (Nat.le_add_left _ _)
      fun _ _ => Nat.succ_le_succ (hm.trans hle)

end Pacing

/-- The methods except those that install a snapshot. -/
theorem Pacing.change (h : Pacing op n₀ n) (hs : Sane n) (hack : n₀.AcksBelow op)
    (hop : ∀ m, op = .step m → m.type ≠ .installSnapshot) (hc : Change op n₀ n n') :
    Pacing op n₀ n' := by
  cases hc with
  | wait | preVote | preVoteAck | voteAck | send | vote | pending | read | readAck | readReady
  | apply => exact h.enlists (.inl rfl) rfl (.of_same rfl rfl rfl rfl rfl)
  | follow => exact h.stop rfl (Nat.le_refl _)
  | newTerm hr hop htype ht hs => exact h.stop rfl ht.le
  | persistError | appendError | saveError | compactError | noSnapshotStore =>
    exact h.stop rfl (Nat.le_refl _)
  | storeError hm hs' =>
    exact h.stop rfl (hm.trim hs.log).term.ge
  | lead hop hc hq =>
    refine ⟨h.term_le, nofun, fun _ => .inl ⟨hop, fun hl => ?_⟩⟩
    exact h.stays hl.1 hl.2 hc
  | campaign hr hwhy hbit hs =>
    have hle := h.term_le
    exact ⟨Nat.le_succ_of_le hle, fun _ ht => absurd ht (by show n.term + 1 ≠ _; omega), nofun⟩
  | track ht => exact h.track hack ht
  | ensure hop mask =>
    exact h.enlists (Frame.ensurePeers n mask).state (Frame.ensurePeers n mask).term
      (.ensurePeers n mask)
  | @commit k s hr hk hc hs =>
    have hv := Volatile.settle { n with commit := k, store := s } (n.commit + 1) k
    have he := Enlists.settle { n with commit := k, store := s } (n.commit + 1) k
    have hsame : Enlists n { n with commit := k, store := s } := .of_same rfl rfl rfl rfl rfl
    exact h.enlists hv.state hv.term (hsame.trans he)
  | append hr hl hn he halone hs' => exact h.longer rfl rfl rfl rfl rfl rfl
  | propose hr hl hn he hc hs' => exact h.longer rfl rfl rfl rfl rfl rfl
  | store hr hm hs' =>
    have hv := hm.stored hs.log
    exact h.stop ((hv _).state.elim (·.trans hm.state) fun h => h) (hv _).term.ge
  | @save _ _ s s' hp hsave hcompact =>
    cases hp with
    | @own index term state hn hop' hb ha ht =>
      have hrange := (Node.termAt_range ht).2
      have hlast : Node.lastIndex { n.withSnapshot (n.ownSnapshot index term state)
          (n.log.drop (index - n.baseIndex)) with store := s' } = n.lastIndex := by
        show index + (n.log.drop (index - n.baseIndex)).length - 1 = n.lastIndex
        rw [List.length_drop]
        unfold Node.lastIndex at hrange ⊢
        have := List.length_pos_of_ne_nil hs.log
        omega
      exact h.enlists (.inl rfl) rfl (.of_same rfl hlast rfl rfl rfl)
    | install hn hstep htype hm hb => exact absurd htype (hop _ hstep)

/-- A leader that takes a snapshot follows. -/
theorem onInstallSnapshot_leader (m : Message) :
    Triple (fun _ => True) (onInstallSnapshot m) n fun _ n' =>
      n'.state = .leader → ∃ q, n' = n.enqueue q := by
  have haccept : ∀ n₁ : Node σ, Triple (fun _ => True) (acceptSnapshot m) n₁ fun _ n' =>
      n'.state = .leader → ∃ q, n' = n.enqueue q :=
    fun n₁ => Sim.seq_update (Sim.seq_get (send_rule trivial nofun))
  unfold onInstallSnapshot
  refine Sim.seq_get (Sim.ite (fun _ => send_rule trivial fun _ => ⟨_, rfl⟩) fun _ => ?_)
  refine Sim.ite (fun _ => ?_) fun _ => haccept n
  refine Sim.seq (Q := fun ok _ n' => ok = false → n'.state = .follower) ?_ ?_
  · unfold saveSnapshot
    refine Sim.ite (fun _ => ?_) fun _ => Sim.seq_update (Sim.ret fun _ => rfl)
    refine Sim.seq (Q := fun ok _ n' => ok = false → n'.state = .follower)
      (callStoreOrFail_sim (fun _ _ => ⟨_, .refl, nofun⟩) fun _ _ _ _ => rfl) ?_
    rintro ok - n₁ - hn₁
    cases ok with
    | true => exact callStoreOrFail_sim (fun _ _ => ⟨_, .refl, nofun⟩) fun _ _ _ _ => rfl
    | false => exact Sim.ret hn₁
  · rintro ok - n₁ - hn₁
    cases ok with
    | true => exact Sim.seq_update (haccept _)
    | false => exact Sim.ret fun hl => by cases (hn₁ rfl).symm.trans hl

theorem step_installSnapshot_leader {m : Message} (htype : m.type = .installSnapshot) :
    Triple (fun _ => True) (step m) n fun _ n' => n'.state = .leader → n' = n ∨ ∃ q, n' = n.enqueue q := by
  have hhandle : (handle m : NodeM σ Unit) = onInstallSnapshot m := by rw [handle, htype]
  unfold step
  rw [hhandle]
  refine Sim.seq_get (Sim.ite (fun _ => Sim.ret fun _ => .inl rfl) fun _ => ?_)
  refine Sim.ite (fun _ => ?_) fun _ => (onInstallSnapshot_leader m).mono fun _ _ _ _ h hl => .inr (h hl)
  refine Sim.seq (Q := fun ok _ n' => ok = false → n'.state = .follower)
    (callStoreOrFail_sim (fun _ _ => ⟨_, .refl, nofun⟩) fun _ _ _ _ => rfl) ?_
  rintro ok - n₁ - hn₁
  cases ok with
  | true =>
    refine Sim.seq_update ((onInstallSnapshot_leader m).mono fun _ _ n' _ h hl => ?_)
    obtain ⟨q, rfl⟩ := h hl
    cases hl
  | false => exact Sim.ret fun hl => by cases (hn₁ rfl).symm.trans hl

/-- Every method keeps the next indexes within the log. -/
theorem Paced.call {u : Unit} (h : Paced n) (hs : Sane n) (hack : n.AcksBelow op)
    (hx : op.run n = .ok u n') : Paced n' := by
  by_cases hinstall : ∃ m, op = .step m ∧ m.type = .installSnapshot
  · obtain ⟨m, rfl, htype⟩ := hinstall
    intro hl
    rcases (step_installSnapshot_leader htype).ok hx hl with rfl | ⟨q, rfl⟩
    · exact h hl
    · exact h hl
  · have hp := (op.keepsChanges (I := Pacing op n) hs (.refl h) hx fun hs₁ h₁ hc =>
      h₁.change hs₁ hack (fun m hop htype => hinstall ⟨m, hop, htype⟩) hc).2
    obtain ⟨-, -, -, hled⟩ := (op.changes (P := True) ⟨hs.log, .inl trivial⟩ hs.leads (.inl trivial)
      (.inl trivial) (.inl trivial)).ok hx
    intro hl
    rcases hp.paced hl with ⟨helects, hnew⟩ | ⟨-, -, hpaced⟩
    · exact ((hled helects hl).resolve_right hnew) hl
    · exact hpaced hl

end

/-! ## The acknowledged index -/

section

variable {σ : Type}

/-- The store of a process, which a crash leaves. -/
def Proc.store : Proc σ → σ
  | .up n => n.store
  | .down s => s

/-- The entry at an index above the base. -/
def Recovery.entryAt? (d : Recovery) (index : Nat) : Option Entry :=
  if index ≤ d.base then none else d.suffix[index - d.base - 1]?

/-- The recovered state has the log of the node up to `k`. They are compared where neither of them
has been compacted. -/
structure Node.AgreesUpTo (n : Node σ) (d : Recovery) (k : Nat) : Prop where
  has : k ≤ d.lastIndex
  entries : ∀ j, max n.baseIndex d.base < j → j ≤ k →
    ∃ e, n.entryAt? j = some e ∧ d.entryAt? j = some e
  terms : ∀ j, max n.baseIndex d.base ≤ j → j ≤ k →
    ∃ t, n.termAt j = some t ∧ d.termAt j = some t

variable [DurableStore σ] [LawfulStore σ] {mode : Mode} {V : Mask} {w : World Nat Entry}
  {i p k : Nat} {n : Node σ} {d : Recovery}

theorem Durable.entryAt?_eq (h : Durable mode V w p d) (hk : d.base < k) :
    d.entryAt? k = (w.log p)[k - 1]? := by
  rw [Recovery.entryAt?, if_neg (by omega), ← h.suffix, List.getElem?_drop,
    show d.base + (k - d.base - 1) = k - 1 by omega]

/-- A peer whose log begins like that of the leader. -/
theorem Live.agreesUpTo {c : Nat} (h : Live mode V w i n c) (hd : Durable mode V w p d)
    (hk : k ≤ (w.log i).length) (hp : (w.log i).take k <+: w.log p) : n.AgreesUpTo d k := by
  have hlen : k ≤ (w.log p).length := by
    have := hp.length_le
    rwa [List.length_take, Nat.min_eq_left hk] at this
  have htake : ∀ j ≤ k, (w.log i).take j = (w.log p).take j := by
    intro j hj
    have := take_eq_of_isPrefix hp (k := j) (by rw [List.length_take]; omega)
    rwa [List.take_take, Nat.min_eq_left hj] at this
  refine ⟨hd.length_eq ▸ hlen, fun j hj hjk => ?_, fun j hj hjk => ?_⟩
  · have hget := List.getElem?_eq_getElem (show j - 1 < (w.log i).length by omega)
    refine ⟨_, (h.entryAt?_eq (by omega)).trans hget, ?_⟩
    rw [hd.entryAt?_eq (by omega), ← hget, ← List.getElem?_take_of_lt (show j - 1 < j by omega),
      ← htake j hjk, List.getElem?_take_of_lt (by omega)]
  · refine ⟨_, h.termAt_eq (by omega) (by omega), ?_⟩
    rw [htake j hjk]
    exact hd.termAt_eq (by omega) (by omega)

/-- What the leader has noted of a peer that is not in a later term. -/
theorem Rep.progress (h : Rep mode V w i n) (hinv : Inv (params mode V) w)
    (hl : n.state = .leader) (hp : p ∈ n.peers) :
    n.matchIdx p ≤ n.lastIndex ∧
    ∀ d, Durable mode V w p d → d.hard.term ≤ n.term → n.AgreesUpTo d (n.matchIdx p) := by
  have hready := h.ready_of_state (by rw [hl]; decide)
  obtain ⟨r, hr, rfl, hlog⟩ := h.leads hinv hl
  rw [hready.live.lastIndex_eq]
  rcases hready.matched trivial hl p hp with h0 | hack
  · rw [h0]
    exact ⟨Nat.zero_le _, fun d hd _ =>
      hready.live.agreesUpTo hd (Nat.zero_le _) (List.nil_prefix)⟩
  · obtain ⟨-, hle, -⟩ := hinv.acked_le hack
    rw [← hlog] at hle
    refine ⟨hle, fun d hd hterm => hready.live.agreesUpTo hd hle ?_⟩
    rw [← hd.term] at hterm
    rcases hinv.acked_keep hack with hkeep | ⟨t', -, hlt, hle', -⟩
    · rw [hlog]
      exact hkeep
    · omega

end

/-! ## Runs -/

/-- An acknowledged snapshot that is delivered to a leader of its term is in the log of the leader.
-/
def Event.AcksBelow (e : Event) (p : Proc Disk) : Prop :=
  ∀ op n, e = .call op → p = .up n → n.AcksBelow op

theorem Setup.acksBelow (S : Setup Disk) {c : Cluster Disk}
    (hr : Net.Runs S.act FixedMembership S.start c) :
    Net.Runs S.act (fun _ e p => e.AcksBelow p) S.start c := by
  refine hr.strengthen fun {c₁ i e p} hr₁ hp _ hact => ?_
  rintro op n rfl rfl m rfl htype hreject hl hterm
  obtain ⟨w, -, h⟩ := Setup.joined_start.run (fun _ _ => trivial)
    (hr₁.mono fun _ _ _ => FixedMembership.permitted)
  have hrep : Rep compacting S.voters w i n := (h.procs i _ hp).2
  have hsent : m ∈ c₁.sent := by
    unfold Setup.act at hact
    dsimp only at hact
    split at hact
    · rename_i hd
      exact hd.1
    · cases hact
  have hvalid := h.sent m hsent
  unfold ValidMsg at hvalid
  rw [htype] at hvalid
  obtain ⟨-, hle, -⟩ := h.inv.acked_le (hvalid hreject)
  obtain ⟨r, -, -, hlog⟩ := hrep.leads h.inv hl
  rwa [hterm, ← hlog, ← (hrep.ready_of_state (by rw [hl]; decide)).live.lastIndex_eq] at hle

theorem Setup.keepsPace (S : Setup Disk) :
    S.Keeps (fun _ e p => e.AcksBelow p) (fun _ => Paced) fun _ => True where
  new h := by
    obtain ⟨-, -, heq⟩ := newNodeWithStore_ok h
    rw [heq]
    exact .of_state nofun
  recovered h := .of_state (by rw [recover_state h]; decide)
  call hs h ha _ hx := h.call hs (ha _ _ rfl rfl) hx
  drain h := ⟨h, fun _ _ => trivial⟩

/-- What a leader knows of its peers is within its log, and a peer that is not in a later term has
what it acknowledged. -/
theorem progress_within_log (S : Setup Disk) {c : Cluster Disk}
    (hr : Net.Runs S.act FixedMembership S.start c) {i p : Nat} {n : Node Disk}
    (hn : nodeAt c i = some n) (hl : n.state = .leader) (hp : p ∈ n.peers) :
    1 ≤ n.next p ∧ n.next p ≤ n.lastIndex + 1 ∧ n.matchIdx p ≤ n.lastIndex ∧
    ∀ q, c.procs p = some q → q.store.data.hard.term ≤ n.term →
      n.AgreesUpTo q.store.data (n.matchIdx p) := by
  obtain ⟨w, -, h⟩ := Setup.joined_start.run (fun _ _ => trivial)
    (hr.mono fun _ _ _ => FixedMembership.permitted)
  obtain ⟨hmatch, hagree⟩ := (h.rep hn).progress h.inv hl hp
  obtain ⟨h1, hnext⟩ := ((S.keepsPace.run (S.acksBelow hr)).1 i n hn).2 hl p hp
  refine ⟨h1, hnext, hmatch, fun q hq => hagree _ ?_⟩
  have hstored : Stored compacting S.voters w p q.store := by
    have := (h.procs p q hq).2
    cases q with
    | up n' => exact this.stored
    | down s => exact this
  obtain ⟨d, hd, hdur⟩ := hstored
  rwa [show q.store.data = d from hd]

/-- Node 3 has got a snapshot and what comes after it. -/
def progressRun : Option (Cluster Disk) :=
  trio.start.play trio.act FixedMembership (elected ++ Move.calls 1 (.propose 7) ++
    Move.deliverAll [14, 16] ++ Move.calls 1 .applyEntries ++ Move.calls 1 (.compact 2 []) ++
    Move.calls 1 (.propose 8) ++ Move.deliverAll [12, 19, 22, 20, 25, 26, 23, 27])

theorem progress_within_log_snapshot :
    ∃ c n q, Net.Runs trio.act FixedMembership trio.start c ∧ nodeAt c 1 = some n ∧
      n.state = .leader ∧ c.procs 3 = some q ∧ q.store.data.base = 2 ∧ n.matchIdx 3 = 3 ∧
      n.next 3 ≤ n.lastIndex + 1 ∧ n.AgreesUpTo q.store.data 3 := by
  have h : progressRun.any (fun c => (nodeAt c 1).any fun n => (c.procs 3).any fun q =>
      decide (n.state = .leader ∧ 3 ∈ n.peers ∧ q.store.data.base = 2 ∧ n.matchIdx 3 = 3 ∧
        q.store.data.hard.term ≤ n.term)) = true := by
    decide +kernel
  simp only [Option.any_eq_true, decide_eq_true_eq] at h
  obtain ⟨c, hc, n, hn, q, hq, hl, hp, hb, hm, hterm⟩ := h
  have hr := Net.Runs.of_play hc
  obtain ⟨-, hnext, -, hagree⟩ := progress_within_log trio hr hn hl hp
  exact ⟨c, n, q, hr, hn, hl, hq, hb, hm, hnext, hm ▸ hagree q hq hterm⟩

/-! ## Late answers and late leaders -/

/-- Five nodes. -/
def quintet : Setup Disk where
  ids := [1, 2, 3, 4, 5]
  peers id := [1, 2, 3, 4, 5].filter (· ≠ id)
  timeout id := id
  store _ := {}
  voters := 31
  agree id hid := by
    simp only [List.mem_cons, List.not_mem_nil, or_false] at hid
    rcases hid with rfl | rfl | rfl | rfl | rfl <;> rfl
  empty _ _ := ⟨rfl, trivial⟩

/-- Node 1 leads with the votes of nodes 2 and 3, and node 2 acknowledges its first entry. Then
nodes 4 and 5 elect node 3, and node 2 replaces the entry. Node 1 hears of none of that, but gets
the first answer of node 2 again. -/
def staleRun : Option (Cluster Disk) :=
  quintet.start.play quintet.act FixedMembership (Move.calls 1 .tick ++
    Move.deliverAll [0, 1, 4, 5, 6, 7, 10, 11, 12, 16, 17, 18] ++ [Move.call 3 .tick, Move.call 3 .tick] ++
    Move.calls 3 .tick ++ Move.deliverAll [21, 22, 23, 24, 27, 28, 29, 30, 32, 35, 36, 16])

theorem stale_progress :
    ∃ c n q, Net.Runs quintet.act FixedMembership quintet.start c ∧ nodeAt c 1 = some n ∧
      n.state = .leader ∧ 2 ∈ n.peers ∧ c.procs 2 = some q ∧ n.next 2 ≤ n.matchIdx 2 ∧
      ¬ n.AgreesUpTo q.store.data (n.matchIdx 2) := by
  have h : staleRun.any (fun c => (nodeAt c 1).any fun n => (c.procs 2).any fun q =>
      decide (n.state = .leader ∧ 2 ∈ n.peers ∧ n.next 2 = 1 ∧ n.matchIdx 2 = 1 ∧
        n.baseIndex = 0 ∧ q.store.data.base = 0 ∧ n.termAt 1 = some 1 ∧
        q.store.data.termAt 1 = some 2)) = true := by
    decide +kernel
  simp only [Option.any_eq_true, decide_eq_true_eq] at h
  obtain ⟨c, hc, n, hn, q, hq, hl, hp, hnext, hm, hb, hb', ht, ht'⟩ := h
  refine ⟨c, n, q, .of_play hc, hn, hl, hp, hq, by omega, fun hagree => ?_⟩
  obtain ⟨t, h₁, h₂⟩ := hagree.terms 1 (by omega) (by omega)
  rw [ht] at h₁
  rw [ht', ← h₁] at h₂
  cases h₂

end Promtact.Raft
