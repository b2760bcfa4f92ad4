import Promtact.Lib.Exact
import Promtact.Raft.Changes.Config
import Promtact.Raft.Store
import Promtact.Raft.Wrap.Handlers

/-!
# When the methods of a node panic

A node on the store of `NewNode`, which refuses nothing the node asks for. Whatever messages it
gets, its state is `Good`. A method panics in such a state for one of four reasons:

* `Wrapped`: the last index has wrapped around and is below the base, and the term of the last entry is
  looked up.
* `Exhausted`: the base or the last index is the largest `uint64`, and the voters are looked up: the walk
  over the entries after it comes to the index `0`.
* `¬ Room k`: there is no room for `k` more messages.
* An identifier that is not one of a node is looked up.

The lemmas here say so exactly (`FailsIff`) for what the handlers share: the voters, sending,
configurations, leading and elections.
-/

namespace Promtact.Raft.Wrap

open Refine

section

variable {σ : Type}

/-- The last index has wrapped around. -/
def Wrapped (n : Node σ) : Prop := lastIndex n < n.baseIndex

/-- The index after the base, or after the last index, is `0`. -/
def Exhausted (n : Node σ) : Prop := n.baseIndex = maxUint64 ∨ lastIndex n = maxUint64

/-- The node may send `k` more messages. -/
def Room (k : Nat) (n : Node σ) : Prop := n.outbound.length + k ≤ outboundCapacity

instance (n : Node σ) : Decidable (Wrapped n) := inferInstanceAs (Decidable (_ < _))

instance (n : Node σ) : Decidable (Exhausted n) := inferInstanceAs (Decidable (_ ∨ _))

instance (k : Nat) (n : Node σ) : Decidable (Room k n) := inferInstanceAs (Decidable (_ ≤ _))

/-- The node is one of the effective voters, if they can be looked up. -/
def votes (n : Node σ) (id : Nat) : Bool := (isVoter n id).toOption.getD false

/-- The mask is a quorum of the effective voters, if they can be looked up. -/
def wins (n : Node σ) (mask : Mask) : Bool := (quorumMask n mask).toOption.getD false

end

/-- What holds between the calls of a node, whatever messages it gets; its log may get `k` more
entries before its length does not fit a `uint64`. -/
structure Good (k : Nat) (n : Node MemoryStore) : Prop where
  log : n.log ≠ []
  length : n.log.length + k < 2 ^ 64
  id : Valid n.id
  peers : ∀ p ∈ n.peers, Valid p
  base : n.baseIndex < 2 ^ 64
  commit : n.commit < 2 ^ 64
  base_le : ¬ Wrapped n → n.baseIndex ≤ n.commit
  last_base : n.baseIndex = maxUint64 → n.commit = maxUint64
  outbound : n.outbound.length ≤ outboundCapacity
  running : n.faulted = false
  /-- A later snapshot is not refused. -/
  store : n.store.base ≤ n.baseIndex

namespace Good

variable {k : Nat} {n n' : Node MemoryStore}

/-! ## The log -/

/-- The last index, and whether it has wrapped around. -/
theorem last (h : Good k n) : lastIndex n + 1 = n.baseIndex + n.log.length ∧ ¬ Wrapped n ∨
    lastIndex n + 1 + 2 ^ 64 = n.baseIndex + n.log.length ∧ Wrapped n := by
  have hpos := List.length_pos_of_ne_nil h.log
  have hlen := h.length
  have hbase := h.base
  unfold Wrapped lastIndex wrap maxUint64
  omega

theorem last_lt (n : Node MemoryStore) : lastIndex n < 2 ^ 64 := wrap_lt _

/-- The index after the last one. -/
theorem wrap_last {n : Node MemoryStore} (hl : lastIndex n ≠ maxUint64) :
    wrap (lastIndex n + 1) = lastIndex n + 1 := by
  have hlast := last_lt n
  unfold maxUint64 at hl
  exact wrap_of_lt (by omega)

/-- An index from the base to the last one is retained, and no other. -/
theorem entryAt?_eq_none (h : Good k n) {index : Nat} :
    entryAt? n index = none ↔ index < n.baseIndex ∨ lastIndex n < index := by
  unfold entryAt? offset
  split
  · rename_i hr
    exact iff_of_true rfl hr
  · rename_i hr
    refine iff_of_false ?_ hr
    rw [Option.bind_some, List.getElem?_eq_none_iff]
    have hlast := h.last
    unfold Wrapped at hlast
    omega

/-- An index whose term is found is retained. -/
theorem range_of_termAt (h : Good k n) {index term : Nat} (ht : termAt n index = some term) :
    n.baseIndex ≤ index ∧ index ≤ lastIndex n := by
  have hsome : entryAt? n index ≠ none := by
    intro hnone
    rw [termAt, hnone] at ht
    cases ht
  rw [Ne, h.entryAt?_eq_none] at hsome
  omega

theorem termAtMust_checks (h : Good k n) (index : Nat) :
    Checks (index < n.baseIndex ∨ lastIndex n < index) (termAtMust n index) := by
  unfold termAtMust termAt
  cases he : entryAt? n index with
  | none => exact h.entryAt?_eq_none.mp he
  | some e => exact fun hr => nomatch he.symm.trans (h.entryAt?_eq_none.mpr hr)

theorem entryAt_checks (n : Node MemoryStore) (index : Nat) :
    Checks (entryAt? n index = none) (entryAt n index) := by
  unfold entryAt
  cases he : entryAt? n index with
  | none => exact rfl
  | some e => exact nofun

/-- The term of the last entry. -/
theorem lastTerm_checks (h : Good k n) : Checks (Wrapped n) (termAtMust n (lastIndex n)) :=
  (h.termAtMust_checks _).congr (or_iff_left (Nat.lt_irrefl _))

/-! ## The voters -/

theorem jointVoters_checks (n : Node MemoryStore) (first last : Nat) :
    Checks (∃ k ∈ indexes first last, entryAt? n k = none) (jointVoters n first last) := by
  exact Checks.foldlM (fun voters index => (entryAt_checks n index).map _) _

theorem mem_indexes {first last index : Nat} :
    index ∈ indexes first last ↔ first ≤ index ∧ index ≤ last ∨ last = maxUint64 ∧ index = 0 := by
  unfold indexes
  rw [List.mem_append, List.mem_range'_1]
  split
  · rw [List.mem_singleton]
    omega
  · rename_i hlast
    simp only [List.not_mem_nil, hlast, false_and, or_false]
    omega

/-- The walk over the pending entries. -/
theorem pending_missing (h : Good k n) :
    (∃ index ∈ indexes (firstPending n) (lastIndex n), entryAt? n index = none) ↔ Exhausted n := by
  have hlast := h.last
  have hlen := h.length
  have hbase := h.base
  have hc := h.commit
  have hmax := h.last_base
  simp only [h.entryAt?_eq_none, mem_indexes]
  unfold Exhausted
  constructor
  · rintro ⟨index, hmem, hnone⟩
    by_contra hex
    unfold firstPending wrap maxUint64 at *
    unfold Wrapped at hlast
    omega
  · rintro hex
    refine ⟨0, ?_, ?_⟩
    · unfold firstPending wrap maxUint64 at *
      omega
    · unfold maxUint64 at *
      unfold Wrapped at hlast
      omega

theorem effectiveVoters_checks (h : Good k n) : Checks (Exhausted n) (effectiveVoters n) :=
  (jointVoters_checks n _ _).congr h.pending_missing

theorem quorumMask_checks (h : Good k n) (mask : Mask) : Checks (Exhausted n) (quorumMask n mask) :=
  h.effectiveVoters_checks.map _

theorem nodeBit_checks (id : Nat) : Checks (¬ Valid id) (nodeBit id) := by
  unfold nodeBit Valid
  split
  · show ¬ _
    omega
  · show ¬ ¬ _
    omega

theorem isVoter_checks (h : Good k n) (id : Nat) : Checks (Exhausted n ∨ ¬ Valid id) (isVoter n id) :=
  h.effectiveVoters_checks.seq fun _ _ => (nodeBit_checks id).map _

/-- A peer, or the node itself, can be looked up unless the voters cannot. -/
theorem isVoter_eq (h : Good k n) (hex : ¬ Exhausted n) {id : Nat} (hv : Valid id) :
    isVoter n id = .ok (votes n id) := by
  obtain ⟨b, hb⟩ := (h.isVoter_checks id).ok fun hp => hp.elim hex fun hp => hp hv
  rw [votes, hb]
  rfl

theorem quorumMask_eq (h : Good k n) (hex : ¬ Exhausted n) (mask : Mask) :
    quorumMask n mask = .ok (wins n mask) := by
  obtain ⟨b, hb⟩ := (h.quorumMask_checks mask).ok hex
  rw [wins, hb]
  rfl

/-! ## Sending -/

theorem send_exact (h : Good k n) (m : Message) :
    FailsIff (¬ Room 1 n) (send m) n fun _ n' => n' = n.enqueue m := by
  unfold send
  refine .seq_get ((FailsIff.ite (fun _ => .fail) fun _ => .update rfl).congr ?_)
  have hout := h.outbound
  unfold Room
  simp only [and_true, and_false, or_false]
  omega

end Good

/-- The node has sent `k` messages. A next index of a peer may have moved back to the end of the
log. -/
structure Sent (k : Nat) (n n' : Node MemoryStore) : Prop where
  same : n' = { n with outbound := n'.outbound, enqueued := n'.enqueued, next := n'.next }
  count : n'.outbound.length = n.outbound.length + k
  next : ∀ p, n.next p ≤ n.baseIndex ∨ n.next p ≤ wrap (lastIndex n + 1) → n'.next p = n.next p

namespace Sent

variable {k l : Nat} {n n' n'' : Node MemoryStore}

theorem refl (n : Node MemoryStore) : Sent 0 n n := ⟨rfl, rfl, fun _ _ => rfl⟩

theorem enqueue (n : Node MemoryStore) (m : Message) : Sent 1 n (n.enqueue m) :=
  ⟨rfl, List.length_append, fun _ _ => rfl⟩

theorem baseIndex (h : Sent k n n') : n'.baseIndex = n.baseIndex := by rw [h.same]

theorem lastIndex (h : Sent k n n') : lastIndex n' = lastIndex n := by rw [h.same]; rfl

theorem wrapped (h : Sent k n n') : Wrapped n' ↔ Wrapped n := by
  rw [Wrapped, Wrapped, h.lastIndex, h.baseIndex]

theorem exhausted (h : Sent k n n') : Exhausted n' ↔ Exhausted n := by
  rw [Exhausted, Exhausted, h.lastIndex, h.baseIndex]

theorem room (h : Sent k n n') : Room l n' ↔ Room (k + l) n := by
  rw [Room, Room, h.count, Nat.add_assoc]

theorem votes_eq (h : Sent k n n') : votes n' = votes n := by rw [h.same]; rfl

theorem wins_eq (h : Sent k n n') : wins n' = wins n := by rw [h.same]; rfl

theorem trans (h : Sent k n n') (h' : Sent l n' n'') : Sent (k + l) n n'' where
  same := by
    have hs := h'.same
    rw [h.same] at hs
    exact hs
  count := by rw [h'.count, h.count, Nat.add_assoc]
  next p hp := by
    have hn := h.next p hp
    exact (h'.next p (by rwa [hn, h.baseIndex, h.lastIndex])).trans hn

theorem good (h : Sent k n n') (hg : Good l n) (hr : Room k n) : Good l n' := by
  have hout : n'.outbound.length ≤ outboundCapacity := by rw [h.count]; exact hr
  rw [h.same]
  exact { hg with outbound := hout }

end Sent

namespace Good

variable {k : Nat} {n n' : Node MemoryStore}

/-- An append to a peer whose next index is in the log, or just after it. -/
theorem appendMessage_checks (h : Good k n) (hl : lastIndex n ≠ maxUint64) {p next : Nat}
    (hpos : 0 < next) (hle : next ≤ lastIndex n + 1) (hb : ¬ Wrapped n → n.baseIndex < next)
    (context : UInt64) : Checks (Wrapped n) (appendMessage n p next context) := by
  have hlast := last_lt n
  have hprev : next - 1 < n.baseIndex ∨ lastIndex n < next - 1 ↔ Wrapped n := by
    unfold Wrapped at *
    omega
  unfold appendMessage
  refine (((h.termAtMust_checks _).congr hprev).seq (F := False) fun t ht => ?_).congr
    (or_false _).to_iff
  have hw : ¬ Wrapped n := by
    have hc := h.termAtMust_checks (next - 1)
    rw [ht] at hc
    rwa [← hprev]
  split
  · rename_i hnext
    refine (((entryAt_checks n next).congr ?_).map _ : Checks False _)
    rw [h.entryAt?_eq_none, iff_false, not_or]
    have hb' := hb hw
    rw [wrap_last hl] at hnext
    omega
  · exact fun hf => hf

/-- The next index of a peer is moved back to the end of the log. -/
theorem clamp_sent (hl : lastIndex n ≠ maxUint64) {p : Nat} (hb : n.baseIndex < n.next p)
    (hn : (if n.next p > wrap (lastIndex n + 1) then n.setNext p (wrap (lastIndex n + 1)) else n) = n') :
    Sent 0 n n' ∧ n'.next p = min (n.next p) (lastIndex n + 1) := by
  rw [← hn]
  split
  · rename_i hgt
    refine ⟨⟨rfl, rfl, fun q hq => ?_⟩, ?_⟩
    · refine Function.update_of_ne ?_ _ _
      rintro rfl
      omega
    · refine (Function.update_self ..).trans ?_
      rw [wrap_last hl] at hgt ⊢
      omega
  · rename_i hle
    rw [wrap_last hl] at hle
    exact ⟨.refl n, by omega⟩

/-- An append is sent if there is room. If the last index has wrapped around, the index before the
next one is missing. -/
theorem appendToContext_exact (h : Good k n) (hl : lastIndex n ≠ maxUint64) (p : Nat)
    (context : UInt64) :
    FailsIff (¬ Room 1 n ∨ Wrapped n ∧ n.baseIndex < n.next p) (appendToContext p context) n
      fun _ => Sent 1 n := by
  unfold appendToContext
  refine .seq_get ((FailsIff.ite (P := ¬ Room 1 n) (F := Wrapped n ∨ ¬ Room 1 n)
    (fun _ => ?_) fun hb => ?_).congr ?_)
  · exact (h.send_exact _).mono fun _ _ _ hn => hn ▸ .enqueue n _
  · refine .seq_update (.seq_get ?_)
    generalize hn₁ : (if n.next p > wrap (lastIndex n + 1) then n.setNext p (wrap (lastIndex n + 1))
      else n) = n₁
    obtain ⟨hs, hnext⟩ := clamp_sent hl (Nat.lt_of_not_le hb) hn₁
    have h₁ := hs.good h h.outbound
    have hlast := hs.lastIndex
    have hroom : ¬ Room 1 n₁ ↔ ¬ Room 1 n := not_congr (hs.room.trans (by rw [Nat.zero_add]))
    have hcheck : Checks (Wrapped n) (appendMessage n₁ p (max (n₁.next p) 1) context) := by
      refine (h₁.appendMessage_checks (by rwa [hlast]) ?_ ?_ (fun hw => ?_) context).congr hs.wrapped
      · omega
      · omega
      · rw [hs.wrapped, Wrapped] at hw
        rw [hs.baseIndex]
        omega
    refine .seq_check hcheck fun m _ => .congr ((h₁.send_exact m).mono fun _ _ _ hn' => ?_) hroom
    have hsent := hs.trans (.enqueue n₁ m)
    rwa [← hn', Nat.zero_add] at hsent
  · rw [← Nat.not_le]
    tauto

/-- The appends to all peers that vote. -/
theorem broadcastAppend_exact (h : Good k n) (hex : ¬ Exhausted n)
    (hnext : Wrapped n → ∀ p ∈ n.peers, n.next p ≤ n.baseIndex) :
    FailsIff (¬ Room (n.peers.countP (votes n)) n) broadcastAppend n
      fun _ => Sent (n.peers.countP (votes n)) n := by
  have hout := h.outbound
  unfold broadcastAppend
  refine .seq_get (.congr ((FailsIff.each (outboundCapacity - n.outbound.length) (I := fun j => Sent j n)
    (p := votes n) (Nat.zero_le _) (.refl n) fun p hp j n₁ hj hs => ?_).mono fun _ _ n₁ hs => ?_) ?_)
  · have hroom : Room j n := by
      unfold Room
      omega
    have h₁ := hs.good h hroom
    refine .seq_get (.seq_pass (h₁.isVoter_eq (mt hs.exhausted.mp hex) (h.peers p hp)) ?_)
    rw [hs.votes_eq]
    cases votes n p with
    | true =>
      have hl : lastIndex n₁ ≠ maxUint64 := fun hl => hex (hs.exhausted.mp (.inr hl))
      refine ((h₁.appendToContext_exact hl p 0).congr ?_).mono fun _ _ _ hs' => hs.trans hs'
      have hno : ¬ (Wrapped n₁ ∧ n₁.baseIndex < n₁.next p) := by
        rintro ⟨hw, hb⟩
        have hle := hnext (hs.wrapped.mp hw) p hp
        rw [hs.next p (.inl hle), hs.baseIndex] at hb
        omega
      have hcount := hs.count
      rw [or_iff_left hno, Room, Bool.toNat_true]
      omega
    | false => exact FailsIff.congr (P := False) (.ret hs) (by rw [Bool.toNat_false, false_iff]; omega)
  · rwa [Nat.zero_add] at hs
  · rw [Room]
    omega

/-- The requests to all peers. -/
theorem request_exact (h : Good k n) (type : MessageType) (term : Node MemoryStore → Nat)
    (peers : List Nat) :
    FailsIff (peers ≠ [] ∧ Wrapped n ∨ ¬ Room peers.length n) (request type term peers) n
      fun _ => Sent peers.length n := by
  have hout := h.outbound
  by_cases hw : Wrapped n
  · cases peers with
    | nil => exact (FailsIff.ret (.refl n)).congr (by rw [Room]; simpa using hout)
    | cons p peers =>
      -- the first request looks the last term up
      have hfail : FailsIff (Wrapped n ∨ ¬ Room 1 n) (ask type term p) n fun _ _ => True :=
        .seq_get (.seq_check h.lastTerm_checks fun _ _ => (h.send_exact _).mono fun _ _ _ _ => trivial)
      unfold request
      rw [List.forM_eq_forM, List.forM_cons]
      refine (hfail.seq (F := False) fun hok => absurd (.inl hw) hok).congr (iff_of_true ?_ ?_)
      · exact .inl (.inl hw)
      · exact .inl ⟨List.cons_ne_nil _ _, hw⟩
  · refine .congr ((FailsIff.each (outboundCapacity - n.outbound.length) (I := fun j => Sent j n)
      (p := fun _ => true) (Nat.zero_le _) (.refl n) fun p hp j n₁ hj hs => ?_).mono fun _ _ n₁ hs => ?_) ?_
    · have hroom : Room j n := by
        unfold Room
        omega
      have h₁ := hs.good h hroom
      obtain ⟨t, ht⟩ := h₁.lastTerm_checks.ok (mt hs.wrapped.mp hw)
      refine .seq_get (.seq_pass ht (.congr ((h₁.send_exact _).mono fun _ _ n₂ hn₂ => ?_) ?_))
      · rw [hn₂]
        exact hs.trans (.enqueue n₁ _)
      · have hcount := hs.count
        rw [Room, Bool.toNat_true]
        omega
    · rwa [Nat.zero_add, List.countP_true] at hs
    · rw [Room, List.countP_true]
      simp only [hw, and_false, false_or]
      omega

end Good

/-! ## Configurations -/

/-- Configurations have taken effect: the voters, the peers and their progress may be others, and
the node may have stepped down. -/
structure Configured (n n' : Node MemoryStore) : Prop where
  same : n' = { n with
    state := n'.state, leader := n'.leader, readReady := n'.readReady, peers := n'.peers, next := n'.next
    matchIdx := n'.matchIdx, votersOld := n'.votersOld, votersNew := n'.votersNew
    pendingConfig := n'.pendingConfig }
  peers : ∀ p ∈ n'.peers, p ∈ n.peers ∨ Valid p
  next : ∀ p, n'.next p = n.next p ∨ n'.next p = wrap (lastIndex n + 1)

namespace Configured

variable {k : Nat} {n n' n'' : Node MemoryStore}

theorem refl (n : Node MemoryStore) : Configured n n := ⟨rfl, fun _ => .inl, fun _ => .inl rfl⟩

theorem baseIndex (h : Configured n n') : n'.baseIndex = n.baseIndex := by rw [h.same]

theorem log (h : Configured n n') : n'.log = n.log := by rw [h.same]

theorem commit (h : Configured n n') : n'.commit = n.commit := by rw [h.same]

theorem outbound (h : Configured n n') : n'.outbound = n.outbound := by rw [h.same]

theorem lastIndex_eq (h : Configured n n') : lastIndex n' = lastIndex n := by rw [h.same]; rfl

theorem entryAt?_eq (h : Configured n n') : entryAt? n' = entryAt? n := by rw [h.same]; rfl

theorem exhausted (h : Configured n n') : Exhausted n' ↔ Exhausted n := by
  rw [Exhausted, Exhausted, h.lastIndex_eq, h.baseIndex]

theorem trans (h : Configured n n') (h' : Configured n' n'') : Configured n n'' where
  same := by
    have hs := h'.same
    rw [h.same] at hs
    exact hs
  peers p hp := (h'.peers p hp).elim (h.peers p) .inr
  next p := by
    rcases h'.next p with hp | hp
    · rw [hp]
      exact h.next p
    · rw [hp, h.lastIndex_eq]
      exact .inr rfl

theorem good (h : Configured n n') (hg : Good k n) : Good k n' := by
  have hpeers : ∀ p ∈ n'.peers, Valid p := fun p hp => (h.peers p hp).elim (hg.peers p) id
  rw [h.same]
  exact { hg with peers := hpeers }

theorem ensurePeer (n : Node MemoryStore) (mask : Mask) {id : Nat} (hid : Valid id) :
    Configured n (ensurePeer mask id n) := by
  unfold Wrap.ensurePeer
  split
  · exact .refl n
  split
  · exact .refl n
  · refine ⟨rfl, fun p hp => ?_, fun p => ?_⟩
    · refine (List.mem_append.mp hp).imp_right fun hp => ?_
      rw [List.mem_singleton.mp hp]
      exact hid
    · by_cases hp : p = id
      · subst hp
        exact .inr (Function.update_self ..)
      · exact .inl (Function.update_of_ne hp ..)

theorem ensurePeers (n : Node MemoryStore) (mask : Mask) : Configured n (ensurePeers mask n) := by
  suffices ∀ (ids : List Nat) (n : Node MemoryStore), (∀ id ∈ ids, Valid id) →
      Configured n (ids.foldl (fun n id => Wrap.ensurePeer mask id n) n) by
    refine this _ n fun id hid => ?_
    rw [List.mem_range'_1] at hid
    exact ⟨by omega, by omega⟩
  intro ids
  induction ids with
  | nil => exact fun n _ => .refl n
  | cons id ids ih =>
    intro n hids
    rw [List.foldl_cons]
    exact (ensurePeer n mask (hids id List.mem_cons_self)).trans
      (ih _ fun id hid => hids id (List.mem_cons_of_mem _ hid))

end Configured

/-- The entry at an index is a final configuration. -/
def finalAt (n : Node MemoryStore) (index : Nat) : Bool :=
  (entryAt? n index).any (·.kind == .finalConfig)

/-- The configurations from `first` to `last` cannot take effect: an entry is missing, or the voters
have to be looked up at a final one. -/
def SettleFails (n : Node MemoryStore) (first last : Nat) : Prop :=
  ∃ index ∈ indexes (firstSettled n first) last,
    entryAt? n index = none ∨ Exhausted n ∧ finalAt n index = true

instance (n : Node MemoryStore) (first last : Nat) : Decidable (SettleFails n first last) :=
  inferInstanceAs (Decidable (∃ _ ∈ _, _))

namespace Good

variable {k : Nat} {n n' : Node MemoryStore}

theorem applyConfiguration_exact (h : Good k n) (e : Entry) :
    FailsIff (Exhausted n ∧ (e.kind == .finalConfig) = true) (applyConfiguration e) n
      fun _ => Configured n := by
  unfold applyConfiguration
  cases he : e.kind with
  | jointConfig =>
    have hc : Configured n { n with votersOld := e.oldVoters, votersNew := e.newVoters } :=
      ⟨rfl, fun _ => .inl, fun _ => .inl rfl⟩
    exact FailsIff.congr (P := False) (.update (hc.trans (.ensurePeers _ _))) (by simp)
  | finalConfig =>
    have hc : Configured n { n with votersOld := e.oldVoters, votersNew := 0 } :=
      ⟨rfl, fun _ => .inl, fun _ => .inl rfl⟩
    have hcheck := ((hc.good h).isVoter_checks n.id).congr (or_iff_left (not_not.mpr h.id))
    refine FailsIff.congr (P := Exhausted n) (.seq_update (.seq_get (.seq_check_then hcheck fun b _ => ?_)))
      (by simp)
    split
    · exact .ret hc
    · exact .update (hc.trans ⟨rfl, fun _ => .inl, fun _ => .inl rfl⟩)
  | normal => exact FailsIff.congr (P := False) (.ret (.refl n)) (by simp)
  | noop => exact FailsIff.congr (P := False) (.ret (.refl n)) (by simp)
  | other code unnamed => exact FailsIff.congr (P := False) (.ret (.refl n)) (by simp)

theorem settleAt_exact (h : Good k n) (index : Nat) :
    FailsIff (entryAt? n index = none ∨ Exhausted n ∧ finalAt n index = true) (settleAt index) n
      fun _ => Configured n := by
  unfold settleAt
  refine .seq_get (.seq_check (entryAt_checks n index) fun e he => ?_)
  have he' : entryAt? n index = some e := by
    unfold entryAt at he
    split at he
    · rename_i heq
      rw [heq, Except.ok.inj he]
    · cases he
  refine (FailsIff.seq_then (h.applyConfiguration_exact e) fun _ _ n₁ hc => .update ?_).congr ?_
  · split
    · exact hc.trans ⟨rfl, fun _ => .inl, fun _ => .inl rfl⟩
    · exact hc
  · rw [finalAt, he', Option.any_some]

theorem applyCommittedConfigurations_exact (h : Good k n) (first last : Nat) :
    FailsIff (SettleFails n first last) (applyCommittedConfigurations first last) n
      fun _ => Configured n := by
  refine .seq_get (.every (.refl n) fun index _ n₁ hc => ?_)
  refine (((hc.good h).settleAt_exact index).congr ?_).mono fun _ _ _ hc' => hc.trans hc'
  rw [finalAt, finalAt, hc.entryAt?_eq, hc.exhausted]

/-- The entries up to the last index are there. -/
theorem not_settleFails (h : Good k n) (hex : ¬ Exhausted n) {first last : Nat}
    (hl : last ≤ lastIndex n) : ¬ SettleFails n first last := by
  rintro ⟨index, hmem, hfail⟩
  have hnone := hfail.resolve_right fun hf => hex hf.1
  rw [h.entryAt?_eq_none] at hnone
  rw [mem_indexes] at hmem
  have hbase := h.base
  have hw : n.baseIndex + 1 < 2 ^ 64 := by
    unfold Exhausted maxUint64 at hex
    omega
  have hlt : n.baseIndex < firstSettled n first := by
    unfold firstSettled
    split
    · rw [wrap_of_lt hw]
      omega
    · omega
  have hmax : last ≠ maxUint64 := by
    refine fun hmax => hex (.inr ?_)
    have := last_lt n
    unfold maxUint64 at *
    omega
  omega

/-- The pending configuration is found again. -/
theorem rebuildPendingConfig_exact (h : Good k n) :
    FailsIff (Exhausted n) rebuildPendingConfig n fun _ => Configured n := by
  have hc₀ : Configured n { n with pendingConfig := 0 } := ⟨rfl, fun _ => .inl, fun _ => .inl rfl⟩
  refine .seq_update (.seq_get (.congr (.every hc₀ fun index _ n₁ hc => ?_) h.pending_missing))
  refine .seq_get (.seq_check_then (.congr (entryAt_checks n₁ index) ?_) fun e _ => ?_)
  · rw [hc.entryAt?_eq]
  split
  · have hp : Configured n₁ { n₁ with pendingConfig := index } := ⟨rfl, fun _ => .inl, fun _ => .inl rfl⟩
    exact .update (hc.trans (hp.trans (.ensurePeers _ _)))
  · exact .ret hc

end Good

/-! ## Leading -/

/-- The node when its hard state is saved. -/
def saved (hard : HardState) (n : Node MemoryStore) : Node MemoryStore :=
  { n with store := { n.store with hard } }

/-- The node with one more entry. -/
def extend (n : Node MemoryStore) (e : Entry) : Node MemoryStore := { n with log := n.log ++ [e] }

/-- The node when it leads and has appended the entry of its term. -/
def lead (n : Node MemoryStore) : Node MemoryStore :=
  finalState (appendLocal { term := n.term, kind := .noop }
    { n with state := .leader, leader := n.id, elapsed := 0 })

/-- A candidate that has won panics: it cannot look the voters up once it has appended its entry, or
it has no room for an append to each of them. -/
def LeadFails (n : Node MemoryStore) : Prop :=
  Exhausted (extend n { term := n.term, kind := .noop }) ∨
    ¬ Room ((lead n).peers.countP (votes (lead n))) (lead n)

instance (n : Node MemoryStore) : Decidable (LeadFails n) := inferInstanceAs (Decidable (_ ∨ _))

theorem lastIndex_congr {n n' : Node MemoryStore} (hlog : n'.log = n.log)
    (hb : n'.baseIndex = n.baseIndex) : lastIndex n' = lastIndex n := by
  unfold lastIndex
  rw [hlog, hb]

theorem exhausted_congr {n n' : Node MemoryStore} (hlog : n'.log = n.log)
    (hb : n'.baseIndex = n.baseIndex) : Exhausted n' ↔ Exhausted n := by
  rw [Exhausted, Exhausted, lastIndex_congr hlog hb, hb]

namespace Good

variable {k : Nat} {n n' : Node MemoryStore}

theorem persistHardState_exact (hard : HardState) :
    FailsIff False (persistHardState hard) n fun ok n' => ok = true ∧ n' = saved hard n :=
  ⟨not_false, rfl, rfl⟩

/-- The store takes every entry. -/
theorem storeAppend_exact (h : Good k n) (index : Nat) (e : Entry) :
    FailsIff False (callStoreOrFail (StableStore.append index e)) n fun ok n' => ok = true ∧
      n' = { n with store := { n.store with log := n.store.log ++ [e] } } ∧ Good k n' :=
  ⟨not_false, rfl, rfl, { h with store := h.store }⟩

theorem weaken (h : Good (k + 1) n) : Good k n := { h with length := by have := h.length; omega }

/-- One more entry. If the last index was the largest, it wraps around. -/
theorem extend (h : Good (k + 1) n) (e : Entry) : Good k (extend n e) := by
  have hlen : (n.log ++ [e]).length = n.log.length + 1 := List.length_append
  refine { h with
    log := List.append_ne_nil_of_right_ne_nil _ (List.cons_ne_nil _ _)
    length := ?_
    base_le := fun hw => h.base_le fun hw' => hw ?_ }
  · show (n.log ++ [e]).length + k < 2 ^ 64
    have := h.length
    omega
  · have hpos := List.length_pos_of_ne_nil h.log
    have hlen' := h.length
    have hbase := h.base
    show wrap (maxUint64 + (n.baseIndex + (n.log ++ [e]).length)) < n.baseIndex
    unfold Wrapped lastIndex at hw'
    unfold wrap maxUint64 at *
    omega

/-- The commit index moves to an index of the log. -/
theorem commitAt (h : Good k n) (hex : ¬ Exhausted n) {index : Nat} (hl : index ≤ lastIndex n)
    (hb : ¬ Wrapped n → n.baseIndex ≤ index) (hard : HardState) :
    Good k { saved hard n with commit := index } :=
  { h with
    commit := Nat.lt_of_le_of_lt hl (last_lt n)
    base_le := hb
    last_base := fun hmax => absurd (.inl hmax) hex
    store := h.store }

/-- The configurations up to that index take effect. -/
theorem commitAt_exact (h : Good k n) (hex : ¬ Exhausted n) {index : Nat} (hl : index ≤ lastIndex n)
    (hb : ¬ Wrapped n → n.baseIndex ≤ index) (hard : HardState) (first : Nat) :
    FailsIff False (applyCommittedConfigurations first index)
      { saved hard n with commit := index } fun _ => Configured { saved hard n with commit := index } := by
  have h₁ := h.commitAt hex hl hb hard
  exact (h₁.applyCommittedConfigurations_exact first index).congr
    (iff_false_intro (h₁.not_settleFails hex hl))

/-- A single voter commits all of its log. -/
theorem commitAlone_exact (h : Good k n) (hex : ¬ Exhausted n) :
    FailsIff False commitAlone n fun ok n' => ok = true ∧ Good k n' ∧
      n'.log = n.log ∧ n'.baseIndex = n.baseIndex ∧ n'.outbound = n.outbound := by
  unfold commitAlone
  refine .seq_get (.seq_update (.seq_get (.seq_ok (persistHardState_exact _) ?_)))
  rintro ok n₁ ⟨rfl, rfl⟩
  have hb : ¬ Wrapped n → n.baseIndex ≤ lastIndex n := Nat.le_of_not_lt
  refine FailsIff.seq_ok (h.commitAt_exact hex (Nat.le_refl _) hb _ _) fun _ n₂ hc => .ret ?_
  exact ⟨rfl, hc.good (h.commitAt hex (Nat.le_refl _) hb _), hc.log, hc.baseIndex, hc.outbound⟩

/-- The entry is appended, and committed by a single voter. -/
theorem appendLocal_exact (h : Good (k + 1) n) (e : Entry) :
    FailsIff (Exhausted (Wrap.extend n e)) (appendLocal e) n fun ok n' => ok = true ∧ Good k n' ∧
      n'.log = n.log ++ [e] ∧ n'.baseIndex = n.baseIndex ∧ n'.outbound = n.outbound := by
  unfold appendLocal
  refine .seq_get (.seq_ok (h.storeAppend_exact _ e) ?_)
  rintro ok n₁ ⟨rfl, rfl, h₁⟩
  have h₂ := h₁.extend e
  unfold extendLocal
  refine .seq_update (.seq_get (.seq_pass (nodeBit_of_valid h.id.1 h.id.2) ?_))
  refine .seq_check_then (h₂.quorumMask_checks _) fun alone halone => ?_
  have hex := (h₂.quorumMask_checks _).not_of_ok halone
  split
  · exact h₂.commitAlone_exact hex
  · exact .ret ⟨rfl, h₂, rfl, rfl, rfl⟩

/-- Everyone's next index is set. -/
theorem resetProgress_exact (n : Node MemoryStore) (peers : List Nat) (next : Nat) :
    FailsIff False
      (peers.forM fun p => modify fun m => (m.setNext p next).setMatch p 0 : NodeM MemoryStore Unit) n
      fun _ n' => n' = { n with next := n'.next, matchIdx := n'.matchIdx } ∧
        ∀ p, n'.next p = if p ∈ peers then next else n.next p := by
  induction peers generalizing n with
  | nil => exact .ret ⟨rfl, fun p => (if_neg List.not_mem_nil).symm⟩
  | cons p peers ih =>
    refine (ih ((n.setNext p next).setMatch p 0)).mono fun _ _ n' ⟨hn', hnext⟩ => ⟨hn', fun q => ?_⟩
    have hset : ((n.setNext p next).setMatch p 0).next q = if q = p then next else n.next q :=
      Function.update_apply ..
    rw [hnext, hset]
    by_cases hq : q ∈ peers
    · rw [if_pos hq, if_pos (List.mem_cons_of_mem _ hq)]
    · rw [if_neg hq]
      exact if_congr (by simp [hq]) rfl rfl

/-- A candidate that has won. -/
theorem becomeLeader_exact (h : Good (k + 1) n) :
    FailsIff (LeadFails n) becomeLeader n fun _ => Good k := by
  have h₀ : Good (k + 1) { n with state := .leader, leader := n.id, elapsed := 0 } := { h with }
  have happend := (h₀.appendLocal_exact { term := n.term, kind := .noop }).final
  unfold becomeLeader
  refine .seq_update (.seq_get (happend.seq ?_))
  rintro hex ok n₁ ⟨⟨rfl, h₁, hlog, hbase, hout⟩, hn₁⟩
  refine .seq_get (.seq_ok (resetProgress_exact _ _ _) fun _ n₂ ⟨hn₂, hnext⟩ => ?_)
  have h₂ : Good k n₂ := by
    rw [hn₂]
    exact { h₁ with }
  have hlast : lastIndex n₂ = lastIndex n₁ := by rw [hn₂]; rfl
  have hex₁ : ¬ Exhausted n₁ := fun hex₁ =>
    hex ((exhausted_congr (n := Wrap.extend _ _) hlog hbase).mp hex₁)
  have hex₂ : ¬ Exhausted n₂ := by
    rw [hn₂]
    exact hex₁
  have hlead : n₁ = lead n := hn₁
  refine ((h₂.broadcastAppend_exact hex₂ fun hw p hp => ?_).congr ?_).mono fun hr _ n₃ hs => ?_
  · have hp₁ : p ∈ n₁.peers := by rwa [hn₂] at hp
    rw [hnext, if_pos hp₁, wrap_last fun hmax => hex₁ (.inr hmax), ← hlast]
    exact hw
  · rw [hn₂, ← hlead]
    rfl
  · rw [← hlead] at hr
    have hroom : Room (n₂.peers.countP (votes n₂)) n₂ := by
      rw [hn₂]
      exact not_not.mp hr
    exact hs.good h₂ hroom

end Good

/-! ## Elections -/

/-- The node as a candidate of the next term, when its vote is saved. -/
def candidate (n : Node MemoryStore) : Node MemoryStore :=
  campaign (wrap (n.term + 1)) (bit n.id)
    (saved { term := wrap (n.term + 1), votedFor := n.id, commit := n.commit } n)

/-- The candidate when it has asked the others. -/
def asked (n : Node MemoryStore) : Node MemoryStore :=
  finalState (request .requestVote (·.term) n.peers (candidate n))

/-- An election panics: the candidate cannot look up its last term or the voters, it has no room for
the requests, or it wins alone and panics then. -/
def ElectionFails (n : Node MemoryStore) : Prop :=
  n.peers ≠ [] ∧ Wrapped n ∨ ¬ Room n.peers.length n ∨ Exhausted n ∨
    wins n (bit n.id) = true ∧ LeadFails (asked n)

instance (n : Node MemoryStore) : Decidable (ElectionFails n) := inferInstanceAs (Decidable (_ ∨ _))

namespace Good

variable {k : Nat} {n n' : Node MemoryStore}

theorem startElection_exact (h : Good (k + 1) n) :
    FailsIff (ElectionFails n) startElection n fun _ => Good k := by
  have h₁ : Good (k + 1) (candidate n) := { h with store := h.store }
  have hask := (h₁.request_exact .requestVote (·.term) n.peers).final
  unfold startElection
  refine .seq_get (.seq_ok (persistHardState_exact _) ?_)
  rintro ok n₁ ⟨rfl, rfl⟩
  refine .seq_pass (nodeBit_of_valid h.id.1 h.id.2) (.seq_update (.seq_get ?_))
  refine (hask.seq (F := Exhausted n ∨ wins n (bit n.id) = true ∧ LeadFails (asked n)) ?_).congr ?_
  · intro hok _ n₂ ⟨hs, hn₂⟩
    have h₂ := hs.good h₁ (not_not.mp fun hr => hok (.inr hr))
    have hmask : n₂.voteMask = bit n.id := by rw [hs.same]; rfl
    have hwins : wins n₂ n₂.voteMask = wins n (bit n.id) := by rw [hmask, hs.wins_eq]; rfl
    refine .seq_get (.seq_check ((h₂.quorumMask_checks _).congr hs.exhausted) fun won hwon => ?_)
    have hw : wins n₂ n₂.voteMask = won := by rw [wins, hwon]; rfl
    rw [← hwins, hw, show asked n = n₂ from hn₂.symm]
    exact FailsIff.ite_left (fun _ => h₂.becomeLeader_exact) fun _ => .ret h₂.weaken
  · exact or_assoc

end Good

end Promtact.Raft.Wrap
