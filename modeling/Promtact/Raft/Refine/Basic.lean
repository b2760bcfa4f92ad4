import Promtact.Raft.RepLemmas

/-!
# Storing and sending

`NSim` is the simulation of a node's method by the steps of its member. When the method panics,
the store is left as it is and must still hold the member's state.

Sending takes no step: `Casts` says that only the outbound messages and the next indexes change
and that what is sent is true. A leader's appends and snapshots are of this kind
(`broadcastAppend_sim`).
-/

namespace Promtact.Raft

open Refine Consensus

variable {σ α : Type} [DurableStore σ] [LawfulStore σ] {mode : Mode} {V : Mask}
  {w w' : World Nat Entry} {i : Nat} {n : Node σ}

/-- A method of member `i` is matched by steps of member `i`. -/
abbrev NSim (mode : Mode) (V : Mask) (i : Nat) (w : World Nat Entry) (x : NodeM σ α) (n : Node σ)
    (Q : α → World Nat Entry → Node σ → Prop) : Prop :=
  Sim (Step (params mode V) i) (fun w n => Stored mode V w i n.store) w x n Q

/-! ## Storing -/

/-- A node that agrees with its store up to its commit index may stop. -/
theorem Failed.rep {err : Option StorageError} (hid : n.id = i) (h : Failed mode V w i n) :
    Rep mode V w i (n.fail err) := .inr ⟨hid, rfl, rfl, rfl, h⟩

theorem Live.failed {c : Nat} {s : σ} (h : Live mode V w i n c) (hs : Stored mode V w i s)
    (hm : mode.members = false →
      toCfg n.votersOld n.votersNew = (params mode V).cfg ((w.log i).take n.commit)) :
    Failed mode V w i { n with store := s } := ⟨hs, h.settled hm⟩

/-- A running node whose store refused a call stops. -/
theorem Ready.fail {M K : Prop} {s : σ} {err : Option StorageError}
    (h : Ready mode V M K w i n n.commit) (hs : Stored mode V w i s) :
    Rep mode V w i ({ n with store := s }.fail err) :=
  (h.live.failed hs fun _ => h.live.2.2.1).rep h.id

theorem Ready.rep (h : Ready mode V True True w i n n.commit) : Rep mode V w i n := .inl h

theorem Rep.stored (h : Rep mode V w i n) : Stored mode V w i n.store := by
  rcases h with h | ⟨-, -, -, -, h⟩
  · exact h.live.stored
  · exact h.1

theorem Rep.sent (h : Rep mode V w i n) : Sent mode V w n.outbound := by
  rcases h with h | ⟨-, h, -⟩
  · exact h.sent
  · rw [h]; exact Sent.nil

/-- A node that is not a follower is running. -/
theorem Rep.ready (h : Rep mode V w i n) (hf : n.faulted = false) :
    Ready mode V True True w i n n.commit := by
  rcases h with h | ⟨-, -, h, -⟩
  · exact h
  · rw [hf] at h; cases h

theorem Rep.ready_of_state (h : Rep mode V w i n) (hs : n.state ≠ .follower) :
    Ready mode V True True w i n n.commit := by
  rcases h with h | ⟨-, -, -, h, -⟩
  · exact h
  · exact absurd h hs

/-! ## Sending -/

/-- Only messages are sent, and they are true. -/
def Casts (mode : Mode) (V : Mask) (w : World Nat Entry) (n : Node σ) (w' : World Nat Entry)
    (n' : Node σ) : Prop :=
  w' = w ∧ ∃ next out enq, n' = { n with next := next, outbound := out, enqueued := enq } ∧
    Sent mode V w out

omit [DurableStore σ] [LawfulStore σ] in
theorem Casts.refl (h : Sent mode V w n.outbound) : Casts mode V w n w n :=
  ⟨rfl, n.next, n.outbound, n.enqueued, rfl, h⟩

theorem Casts.ready {M K : Prop} {n' : Node σ} {c : Nat} (h : Casts mode V w n w' n')
    (hr : Ready mode V M K w i n c) : Ready mode V M K w' i n' c := by
  obtain ⟨rfl, next, out, enq, rfl, hs⟩ := h
  exact ⟨hr.id, hs, hr.faulted, hr.live, hr.matched, hr.pending⟩

omit [DurableStore σ] [LawfulStore σ] in
theorem Casts.commit_eq {n' : Node σ} (h : Casts mode V w n w' n') : n'.commit = n.commit := by
  obtain ⟨rfl, next, out, enq, rfl, hs⟩ := h; rfl

omit [DurableStore σ] [LawfulStore σ] in
theorem Casts.trans {n' n'' : Node σ} {w'' : World Nat Entry} (h : Casts mode V w n w' n')
    (h' : Casts mode V w' n' w'' n'') : Casts mode V w n w'' n'' := by
  obtain ⟨rfl, next, out, enq, rfl, hs⟩ := h
  obtain ⟨rfl, next', out', enq', rfl, hs'⟩ := h'
  exact ⟨rfl, next', out', enq', rfl, hs'⟩

theorem Casts.rep {n' : Node σ} (h : Casts mode V w n w' n')
    (hr : Ready mode V True True w i n n.commit) : Rep mode V w' i n' := by
  have := h.ready hr
  rw [← h.commit_eq] at this
  exact this.rep

theorem send_sim {m : Message} (hst : Stored mode V w i n.store) (hs : Sent mode V w n.outbound)
    (hm : ValidMsg mode V w m) : NSim mode V i w (send m) n fun _ => Casts mode V w n :=
  send_rule hst ⟨rfl, n.next, _, _, rfl, hs.snoc hm⟩

/-- Member `i` leads its term. -/
def Leads (w : World Nat Entry) (i : Nat) : Prop :=
  ∃ r, w.lead (w.term i) = some r ∧ r.leader = i

theorem Leads.llog (h : Leads w i) (hinv : Inv (params mode V) w) :
    w.llog (w.term i) = w.log i := by
  obtain ⟨r, hr, hri⟩ := h
  have := hinv.lead_own hr
  rw [hri] at this
  exact (this rfl).symm

theorem Live.leads {c : Nat} (h : Live mode V w i n c) (hs : n.state = .leader) : Leads w i := by
  have := h.2.2.2.leader hs
  rwa [← h.1.term_eq] at this

theorem Live.termAtMust_inv {c k t : Nat} (h : Live mode V w i n c) (hk : n.termAtMust k = .ok t) :
    n.baseIndex ≤ k ∧ k ≤ (w.log i).length ∧
      t = (params mode V).lastTerm ((w.log i).take k) := by
  by_cases hb : n.baseIndex ≤ k
  · by_cases hl : k ≤ (w.log i).length
    · rw [h.termAtMust_ok hb hl] at hk
      exact ⟨hb, hl, (Except.ok.inj hk).symm⟩
    · rw [Node.termAtMust, h.termAt_none (by omega)] at hk; cases hk
  · rw [Node.termAtMust, Node.termAt, Raft.entryAt?_eq, entryOf, if_neg hb] at hk; cases hk

theorem Live.entryAt_inv {c k : Nat} {e : Entry} (h : Live mode V w i n c) (hb : n.baseIndex < k)
    (hk : n.entryAt k = .ok e) : (w.log i)[k - 1]? = some e := by
  rw [Node.entryAt, h.entryAt?_eq hb] at hk
  cases hx : (w.log i)[k - 1]? with
  | none => rw [hx] at hk; cases hk
  | some e' => rw [hx] at hk; cases hk; rfl

/-- What a leader appends is in its log. -/
theorem appendMessage_valid {c p next : Nat} {context : UInt64} {m : Message}
    (h : Live mode V w i n c) (hid : n.id = i) (hinv : Inv (params mode V) w) (hl : Leads w i)
    (hn : 0 < next) (hm : n.appendMessage p next context = .ok m) : ValidMsg mode V w m := by
  obtain ⟨t, ht, hm⟩ := check_ok hm
  obtain ⟨hb, hle, rfl⟩ := h.termAtMust_inv ht
  have hllog := hl.llog hinv
  obtain ⟨r, hr, hri⟩ := hl
  have hbacked := hinv.commit_ev i
  rw [h.1.term_eq] at hllog hr hbacked
  rw [h.1.commit_eq, ← hllog] at hbacked
  have hterm : (params mode V).lastTerm (w.upTo n.term (next - 1)) =
      (params mode V).lastTerm ((w.log i).take (next - 1)) := by rw [World.upTo, hllog]
  split at hm
  · obtain ⟨e, he, hm⟩ := check_ok hm
    cases hm
    refine ⟨r, hr, hri.trans hid.symm, hllog ▸ hle, hterm, fun _ => ?_, hbacked⟩
    show (w.llog n.term)[next - 1]? = some e
    rw [hllog]; exact h.entryAt_inv (by omega) he
  · cases hm
    exact ⟨r, hr, hri.trans hid.symm, hllog ▸ hle, hterm, fun h => Bool.noConfusion h, hbacked⟩

/-- What a leader's snapshot stands for is committed. -/
theorem snapshotMessage_valid {c p : Nat} (h : Live mode V w i n c) (hid : n.id = i)
    (hinv : Inv (params mode V) w) (hl : Leads w i) : ValidMsg mode V w (n.snapshotMessage p) := by
  intro _
  have hllog := hl.llog hinv
  obtain ⟨r, hr, hri⟩ := hl
  have hbacked := hinv.commit_ev i
  rw [h.1.term_eq] at hllog hr hbacked
  rw [h.1.commit_eq, ← hllog] at hbacked
  refine ⟨r, hr, hri.trans hid.symm, ?_, ?_⟩
  · have := h.1.covers
    rw [← hllog] at this
    exact ⟨this.le, this.term, this.none, this.some⟩
  · refine hbacked.mono le_rfl (List.take_prefix _ _) ?_
    show n.snapshot.lastIndex ≤ n.commit
    have := h.2.1
    rw [h.1.base_eq]; omega

theorem appendToContext_sim {M K : Prop} {c p : Nat} {context : UInt64}
    (h : Ready mode V M K w i n c) (hinv : Inv (params mode V) w) (hl : Leads w i) :
    NSim mode V i w (appendToContext p context) n fun _ => Casts mode V w n := by
  unfold appendToContext
  refine Sim.seq_get (Sim.ite (fun _ => ?_) fun _ => ?_)
  · exact send_sim h.live.stored h.sent (snapshotMessage_valid h.live h.id hinv hl)
  · refine Sim.seq_update (Sim.seq_get ?_)
    -- the next index may have been clamped
    obtain ⟨next, hnext⟩ : ∃ next, (if n.next p > n.lastIndex + 1
        then n.setNext p (n.lastIndex + 1) else n) = { n with next := next } := by
      split
      · exact ⟨_, rfl⟩
      · exact ⟨n.next, rfl⟩
    rw [hnext]
    refine Sim.seq_check_of h.live.stored fun m hm => ?_
    have hv := appendMessage_valid (n := { n with next := next }) h.live h.id hinv hl (by omega) hm
    refine (send_sim (n := { n with next := next }) h.live.stored h.sent hv).mono ?_
    rintro - w' n' - ⟨rfl, next', out, enq, rfl, hs⟩
    exact ⟨rfl, next', out, enq, rfl, hs⟩

theorem appendTo_sim {M K : Prop} {c p : Nat} (h : Ready mode V M K w i n c)
    (hinv : Inv (params mode V) w) (hl : Leads w i) :
    NSim mode V i w (appendTo p) n fun _ => Casts mode V w n :=
  appendToContext_sim h hinv hl

theorem broadcastAppend_sim {M K : Prop} {c : Nat} (h : Ready mode V M K w i n c)
    (hinv : Inv (params mode V) w) (hl : Leads w i) :
    NSim mode V i w broadcastAppend n fun _ => Casts mode V w n := by
  unfold broadcastAppend
  refine Sim.seq_get (Sim.each (Casts.refl h.sent) fun p _ w' n' hc => ?_)
  have hr := hc.ready h
  obtain rfl : w' = w := hc.1
  refine Sim.seq_get (Sim.seq_check_of hr.live.stored fun voter _ => ?_)
  refine Sim.ite (fun _ => ?_) fun _ => Sim.ret hc
  exact (appendTo_sim hr hinv hl).mono fun _ _ _ _ hc' => hc.trans hc'

end Promtact.Raft
