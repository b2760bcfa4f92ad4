import Promtact.Raft.Cluster
import Promtact.Raft.Refine.Recover

/-!
# Clusters refine the protocol

Every run of a cluster is matched by a run of the abstract protocol (`Setup.simulates`,
`Setup.run`): each node is a member of the world, each store that a crash left would give its member
back, and each message that was sent is true.

`Permitted` is what the runs of a `Mode` may do.
-/

namespace Promtact.Raft

open Refine Consensus Network

variable {σ : Type} [DurableStore σ] [LawfulStore σ] {mode : Mode} {V : Mask}
  {w w' : World Nat Entry} {i : Nat} {n : Node σ}

/-! ## Methods -/

/-- A node may use a method in the runs of a mode. -/
def Op.Permitted (mode : Mode) (n : Node σ) : Op → Prop
  | .proposeJoint _ | .proposeFinal => mode.members = true
  | .compact index _ => mode.snapshots = true ∧
      (mode.members = true → n.baseIndex < index → index ≤ n.applied → CompactSafe n index)
  | .step m => Safe mode n m
  | _ => True

theorem Op.run_sim {op : Op} {sent : List Message} (h : Rep mode V w i n)
    (hinv : Inv (params mode V) w) (hi : 0 < i) (hV : V ≠ 0) (hp : op.Permitted mode n)
    (himg : ∀ ℓ state, mode.Image ℓ state) (hd : op.Deliverable i sent) (hs : Sent mode V w sent) :
    NSim mode V i w op.run n fun _ w' n' => Rep mode V w' i n' := by
  cases op with
  | tick => exact tick_sim h hinv hi
  | step m => exact step_sim h hinv hi ⟨hs m hd.1, hd.2, hp⟩
  | propose command => exact Sim.discard (propose_sim h hinv)
  | proposeRequest operation clientID requestID key value => exact Sim.discard (proposeRequest_sim h hinv)
  | proposeJoint newVoters => exact Sim.discard (proposeJoint_sim h hinv hp hV)
  | proposeFinal => exact Sim.discard (proposeFinal_sim h hinv hp)
  | transferLeadership target => exact Sim.discard (transferLeadership_sim h hinv)
  | startReadIndex context => exact Sim.discard (startReadIndex_sim h hinv)
  | applyEntries =>
    refine Sim.discard ((applyEntries_sim h hinv).mono ?_)
    rintro out w' n' - ⟨rfl, -, hrep, -⟩
    exact hrep
  | compact index state => exact Sim.discard (compact_sim h hinv hV hp.1 (himg _ _) hp.2)

/-! ## Events -/

/-- An event may happen in the runs of a mode. -/
def Permitted (mode : Mode) (_ : Nat) : Event → Proc σ → Prop
  | .call op, .up n => op.Permitted mode n
  | .restart, .down store => LawfulStore.Sound store
  | _, _ => True

/-- The process at address `i` is member `i`. -/
def ProcRep (mode : Mode) (S : Setup σ) (w : World Nat Entry) (i : Nat) (p : Proc σ) : Prop :=
  i ∈ S.ids ∧ match p with
    | .up n => Rep mode S.voters w i n
    | .down store => Stored mode S.voters w i store

namespace Setup

variable (S : Setup σ)

/-- With any store a node has the voters of the setup. -/
theorem new_ok (hi : i ∈ S.ids) (store : σ) :
    ∃ n, newNodeWithStore i (S.peers i) (S.timeout i) store = .ok n ∧ n.votersOld = S.voters := by
  have h := S.agree i hi
  cases hn : newNodeWithStore i (S.peers i) (S.timeout i) (S.store i) with
  | error e => rw [hn] at h; cases h
  | ok n =>
    rw [hn] at h
    obtain ⟨seen, hseen, hn⟩ := check_ok hn
    obtain ⟨voters, hv, hn⟩ := check_ok hn
    cases hn
    refine ⟨{ id := i, peers := S.peers i, timeout := S.timeout i, store, votersOld := voters }, ?_,
      Except.ok.inj h⟩
    rw [newNodeWithStore, hseen]
    show (collectVoters (S.peers i) seen >>= _) = _
    rw [hv]; rfl

theorem id_pos (hi : i ∈ S.ids) : 0 < i := by
  obtain ⟨n, hn, -⟩ := S.new_ok hi (S.store i)
  exact (newNodeWithStore_ok hn).1

theorem voters_ne_zero (hi : i ∈ S.ids) : S.voters ≠ 0 := by
  obtain ⟨n, hn, hv⟩ := S.new_ok hi (S.store i)
  rw [← hv]; exact ne_zero_of_mem (newNodeWithStore_ok hn).2.1

theorem restart_rep {store : σ} {p : Proc σ} (hi : i ∈ S.ids)
    (hinv : Inv (params mode S.voters) w) (hs : Stored mode S.voters w i store)
    (hsound : LawfulStore.Sound store) (h : S.restart i store = some p) : ProcRep mode S w i p := by
  obtain ⟨d, hh, hd⟩ := hs
  unfold restart at h
  split at h
  · cases h
  · rename_i store' d' hre
    obtain ⟨rfl, hh', hc⟩ := LawfulStore.reopen_ok hh hsound hre
    obtain ⟨n₀, hn₀, hv⟩ := S.new_ok hi store'
    split at h
    · cases h
    · cases h
      exact ⟨hi, recover_rep hinv hd hh' hc hn₀ hv ‹_›⟩

theorem simulates (mode : Mode) (himg : ∀ ℓ state, mode.Image ℓ state) :
    Simulates S.act (Permitted mode) (fun i => Steps (params mode S.voters) i)
      (Inv (params mode S.voters)) (ProcRep mode S) (ValidMsg mode S.voters) where
  inv := Inv.steps
  sent hinv hs hm := hm.ext hinv (hinv.ext_steps hs)
  frame := by
    rintro w w' i j (n | store) hinv hs hj ⟨hi, h⟩
    · exact ⟨hi, Rep.frame h hinv hs hj⟩
    · exact ⟨hi, Stored.frame h hs hj⟩
  act := by
    rintro w i (op | _ | _ | _) (n | store) sent p' out hinv ⟨hi, hr⟩ hsent ha hact <;>
      simp only [act, reduceCtorEq] at hact
    · -- a method, which returns or panics
      split at hact
      · cases hact
        have hsim := Op.run_sim hr hinv (S.id_pos hi) (S.voters_ne_zero hi) ha himg ‹_› hsent
        cases hx : op.run n with
        | ok a n' =>
          obtain ⟨w', hs, h'⟩ := hsim.ok hx
          exact ⟨w', hs, ⟨hi, h'⟩, Sent.nil⟩
        | error e n' =>
          obtain ⟨w', hs, h'⟩ := hsim.error hx
          exact ⟨w', hs, ⟨hi, h'⟩, Sent.nil⟩
      · cases hact
    · have hsim := drain_sim hr
      cases hact
      obtain ⟨w', hs, -, -, h', -⟩ := hsim.ok rfl
      exact ⟨w, .refl, ⟨hi, h'⟩, hr.sent⟩
    · cases hact
      exact ⟨w, .refl, ⟨hi, hr.stored⟩, Sent.nil⟩
    · obtain ⟨p, hp, hpo⟩ := Option.map_eq_some_iff.mp hact
      cases hpo
      exact ⟨w, .refl, S.restart_rep hi hinv hr ha hp, Sent.nil⟩

/-! ## Runs -/

/-- The cluster is the world `w`. -/
def Joined (mode : Mode) (w : World Nat Entry) (c : Cluster σ) : Prop :=
  Network.Joined (Inv (params mode S.voters)) (ProcRep mode S) (ValidMsg mode S.voters) w c

variable {S} {c c' : Cluster σ}

theorem Joined.node (h : S.Joined mode w c) (hn : nodeAt c i = some n) :
    i ∈ S.ids ∧ Rep mode S.voters w i n := by
  unfold nodeAt at hn
  split at hn
  · cases hn
    exact h.procs i _ ‹_›
  · cases hn

theorem Joined.rep (h : S.Joined mode w c) (hn : nodeAt c i = some n) :
    Rep mode S.voters w i n := (h.node hn).2

theorem joined_start : S.Joined mode World.start S.start where
  inv := Inv.start
  sent := Sent.nil
  procs i p hp := by
    simp only [start] at hp
    split at hp
    · rename_i hi
      obtain ⟨n, hn, hv⟩ := S.new_ok hi (S.store i)
      rw [hn] at hp; cases hp
      exact ⟨hi, newNodeWithStore_rep (S.empty i hi).1 (S.empty i hi).2 hn hv⟩
    · cases hp

theorem ext_of_path {P : Params Nat Entry Mask}
    (h : Relation.ReflTransGen (fun w w' => Inv P w ∧ ∃ i, Steps P i w w') w w') : w.Ext w' := by
  induction h with
  | refl => exact World.Ext.refl w
  | tail _ hs ih =>
    obtain ⟨hinv, i, hs⟩ := hs
    exact ih.trans (hinv.ext_steps hs)

/-- A run of the cluster continues the record of the world. -/
theorem Joined.run (himg : ∀ ℓ state, mode.Image ℓ state) (h : S.Joined mode w c)
    (hr : Net.Runs S.act (Permitted mode) c c') : ∃ w', w.Ext w' ∧ S.Joined mode w' c' := by
  obtain ⟨w', hw, h'⟩ := Network.Joined.run (S.simulates mode himg) h hr
  exact ⟨w', ext_of_path hw, h'⟩

end Setup

end Promtact.Raft
