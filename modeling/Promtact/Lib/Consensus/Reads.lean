import Promtact.Lib.Consensus.Steps

/-!
# What a leader knows to be committed

A leader that has committed an entry of its own term knows everything that is committed, as long as
some acknowledgement of every commit came from a member that has not entered a later term
(`Inv.commits_le`). A leader that reads asks a quorum for just that.

`Owned` is what this needs about the record: the leader that made a commit knows it, and members
stand for election themselves. Terms and commit indexes do not go down (`World.Rises`).
-/

namespace Consensus

variable {ι E V : Type} [DecidableEq ι] {P : Params ι E V} {w w' : World ι E} {i : ι}

namespace World

/-- Terms and commit indexes do not go down. -/
structure Rises (w w' : World ι E) : Prop where
  term : ∀ j, w.term j ≤ w'.term j
  commit : ∀ j, w.commit j ≤ w'.commit j

omit [DecidableEq ι] in
theorem Rises.refl (w : World ι E) : w.Rises w := ⟨fun _ => le_rfl, fun _ => le_rfl⟩

omit [DecidableEq ι] in
theorem Rises.trans {w'' : World ι E} (h : w.Rises w') (h' : w'.Rises w'') : w.Rises w'' :=
  ⟨fun j => (h.term j).trans (h'.term j), fun j => (h.commit j).trans (h'.commit j)⟩

end World

theorem Step.rises (hs : Step P i w w') : w.Rises w' := by
  have hup : ∀ {f : ι → Nat} {k : Nat}, f i ≤ k → ∀ j, f j ≤ Function.update f i k j := by
    intro f k hk j
    by_cases hj : j = i
    · subst hj
      rwa [Function.update_self]
    · rw [Function.update_of_ne hj]
  cases hs with
  | bump ht => exact ⟨hup ht.le, fun _ => le_rfl⟩
  | advance _ _ hc => exact ⟨fun _ => le_rfl, hup hc.le⟩
  | learn _ hc => exact ⟨fun _ => le_rfl, hup hc⟩
  | _ => exact ⟨fun _ => le_rfl, fun _ => le_rfl⟩

theorem Steps.rises (hs : Steps P i w w') : w.Rises w' := by
  induction hs with
  | refl => exact .refl w
  | tail _ hs ih => exact ih.trans hs.rises

/-- Candidates are members, and the leader that made a commit knows it. -/
structure Owned (M : ι → Prop) (w : World ι E) : Prop where
  cand : ∀ {t j ℓ}, w.cand t j = some ℓ → M j
  commits : ∀ {c}, w.commits c → ∃ r, w.lead c.term = some r ∧ c.idx ≤ w.commit r.leader

namespace Owned

variable {M : ι → Prop}

omit [DecidableEq ι] in
theorem start : Owned M (World.start : World ι E) := ⟨nofun, False.elim⟩

theorem step (h : Owned M w) (hinv : Inv P w) (hi : M i) (hs : Step P i w w') : Owned M w' := by
  have hx := hinv.ext_step hs
  have hold : ∀ {c}, w.commits c → ∃ r, w'.lead c.term = some r ∧ c.idx ≤ w'.commit r.leader := by
    intro c hc
    obtain ⟨r, hr, hle⟩ := h.commits hc
    exact ⟨r, hx.lead hr, hle.trans (hs.rises.commit _)⟩
  cases hs with
  | stand h0 hn ht =>
    refine ⟨fun {t j ℓ} hc => ?_, hold⟩
    simp only [World.stand] at hc
    split at hc
    · rename_i heq
      exact heq.2 ▸ hi
    · exact h.cand hc
  | @advance idx acks r hr hl =>
    refine ⟨h.cand, fun {c} hc => ?_⟩
    rcases hc with hc | rfl
    · exact hold hc
    · refine ⟨r, hr, ?_⟩
      rw [hl]
      exact (Function.update_self i idx w.commit).ge
  | _ => exact ⟨h.cand, hold⟩

theorem steps (h : Owned M w) (hinv : Inv P w) (hi : M i) (hs : Steps P i w w') : Owned M w' := by
  induction hs with
  | refl => exact h
  | tail hs hstep ih => exact ih.step (hinv.steps hs) hi hstep

end Owned

namespace Inv

variable (h : Inv P w)
include h

omit [DecidableEq ι] in
/-- A commit that a member acknowledged is not of a later term than the member's. -/
theorem commit_term_le {c : Commit ι} (hc : w.commits c) {v : ι} (hv : c.acks v) :
    c.term ≤ w.term v := (h.acked_le ((h.commit_rec hc).2.2.2.2 v hv)).1

omit [DecidableEq ι] in
/-- A leader that has committed an entry of its own term knows all commits up to its term. -/
theorem commits_le {M : ι → Prop} (ho : Owned M w) {t : Nat} {r : Election ι E}
    (hr : w.lead t = some r) {k : Nat} {e : E} (hk : k < w.commit r.leader)
    (he : (w.llog t)[k]? = some e) (het : P.term e = t) {c : Commit ι} (hc : w.commits c)
    (hct : c.term ≤ t) : c.idx ≤ w.commit r.leader := by
  rcases Nat.lt_or_ge c.term t with hlt | hge
  · -- the leader was elected with it, and its own entries come after that
    have hlen : c.idx ≤ r.log.length := by
      rw [← h.upTo_length hc]
      exact (h.completeness t r hr c hc hlt).length_le
    have hown : r.log.length ≤ k := by
      by_contra hbelow
      have hin := getElem?_prefix_eq (h.lead_log hr) (Nat.not_le.mp hbelow)
      have := (h.cand_coh (h.lead_cand hr)).2 e (List.mem_of_getElem? (hin.trans he))
      omega
    omega
  · obtain ⟨r', hr', hle⟩ := ho.commits hc
    rw [Nat.le_antisymm hct hge, hr] at hr'
    cases hr'
    exact hle

end Inv

end Consensus
