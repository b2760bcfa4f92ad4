import Promtact.Lib.Consensus.Completeness
import Mathlib.Logic.Function.Basic
import Mathlib.Logic.Relation

/-!
# The steps of a replicated log

What a member may do, as changes of the record, and that each of them keeps `Inv`. A step reads
its own member's state and the record only. It does not say which message caused it, so a
protocol's handlers are sequences of these steps.

* `bump`, `stand`, `grant`, `win`: enter a higher term, stand for election in it, vote, win.
* `append`: a leader adds an entry of its term. A change of the configuration must start from the
  current one and come after all earlier changes are known to be committed.
* `adopt`: a member replaces its log by a prefix of its leader's log that it does not hold. An
  append that replaces a conflicting suffix and a snapshot that discards the log are both of this
  form.
* `ack`: a member acknowledges a prefix of its leader's log that it holds.
* `advance`: a leader commits up to an entry of its own term; `learn`: a member hears of a commit.

A crash is no step: everything here survives it.
-/

namespace Consensus

variable {ι E V : Type} [DecidableEq ι]

namespace World

/-- A member enters a term, with its vote free. -/
def bump (w : World ι E) (i : ι) (t : Nat) : World ι E :=
  { w with
    term := Function.update w.term i t
    vote := Function.update w.vote i none }

/-- A member stands in its term with the log it has. -/
def stand (w : World ι E) (i : ι) : World ι E :=
  { w with cand := fun t j => if t = w.term i ∧ j = i then some (w.log i) else w.cand t j }

/-- A member votes for `c`. -/
def grant (w : World ι E) (i c : ι) : World ι E :=
  { w with
    vote := Function.update w.vote i (some c)
    voted := fun t' j => if t' = w.term i ∧ j = i then some (c, w.log i) else w.voted t' j }

/-- A candidate leads its term; its log becomes the log of the term. -/
def win (w : World ι E) (i : ι) (votes : ι → Prop) : World ι E :=
  { w with
    lead := Function.update w.lead (w.term i) (some ⟨i, w.log i, w.commit i, votes⟩)
    llog := Function.update w.llog (w.term i) (w.log i) }

/-- A leader appends to its log and that of its term. -/
def append (w : World ι E) (i : ι) (e : E) : World ι E :=
  { w with
    log := Function.update w.log i (w.log i ++ [e])
    llog := Function.update w.llog (w.term i) (w.log i ++ [e]) }

/-- A member takes over the first `k` entries of its term. -/
def adopt (w : World ι E) (i : ι) (k : Nat) : World ι E :=
  { w with log := Function.update w.log i (w.upTo (w.term i) k) }

/-- A member acknowledges the first `k` entries of its term. -/
def ack (w : World ι E) (i : ι) (k : Nat) : World ι E :=
  { w with acked := fun t v j => w.acked t v j ∨ t = w.term i ∧ v = i ∧ j ≤ k }

/-- A leader commits up to `idx`, and the commit is recorded. -/
def advance (w : World ι E) (i : ι) (idx : Nat) (acks : ι → Prop) : World ι E :=
  { w with
    commit := Function.update w.commit i idx
    commits := fun c => w.commits c ∨ c = ⟨w.term i, idx, w.commit i, acks⟩ }

/-- A member learns of a commit. -/
def learn (w : World ι E) (i : ι) (c : Nat) : World ι E :=
  { w with commit := Function.update w.commit i c }

/-! ### What winning changes -/

section Win

omit [DecidableEq ι]

variable {w : World ι E} {i : ι} {votes : ι → Prop} {t : Nat}

theorem win_llog_self : (w.win i votes).llog (w.term i) = w.log i := Function.update_self ..

theorem win_llog_of_ne (ht : t ≠ w.term i) : (w.win i votes).llog t = w.llog t :=
  Function.update_of_ne ht ..

theorem win_lead_self :
    (w.win i votes).lead (w.term i) = some ⟨i, w.log i, w.commit i, votes⟩ :=
  Function.update_self ..

theorem win_lead_of_ne (ht : t ≠ w.term i) : (w.win i votes).lead t = w.lead t :=
  Function.update_of_ne ht ..

/-- A term that has a leader is not the one to be won. -/
theorem ne_of_lead {r : Election ι E} (hn : w.lead (w.term i) = none) (hr : w.lead t = some r) :
    t ≠ w.term i := by
  rintro rfl
  cases hn.symm.trans hr

/-- The new leader, or a leader of another term. -/
theorem win_lead {r : Election ι E} (hr : (w.win i votes).lead t = some r) :
    t = w.term i ∧ r = ⟨i, w.log i, w.commit i, votes⟩ ∨ t ≠ w.term i ∧ w.lead t = some r := by
  by_cases ht : t = w.term i
  · subst ht
    rw [win_lead_self] at hr
    exact .inl ⟨rfl, (Option.some.inj hr).symm⟩
  · rw [win_lead_of_ne ht] at hr
    exact .inr ⟨ht, hr⟩

end Win

/-! ### What appending changes -/

section Append

variable {w : World ι E} {i j : ι} {e : E} {t : Nat}

theorem append_llog_self : (w.append i e).llog (w.term i) = w.log i ++ [e] := Function.update_self ..

theorem append_llog_of_ne (ht : t ≠ w.term i) : (w.append i e).llog t = w.llog t :=
  Function.update_of_ne ht ..

theorem append_log_self : (w.append i e).log i = w.log i ++ [e] := Function.update_self ..

theorem append_log_of_ne (hj : j ≠ i) : (w.append i e).log j = w.log j := Function.update_of_ne hj ..

theorem append_log_prefix (j : ι) : w.log j <+: (w.append i e).log j := by
  by_cases hj : j = i
  · subst hj
    rw [append_log_self]
    exact List.prefix_append _ _
  · rw [append_log_of_ne hj]

/-- An entry of a leader's log is the new one, or it was there before. -/
theorem append_getElem? {k : Nat} {e' : E} (hown : w.log i = w.llog (w.term i))
    (hk : ((w.append i e).llog t)[k]? = some e') :
    t = w.term i ∧ k = (w.log i).length ∧ e' = e ∨ (w.llog t)[k]? = some e' := by
  by_cases ht : t = w.term i
  · subst ht
    rw [append_llog_self] at hk
    rcases Nat.lt_trichotomy k (w.log i).length with hlt | heq | hgt
    · rw [List.getElem?_append_left hlt, hown] at hk
      exact .inr hk
    · subst heq
      rw [List.getElem?_concat_length] at hk
      exact .inl ⟨rfl, rfl, (Option.some.inj hk).symm⟩
    · rw [List.getElem?_eq_none (by rw [List.length_append, List.length_singleton]; omega)] at hk
      cases hk
  · rw [append_llog_of_ne ht] at hk
    exact .inr hk

end Append

end World

/-- One step of member `i`. -/
inductive Step (P : Params ι E V) (i : ι) (w : World ι E) : World ι E → Prop
  | bump {t : Nat} (ht : w.term i < t) : Step P i w (w.bump i t)
  | stand (h0 : 0 < w.term i) (hn : w.cand (w.term i) i = none)
      (ht : ∀ e ∈ w.log i, P.term e < w.term i) : Step P i w (w.stand i)
  | grant {c : ι} {ℓ : List E} (hv : w.vote i = none) (hc : w.cand (w.term i) c = some ℓ)
      (hu : P.UpToDate ℓ (w.log i)) : Step P i w (w.grant i c)
  | win {votes : ι → Prop} (hc : w.cand (w.term i) i = some (w.log i))
      (hn : w.lead (w.term i) = none)
      (hv : ∀ v, votes v → ∃ ℓ, w.voted (w.term i) v = some (i, ℓ))
      (hq : P.Quorum (P.view (w.log i) (w.commit i)) votes) : Step P i w (w.win i votes)
  | append {e : E} {r : Election ι E} (hr : w.lead (w.term i) = some r) (hi : r.leader = i)
      (he : P.term e = w.term i) (ho : P.Ok e) (hf : (P.cfg (w.log i)).Fits (P.change e))
      (hc : P.IsCfg e → ∀ k e', (w.log i)[k]? = some e' → P.IsCfg e' → k < w.commit i) :
      Step P i w (w.append i e)
  | adopt {k : Nat} {r : Election ι E} (hr : w.lead (w.term i) = some r)
      (hk : k ≤ (w.llog (w.term i)).length) (hn : ¬ w.upTo (w.term i) k <+: w.log i) :
      Step P i w (w.adopt i k)
  | ack {k : Nat} {r : Election ι E} (hr : w.lead (w.term i) = some r)
      (hk : k ≤ (w.llog (w.term i)).length) (hp : w.upTo (w.term i) k <+: w.log i) :
      Step P i w (w.ack i k)
  | advance {idx : Nat} {acks : ι → Prop} {r : Election ι E}
      (hr : w.lead (w.term i) = some r) (hi : r.leader = i) (hc : w.commit i < idx)
      (hl : idx ≤ (w.log i).length)
      (he : ∀ e, (w.log i)[idx - 1]? = some e → P.term e = w.term i)
      (ha : ∀ v, acks v → w.acked (w.term i) v idx)
      (hq : P.Quorum (P.view ((w.log i).take idx) (w.commit i)) acks) :
      Step P i w (w.advance i idx acks)
  | learn {c : Nat} (hb : w.Backed (w.term i) (w.log i) c) (hc : w.commit i ≤ c) :
      Step P i w (w.learn i c)

/-- A run of steps of member `i`. -/
abbrev Steps (P : Params ι E V) (i : ι) : World ι E → World ι E → Prop :=
  Relation.ReflTransGen (Step P i)

variable {P : Params ι E V} {w w' : World ι E} {i : ι}

namespace Inv

variable (h : Inv P w)
include h

theorem bump {t : Nat} (ht : w.term i < t) : Inv P (w.bump i t) := by
  have hterm : ∀ j, w.term j ≤ (w.bump i t).term j := by
    intro j
    by_cases hj : j = i
    · subst hj; simp [World.bump]; omega
    · simp [World.bump, hj]
  have hself : (w.bump i t).term i = t := by simp [World.bump]
  refine
    { cand_coh := h.cand_coh, voted_cand := h.voted_cand, lead_cand := h.lead_cand
      lead_votes := h.lead_votes, lead_quorum := h.lead_quorum, lead_log := h.lead_log
      llog_none := h.llog_none, llog_new := h.llog_new, llog_coh := h.llog_coh
      llog_ok := h.llog_ok
      llog_cfg := h.llog_cfg, acked_down := h.acked_down, voted_keep := h.voted_keep
      lead_keep := h.lead_keep, commit_rec := h.commit_rec, cand_le := ?_, vote_voted := ?_
      voted_le := ?_, lead_own := ?_, log_coh := ?_, acked_le := ?_, acked_keep := ?_
      commit_ev := ?_ }
  · intro t' j ℓ hc
    exact ⟨(h.cand_le hc).1, (h.cand_le hc).2.trans (hterm j)⟩
  · intro j c hv
    by_cases hj : j = i
    · subst hj; simp [World.bump] at hv
    · simp only [World.bump, Function.update_of_ne hj] at hv ⊢
      exact h.vote_voted hv
  · intro t' j c ℓ hv
    have hle := (h.voted_le hv).1
    refine ⟨hle.trans (hterm j), fun heq => ?_⟩
    by_cases hj : j = i
    · subst hj; rw [hself] at heq; omega
    · have : w.term j = t' := by simpa [World.bump, hj] using heq
      simpa [World.bump, hj] using (h.voted_le hv).2 this
  · intro t' r hr ht'
    have hle := (h.cand_le (h.lead_cand hr)).2
    by_cases hj : r.leader = i
    · rw [hj, hself] at ht'; subst ht'; rw [hj] at hle; omega
    · exact h.lead_own hr (by simpa [World.bump, hj] using ht')
  · intro j
    exact ⟨(h.log_coh j).1, fun e he => ((h.log_coh j).2 e he).trans (hterm j)⟩
  · intro t' v k ha
    obtain ⟨h1, h2, h3⟩ := h.acked_le ha
    exact ⟨h1.trans (hterm v), h2, h3⟩
  · intro t' v k ha
    rcases h.acked_keep ha with hp | ⟨t'', r, h1, h2, h3, h4⟩
    · exact .inl hp
    · exact .inr ⟨t'', r, h1, h2.trans (hterm v), h3, h4⟩
  · intro j
    obtain ⟨h1, h2⟩ := h.commit_ev j
    refine ⟨h1, h2.imp_right ?_⟩
    rintro ⟨k, hk, hkt, hck, heq⟩
    exact ⟨k, hk, hkt.trans (hterm j), hck, heq⟩

theorem stand (h0 : 0 < w.term i) (hn : w.cand (w.term i) i = none)
    (ht : ∀ e ∈ w.log i, P.term e < w.term i) : Inv P (w.stand i) := by
  have hnew : ∀ {t j ℓ}, (w.stand i).cand t j = some ℓ →
      t = w.term i ∧ j = i ∧ ℓ = w.log i ∨ w.cand t j = some ℓ := by
    intro t j ℓ hc
    simp only [World.stand] at hc
    split at hc
    · rename_i hh; cases hc; exact .inl ⟨hh.1, hh.2, rfl⟩
    · exact .inr hc
  have hold : ∀ {t j ℓ}, w.cand t j = some ℓ → (w.stand i).cand t j = some ℓ := by
    intro t j ℓ hc
    simp only [World.stand]
    rw [if_neg]; exact hc
    rintro ⟨rfl, rfl⟩; rw [hn] at hc; cases hc
  refine
    { vote_voted := h.vote_voted, voted_le := h.voted_le, lead_votes := h.lead_votes
      lead_quorum := h.lead_quorum, lead_log := h.lead_log, lead_own := h.lead_own
      llog_none := h.llog_none, llog_new := h.llog_new, llog_coh := h.llog_coh
      llog_ok := h.llog_ok
      llog_cfg := h.llog_cfg, log_coh := h.log_coh, acked_le := h.acked_le
      acked_down := h.acked_down, acked_keep := h.acked_keep, voted_keep := h.voted_keep
      lead_keep := h.lead_keep, commit_rec := h.commit_rec, commit_ev := h.commit_ev
      cand_le := ?_, cand_coh := ?_, voted_cand := ?_, lead_cand := ?_ }
  · intro t j ℓ hc
    rcases hnew hc with ⟨rfl, rfl, -⟩ | hc
    · exact ⟨h0, le_rfl⟩
    · exact h.cand_le hc
  · intro t j ℓ hc
    rcases hnew hc with ⟨rfl, rfl, rfl⟩ | hc
    · exact ⟨(h.log_coh j).1, ht⟩
    · exact h.cand_coh hc
  · intro t j c ℓ hv
    obtain ⟨hcoh, ℓ', hc, hu⟩ := h.voted_cand hv
    exact ⟨hcoh, ℓ', hold hc, hu⟩
  · exact fun hr => hold (h.lead_cand hr)

theorem grant {c : ι} {ℓc : List E} (hv : w.vote i = none)
    (hc : w.cand (w.term i) c = some ℓc) (hu : P.UpToDate ℓc (w.log i)) : Inv P (w.grant i c) := by
  have hfresh : w.voted (w.term i) i = none := by
    cases hx : w.voted (w.term i) i with
    | none => rfl
    | some x =>
      have := (@voted_le _ _ _ _ _ h _ _ x.1 x.2 hx).2 rfl
      rw [hv] at this; cases this
  have hnew : ∀ {t j d ℓ}, (w.grant i c).voted t j = some (d, ℓ) →
      t = w.term i ∧ j = i ∧ d = c ∧ ℓ = w.log i ∨ w.voted t j = some (d, ℓ) := by
    intro t j d ℓ hx
    simp only [World.grant] at hx
    split at hx
    · rename_i hh; cases hx; exact .inl ⟨hh.1, hh.2, rfl, rfl⟩
    · exact .inr hx
  have hold : ∀ {t j x}, w.voted t j = some x → (w.grant i c).voted t j = some x := by
    intro t j x hx
    simp only [World.grant]
    rw [if_neg]; exact hx
    rintro ⟨rfl, rfl⟩; rw [hfresh] at hx; cases hx
  refine
    { cand_le := h.cand_le, cand_coh := h.cand_coh, lead_cand := h.lead_cand
      lead_quorum := h.lead_quorum, lead_log := h.lead_log, lead_own := h.lead_own
      llog_none := h.llog_none, llog_new := h.llog_new, llog_coh := h.llog_coh
      llog_ok := h.llog_ok
      llog_cfg := h.llog_cfg, log_coh := h.log_coh, acked_le := h.acked_le
      acked_down := h.acked_down, acked_keep := h.acked_keep, commit_rec := h.commit_rec
      commit_ev := h.commit_ev
      vote_voted := ?_, voted_le := ?_, voted_cand := ?_, lead_votes := ?_, voted_keep := ?_
      lead_keep := ?_ }
  · intro j d hd
    by_cases hj : j = i
    · subst hj
      simp only [World.grant, Function.update_self] at hd ⊢
      cases hd; exact ⟨_, by simp; rfl⟩
    · simp only [World.grant, Function.update_of_ne hj] at hd
      obtain ⟨ℓ, hℓ⟩ := h.vote_voted hd
      exact ⟨ℓ, hold hℓ⟩
  · intro t j d ℓ hx
    rcases hnew hx with ⟨rfl, rfl, rfl, -⟩ | ho
    · exact ⟨le_rfl, fun _ => by simp [World.grant]⟩
    · refine ⟨(h.voted_le ho).1, fun heq => ?_⟩
      by_cases hj : j = i
      · subst hj
        change w.term j = t at heq
        rw [← heq, hfresh] at ho; cases ho
      · simpa [World.grant, hj] using (h.voted_le ho).2 heq
  · intro t j d ℓ hx
    rcases hnew hx with ⟨rfl, rfl, rfl, rfl⟩ | hx
    · exact ⟨(h.log_coh j).1, ℓc, hc, hu⟩
    · exact h.voted_cand hx
  · intro t r v hr hrv
    obtain ⟨ℓ, hℓ⟩ := h.lead_votes hr hrv
    exact ⟨ℓ, hold hℓ⟩
  · intro t v d ℓ s k hx ha hs
    rcases hnew hx with ⟨rfl, rfl, rfl, rfl⟩ | hx
    · exact h.acked_keep ha
    · exact h.voted_keep hx ha hs
  · intro t v d ℓ s k r hr hrv hx ha hs
    rcases hnew hx with ⟨rfl, rfl, rfl, rfl⟩ | hx
    · -- the votes of an election won earlier were cast earlier
      obtain ⟨ℓ, hℓ⟩ := h.lead_votes hr hrv
      rw [hfresh] at hℓ; cases hℓ
    · exact h.lead_keep hr hrv hx ha hs

/-! ### Winning -/

omit [DecidableEq ι] in
theorem ext_win {votes : ι → Prop} (hn : w.lead (w.term i) = none) : w.Ext (w.win i votes) := by
  refine ⟨id, id, fun {t r} hr => ?_, fun t => ?_, id, id⟩
  · rw [World.win_lead_of_ne (World.ne_of_lead hn hr)]
    exact hr
  · by_cases ht : t = w.term i
    · subst ht
      rw [h.llog_none hn]
      exact List.nil_prefix
    · rw [World.win_llog_of_ne ht]

omit [DecidableEq ι] in
theorem win {votes : ι → Prop} (hc : w.cand (w.term i) i = some (w.log i))
    (hn : w.lead (w.term i) = none)
    (hv : ∀ v, votes v → ∃ ℓ, w.voted (w.term i) v = some (i, ℓ))
    (hq : P.Quorum (P.view (w.log i) (w.commit i)) votes) : Inv P (w.win i votes) := by
  have hx : w.Ext (w.win i votes) := h.ext_win hn
  refine
    { cand_le := h.cand_le, vote_voted := h.vote_voted, voted_le := h.voted_le
      acked_down := h.acked_down
      cand_coh := fun hx' => ⟨(h.cand_coh hx').1.ext hx, (h.cand_coh hx').2⟩
      voted_cand := fun hx' => ⟨(h.voted_cand hx').1.ext hx, (h.voted_cand hx').2⟩
      log_coh := fun j => ⟨(h.log_coh j).1.ext hx, (h.log_coh j).2⟩
      acked_le := h.acked_le_ext hx
      acked_keep := fun ha => h.keep_ext hx ha List.prefix_rfl (h.acked_keep ha)
      voted_keep := fun hv ha hs => h.keep_ext hx ha List.prefix_rfl (h.voted_keep hv ha hs)
      commit_rec := h.commit_rec_ext hx
      commit_ev := fun j => h.backed_ext hx (h.commit_ev j)
      lead_cand := ?lead_cand, lead_votes := ?lead_votes, lead_quorum := ?lead_quorum
      lead_log := ?lead_log, lead_own := ?lead_own, llog_none := ?llog_none, llog_new := ?llog_new
      llog_coh := ?llog_coh, llog_ok := ?llog_ok, llog_cfg := ?llog_cfg, lead_keep := ?lead_keep }
  case lead_cand =>
    intro t r hr
    rcases World.win_lead hr with ⟨rfl, rfl⟩ | ⟨-, hr⟩
    · exact hc
    · exact h.lead_cand hr
  case lead_votes =>
    intro t r v hr hrv
    rcases World.win_lead hr with ⟨rfl, rfl⟩ | ⟨-, hr⟩
    · exact hv v hrv
    · exact h.lead_votes hr hrv
  case lead_quorum =>
    intro t r hr
    rcases World.win_lead hr with ⟨rfl, rfl⟩ | ⟨-, hr⟩
    · exact hq
    · exact h.lead_quorum hr
  case lead_log =>
    intro t r hr
    rcases World.win_lead hr with ⟨rfl, rfl⟩ | ⟨ht, hr⟩
    · rw [World.win_llog_self]
    · exact (h.lead_log hr).trans (hx.llog t)
  case lead_own =>
    intro t r hr heq
    rcases World.win_lead hr with ⟨rfl, rfl⟩ | ⟨ht, hr⟩
    · rw [World.win_llog_self]
      rfl
    · rw [World.win_llog_of_ne ht]
      exact h.lead_own hr heq
  case llog_none =>
    intro t hl
    have ht : t ≠ w.term i := by
      rintro rfl
      rw [World.win_lead_self] at hl
      cases hl
    rw [World.win_llog_of_ne ht]
    rw [World.win_lead_of_ne ht] at hl
    exact h.llog_none hl
  case llog_new =>
    intro t r k e hr hk he
    rcases World.win_lead hr with ⟨rfl, rfl⟩ | ⟨ht, hr⟩
    · rw [World.win_llog_self] at he
      exact absurd (getElem?_lt he) (Nat.not_lt.mpr hk)
    · rw [World.win_llog_of_ne ht] at he
      exact h.llog_new hr hk he
  case llog_coh =>
    intro t
    by_cases ht : t = w.term i
    · subst ht
      rw [World.win_llog_self]
      exact (h.log_coh i).1.ext hx
    · rw [World.win_llog_of_ne ht]
      exact (h.llog_coh t).ext hx
  case llog_ok =>
    intro t e he
    by_cases ht : t = w.term i
    · subst ht
      rw [World.win_llog_self] at he
      exact h.ok (h.log_coh i).1 he
    · rw [World.win_llog_of_ne ht] at he
      exact h.llog_ok he
  case llog_cfg =>
    intro t k e hk he
    by_cases ht : t = w.term i
    · -- the log a leader is elected with has no entry of its term
      subst ht
      rw [World.win_llog_self] at hk
      have := (h.cand_coh hc).2 e (List.mem_of_getElem? hk)
      omega
    · rw [World.win_llog_of_ne ht] at hk
      exact h.llog_cfg_ext hx hk he
  case lead_keep =>
    intro t v c ℓ s k r hr hrv hvoted ha hs
    refine h.keep_ext (B := fun t' => t' < t) hx ha List.prefix_rfl ?_
    rcases World.win_lead hr with ⟨rfl, rfl⟩ | ⟨ht, hr⟩
    · -- no leader of this term existed when the votes were cast
      refine (h.voted_keep hvoted ha hs).imp_right ?_
      rintro ⟨t', r', hst, ht', hr', hlost⟩
      exact ⟨t', r', hst, lt_of_le_of_ne ht' (World.ne_of_lead hn hr'), hr', hlost⟩
    · exact h.lead_keep hr hrv hvoted ha hs

/-! ### Appending -/

omit [DecidableEq ι] in
theorem own {r : Election ι E} (hr : w.lead (w.term i) = some r) (hi : r.leader = i) :
    w.log i = w.llog (w.term i) := by
  subst hi
  exact h.lead_own hr rfl

theorem ext_append {e : E} {r : Election ι E} (hr : w.lead (w.term i) = some r) (hi : r.leader = i) :
    w.Ext (w.append i e) := by
  refine ⟨id, id, id, fun t => ?_, id, id⟩
  by_cases ht : t = w.term i
  · subst ht
    rw [World.append_llog_self, ← h.own hr hi]
    exact List.prefix_append _ _
  · rw [World.append_llog_of_ne ht]

/-- The log with the new entry is coherent. -/
theorem coh_append {e : E} {r : Election ι E} (hr : w.lead (w.term i) = some r) (hi : r.leader = i)
    (he : P.term e = w.term i) : Coh P (w.append i e) (w.log i ++ [e]) := by
  have hown := h.own hr hi
  intro k e' hk
  rw [← World.append_llog_self] at hk
  rcases World.append_getElem? hown hk with ⟨-, rfl, rfl⟩ | hk'
  · rw [he, World.append_llog_self, List.take_of_length_le (by simp)]
  · have hlt := getElem?_lt hk'
    rw [List.take_append_of_le_length (by rw [hown]; omega), hown]
    exact (h.llog_coh _ k e' hk').trans ((h.ext_append hr hi).llog _)

/-- A change comes after every earlier one is committed: the commit index of the leader covers
them. -/
theorem append_cfg {e : E} {r : Election ι E} (hr : w.lead (w.term i) = some r) (hi : r.leader = i)
    {j : Nat} (hj : j < w.commit i) :
    ∃ c, w.commits c ∧ c.term ≤ w.term i ∧ j < c.idx ∧ c.idx ≤ (w.log i).length ∧
      (w.append i e).upTo c.term c.idx <+: w.log i ++ [e] := by
  obtain ⟨-, h0 | ⟨c, hc, hct, hle, -⟩⟩ := h.commit_ev i
  · omega
  have hpre := h.completeness_llog hr hc hct
  rw [← h.own hr hi] at hpre
  refine ⟨c, hc, hct, hj.trans_le hle, ?_, ?_⟩
  · rw [← h.upTo_length hc]
    exact hpre.length_le
  · rw [(h.ext_append hr hi).upTo_eq (h.commit_rec hc).2.1]
    exact hpre.trans (List.prefix_append _ _)

theorem append {e : E} {r : Election ι E} (hr : w.lead (w.term i) = some r) (hi : r.leader = i)
    (he : P.term e = w.term i) (ho : P.Ok e) (hf : (P.cfg (w.log i)).Fits (P.change e))
    (hc : P.IsCfg e → ∀ k e', (w.log i)[k]? = some e' → P.IsCfg e' → k < w.commit i) :
    Inv P (w.append i e) := by
  have hown := h.own hr hi
  have hx : w.Ext (w.append i e) := h.ext_append hr hi
  have hcoh : Coh P (w.append i e) (w.log i ++ [e]) := h.coh_append hr hi he
  refine
    { cand_le := h.cand_le, vote_voted := h.vote_voted, voted_le := h.voted_le
      lead_cand := h.lead_cand, lead_votes := h.lead_votes, lead_quorum := h.lead_quorum
      acked_down := h.acked_down
      cand_coh := fun hx' => ⟨(h.cand_coh hx').1.ext hx, (h.cand_coh hx').2⟩
      voted_cand := fun hx' => ⟨(h.voted_cand hx').1.ext hx, (h.voted_cand hx').2⟩
      lead_log := fun hr' => (h.lead_log hr').trans (hx.llog _)
      acked_le := h.acked_le_ext hx
      acked_keep := fun ha => h.keep_ext hx ha (World.append_log_prefix _) (h.acked_keep ha)
      voted_keep := fun hv ha hs => h.keep_ext hx ha List.prefix_rfl (h.voted_keep hv ha hs)
      lead_keep := fun {t _ _ _ _ _ _} hr' hrv hv ha hs =>
        h.keep_ext (B := fun t' => t' < t) hx ha List.prefix_rfl (h.lead_keep hr' hrv hv ha hs)
      commit_rec := h.commit_rec_ext hx
      lead_own := ?lead_own, llog_none := ?llog_none, llog_new := ?llog_new, llog_coh := ?llog_coh
      llog_ok := ?llog_ok, llog_cfg := ?llog_cfg, log_coh := ?log_coh, commit_ev := ?commit_ev }
  case lead_own =>
    intro t r' hr' ht
    change w.term r'.leader = t at ht
    by_cases hj : r'.leader = i
    · rw [hj] at ht ⊢
      rw [← ht, World.append_log_self, World.append_llog_self]
    · by_cases hti : t = w.term i
      · subst hti
        cases hr.symm.trans hr'
        exact absurd hi hj
      · rw [World.append_log_of_ne hj, World.append_llog_of_ne hti]
        exact h.lead_own hr' ht
  case llog_none =>
    intro t hl
    have ht : t ≠ w.term i := by
      rintro rfl
      cases hr.symm.trans hl
    rw [World.append_llog_of_ne ht]
    exact h.llog_none hl
  case llog_new =>
    intro t r' k e' hr' hk hke
    rcases World.append_getElem? hown hke with ⟨rfl, -, rfl⟩ | hke
    · exact he
    · exact h.llog_new hr' hk hke
  case llog_coh =>
    intro t
    by_cases ht : t = w.term i
    · subst ht
      rw [World.append_llog_self]
      exact hcoh
    · rw [World.append_llog_of_ne ht]
      exact (h.llog_coh t).ext hx
  case llog_ok =>
    intro t e' he'
    obtain ⟨k, hk⟩ := List.mem_iff_getElem?.mp he'
    rcases World.append_getElem? hown hk with ⟨-, -, rfl⟩ | hk
    · exact ho
    · exact h.llog_ok (List.mem_of_getElem? hk)
  case llog_cfg =>
    intro t k e' hk hte
    rcases World.append_getElem? hown hk with ⟨rfl, rfl, rfl⟩ | hk'
    · rw [World.upTo, World.append_llog_self, List.take_left]
      refine ⟨hf, fun hcfg j e'' hj hje hce => ?_⟩
      rw [List.getElem?_append_left hj] at hje
      exact h.append_cfg hr hi (hc hcfg j e'' hje hce)
    · exact h.llog_cfg_ext hx hk' hte
  case log_coh =>
    intro j
    by_cases hj : j = i
    · subst hj
      rw [World.append_log_self]
      refine ⟨hcoh, fun e' he' => ?_⟩
      rcases List.mem_append.mp he' with he' | he'
      · exact (h.log_coh j).2 e' he'
      · rw [List.mem_singleton.mp he']
        exact he.le
    · rw [World.append_log_of_ne hj]
      exact ⟨(h.log_coh j).1.ext hx, (h.log_coh j).2⟩
  case commit_ev =>
    intro j
    have hb := h.backed_ext hx (h.commit_ev j)
    exact hb.mono le_rfl ((List.take_prefix _ _).trans (World.append_log_prefix j)) le_rfl

/-! ### Following -/

theorem adopt {k : Nat} {r : Election ι E} (hr : w.lead (w.term i) = some r)
    (hk : k ≤ (w.llog (w.term i)).length) (hn : ¬ w.upTo (w.term i) k <+: w.log i) :
    Inv P (w.adopt i k) := by
  have hlogi : (w.adopt i k).log i = w.upTo (w.term i) k := by simp [World.adopt]
  have hlogj : ∀ {j}, j ≠ i → (w.adopt i k).log j = w.log j := by
    intro j hj; simp [World.adopt, hj]
  -- a prefix of the leader's log that the member holds is shorter than what it adopts
  have hshort : ∀ {ℓ : List E}, ℓ <+: w.llog (w.term i) → ℓ <+: w.log i →
      ℓ <+: w.upTo (w.term i) k := by
    intro ℓ hl hl'
    by_cases hle : ℓ.length ≤ (w.upTo (w.term i) k).length
    · exact prefix_of_le hl (List.take_prefix _ _) hle
    · exact absurd ((prefix_of_le (List.take_prefix _ _) hl (Nat.le_of_not_le hle)).trans hl') hn
  have hcohup : Coh P w (w.upTo (w.term i) k) := (h.llog_coh _).of_isPrefix (List.take_prefix _ _)
  refine
    { cand_le := h.cand_le, cand_coh := h.cand_coh, vote_voted := h.vote_voted
      voted_le := h.voted_le, voted_cand := h.voted_cand, lead_cand := h.lead_cand
      lead_votes := h.lead_votes, lead_quorum := h.lead_quorum, lead_log := h.lead_log
      llog_none := h.llog_none, llog_new := h.llog_new, llog_coh := h.llog_coh
      llog_ok := h.llog_ok
      llog_cfg := h.llog_cfg, acked_le := h.acked_le, acked_down := h.acked_down
      voted_keep := h.voted_keep, lead_keep := h.lead_keep, commit_rec := h.commit_rec
      lead_own := ?_, log_coh := ?_, acked_keep := ?_, commit_ev := ?_ }
  · intro t r' hr' ht
    change w.term r'.leader = t at ht
    by_cases hj : r'.leader = i
    · exfalso
      have := h.lead_own hr' ht
      rw [hj] at this ht; subst ht
      rw [this] at hn; exact hn (List.take_prefix _ _)
    · rw [hlogj hj]; exact h.lead_own hr' ht
  · intro j
    by_cases hj : j = i
    · subst hj
      rw [hlogi]
      refine ⟨hcohup, fun e he => ?_⟩
      obtain ⟨m, hm⟩ := List.getElem?_of_mem (List.mem_of_mem_take he)
      exact h.llog_term_le hm
    · rw [hlogj hj]; exact h.log_coh j
  · intro t v m ha
    by_cases hv : v = i
    · subst hv
      rw [hlogi]
      rcases h.acked_keep ha with hp | hlost
      · obtain ⟨hle, -, -⟩ := h.acked_le ha
        by_cases hin : w.upTo t m <+: w.llog (w.term v)
        · exact .inl (hshort hin hp)
        · -- the current leader was elected without the prefix
          rcases Nat.lt_or_ge t (w.term v) with hlt | hge
          · exact .inr ⟨w.term v, r, hlt, le_rfl, hr, fun hq => hin (hq.trans (h.lead_log hr))⟩
          · have : t = w.term v := by omega
            subst this; exact absurd (List.take_prefix _ _) hin
      · exact .inr hlost
    · rw [hlogj hv]; exact h.acked_keep ha
  · intro j
    by_cases hj : j = i
    · subst hj
      have hb := h.commit_ev j
      have hpre := h.backed_llog hb hr le_rfl
      have hp := hshort hpre (List.take_prefix _ _)
      change w.Backed (w.term j) ((w.adopt j k).log j) (w.commit j)
      rw [hlogi]
      have hlen : ((w.log j).take (w.commit j)).length = w.commit j := by
        rw [List.length_take, Nat.min_eq_left hb.1]
      have htake := eq_take_of_isPrefix hp
      rw [hlen] at htake
      refine ⟨by rw [← hlen]; exact hp.length_le, hb.2.imp_right ?_⟩
      rintro ⟨c, hcc, hct, hle, heq⟩
      exact ⟨c, hcc, hct, hle, by rw [← htake, heq]⟩
    · change w.Backed (w.term j) ((w.adopt i k).log j) (w.commit j)
      rw [hlogj hj]; exact h.commit_ev j

omit [DecidableEq ι] in
theorem ack {k : Nat} {r : Election ι E} (hr : w.lead (w.term i) = some r)
    (hk : k ≤ (w.llog (w.term i)).length) (hp : w.upTo (w.term i) k <+: w.log i) :
    Inv P (w.ack i k) := by
  refine
    { cand_le := h.cand_le, cand_coh := h.cand_coh, vote_voted := h.vote_voted
      voted_le := h.voted_le, voted_cand := h.voted_cand, lead_cand := h.lead_cand
      lead_votes := h.lead_votes, lead_quorum := h.lead_quorum, lead_log := h.lead_log
      lead_own := h.lead_own, llog_none := h.llog_none, llog_new := h.llog_new
      llog_coh := h.llog_coh, llog_ok := h.llog_ok, llog_cfg := h.llog_cfg, log_coh := h.log_coh
      commit_ev := h.commit_ev
      acked_le := ?_, acked_down := ?_, acked_keep := ?_, voted_keep := ?_, lead_keep := ?_
      commit_rec := ?_ }
  · rintro t v j (ha | ⟨rfl, rfl, hj⟩)
    · exact h.acked_le ha
    · exact ⟨le_rfl, hj.trans hk, r, hr⟩
  · rintro t v j j' (ha | ⟨rfl, rfl, hj⟩) hjj
    · exact .inl (h.acked_down ha hjj)
    · exact .inr ⟨rfl, rfl, hjj.trans hj⟩
  · rintro t v j (ha | ⟨rfl, rfl, hj⟩)
    · exact h.acked_keep ha
    · exact .inl ((take_prefix_take hj).trans hp)
  · rintro t v c ℓ s j hv (ha | ⟨rfl, rfl, hj⟩) hs
    · exact h.voted_keep hv ha hs
    · have := (h.voted_le hv).1; change w.term v < t at hs; omega
  · rintro t v c ℓ s j r' hr' hrv hv (ha | ⟨rfl, rfl, hj⟩) hs
    · exact h.lead_keep hr' hrv hv ha hs
    · have := (h.voted_le hv).1; change w.term v < t at hs; omega
  · intro c hcc
    obtain ⟨h1, h2, h3, h4, h5⟩ := h.commit_rec hcc
    exact ⟨h1, h2, h3, h4, fun v hv => .inl (h5 v hv)⟩

theorem advance {idx : Nat} {acks : ι → Prop} {r : Election ι E}
    (hr : w.lead (w.term i) = some r) (hi : r.leader = i) (hc : w.commit i < idx)
    (hl : idx ≤ (w.log i).length)
    (he : ∀ e, (w.log i)[idx - 1]? = some e → P.term e = w.term i)
    (ha : ∀ v, acks v → w.acked (w.term i) v idx)
    (hq : P.Quorum (P.view ((w.log i).take idx) (w.commit i)) acks) :
    Inv P (w.advance i idx acks) := by
  have hown := h.own hr hi
  refine
    { cand_le := h.cand_le, cand_coh := h.cand_coh, vote_voted := h.vote_voted
      voted_le := h.voted_le, voted_cand := h.voted_cand, lead_cand := h.lead_cand
      lead_votes := h.lead_votes, lead_quorum := h.lead_quorum, lead_log := h.lead_log
      lead_own := h.lead_own, llog_none := h.llog_none, llog_new := h.llog_new
      llog_coh := h.llog_coh, llog_ok := h.llog_ok, log_coh := h.log_coh, acked_le := h.acked_le
      acked_down := h.acked_down, acked_keep := h.acked_keep, voted_keep := h.voted_keep
      lead_keep := h.lead_keep, llog_cfg := ?_, commit_rec := ?_, commit_ev := ?_ }
  · intro t k e hk hte
    obtain ⟨hf, hcm⟩ := h.llog_cfg hk hte
    refine ⟨hf, fun hcfg j e' hj hje hce => ?_⟩
    obtain ⟨c, hcc, hh⟩ := hcm hcfg j e' hj hje hce
    exact ⟨c, .inl hcc, hh⟩
  · rintro c (hcc | rfl)
    · exact h.commit_rec hcc
    · rw [hown] at hl he hq
      exact ⟨by simp only; omega, hl, he, hq, ha⟩
  · intro j
    by_cases hj : j = i
    · subst hj
      refine ⟨by simpa [World.advance] using hl, .inr ⟨_, .inr rfl, le_rfl, ?_, ?_⟩⟩
      · simp [World.advance]
      · simp [World.advance, World.upTo, hown]
    · obtain ⟨h1, h2⟩ := h.commit_ev j
      have hcj : (w.advance i idx acks).commit j = w.commit j := by simp [World.advance, hj]
      rw [hcj]
      refine ⟨h1, h2.imp_right ?_⟩
      rintro ⟨c, hcc, hh⟩
      exact ⟨c, .inl hcc, hh⟩

theorem learn {c : Nat} (hb : w.Backed (w.term i) (w.log i) c) : Inv P (w.learn i c) := by
  refine
    { cand_le := h.cand_le, cand_coh := h.cand_coh, vote_voted := h.vote_voted
      voted_le := h.voted_le, voted_cand := h.voted_cand, lead_cand := h.lead_cand
      lead_votes := h.lead_votes, lead_quorum := h.lead_quorum, lead_log := h.lead_log
      lead_own := h.lead_own, llog_none := h.llog_none, llog_new := h.llog_new
      llog_coh := h.llog_coh, llog_ok := h.llog_ok, log_coh := h.log_coh, acked_le := h.acked_le
      acked_down := h.acked_down, acked_keep := h.acked_keep, voted_keep := h.voted_keep
      lead_keep := h.lead_keep, llog_cfg := h.llog_cfg, commit_rec := h.commit_rec
      commit_ev := ?_ }
  intro j
  by_cases hj : j = i
  · subst hj
    rw [show (w.learn j c).commit j = c by simp [World.learn]]; exact hb
  · have hcj : (w.learn i c).commit j = w.commit j := by simp [World.learn, hj]
    rw [hcj]; exact h.commit_ev j

theorem step (hs : Step P i w w') : Inv P w' := by
  cases hs with
  | bump ht => exact h.bump ht
  | stand h0 hn ht => exact h.stand h0 hn ht
  | grant hv hc hu => exact h.grant hv hc hu
  | win hc hn hv hq => exact h.win hc hn hv hq
  | append hr hi he ho hf hc => exact h.append hr hi he ho hf hc
  | adopt hr hk hn => exact h.adopt hr hk hn
  | ack hr hk hp => exact h.ack hr hk hp
  | advance hr hi hc hl he ha hq => exact h.advance hr hi hc hl he ha hq
  | learn hb hc => exact h.learn hb

theorem steps (hs : Steps P i w w') : Inv P w' := by
  induction hs with
  | refl => exact h
  | tail _ hs ih => exact ih.step hs

/-- The record only grows. -/
theorem ext_step (hs : Step P i w w') : w.Ext w' := by
  cases hs with
  | bump ht => exact ⟨id, id, id, fun _ => List.prefix_rfl, id, id⟩
  | stand h0 hn ht =>
    refine ⟨fun {t j ℓ} hc => ?_, id, id, fun _ => List.prefix_rfl, id, id⟩
    simp only [World.stand]
    rw [if_neg]; exact hc
    rintro ⟨rfl, rfl⟩; rw [hn] at hc; cases hc
  | grant hv hc hu =>
    refine ⟨id, fun {t j x} hx => ?_, id, fun _ => List.prefix_rfl, id, id⟩
    simp only [World.grant]
    rw [if_neg]; exact hx
    rintro ⟨rfl, rfl⟩
    have := (@voted_le _ _ _ _ _ h _ _ x.1 x.2 hx).2 rfl
    rw [hv] at this; cases this
  | win hc hn hv hq => exact h.ext_win hn
  | append hr hi he ho hf hc => exact h.ext_append hr hi
  | adopt hr hk hn => exact ⟨id, id, id, fun _ => List.prefix_rfl, id, id⟩
  | ack hr hk hp => exact ⟨id, id, id, fun _ => List.prefix_rfl, .inl, id⟩
  | advance hr hi hc hl he ha hq => exact ⟨id, id, id, fun _ => List.prefix_rfl, id, .inl⟩
  | learn hb hc => exact ⟨id, id, id, fun _ => List.prefix_rfl, id, id⟩

theorem ext_steps (hs : Steps P i w w') : w.Ext w' := by
  induction hs with
  | refl => exact World.Ext.refl w
  | tail h' hs ih => exact ih.trans ((h.steps h').ext_step hs)

end Inv

/-- A step of `i` leaves the state of every other member. -/
theorem Step.frame (hs : Step P i w w') {j : ι} (hj : j ≠ i) :
    w'.term j = w.term j ∧ w'.vote j = w.vote j ∧ w'.log j = w.log j ∧ w'.commit j = w.commit j := by
  cases hs <;>
    simp [World.bump, World.stand, World.grant, World.win, World.append, World.adopt, World.ack,
      World.advance, World.learn, hj]

theorem Steps.frame (hs : Steps P i w w') {j : ι} (hj : j ≠ i) :
    w'.term j = w.term j ∧ w'.vote j = w.vote j ∧ w'.log j = w.log j ∧ w'.commit j = w.commit j := by
  induction hs with
  | refl => exact ⟨rfl, rfl, rfl, rfl⟩
  | tail _ hs ih =>
    obtain ⟨h1, h2, h3, h4⟩ := hs.frame hj
    exact ⟨h1.trans ih.1, h2.trans ih.2.1, h3.trans ih.2.2.1, h4.trans ih.2.2.2⟩

/-- An election that a step of `i` adds was won by `i`. -/
theorem Step.lead_new (hs : Step P i w w') {t : Nat} {r : Election ι E}
    (hr : w'.lead t = some r) : w.lead t = some r ∨ r.leader = i := by
  cases hs with
  | @win votes hc hn hv hq =>
    rcases World.win_lead hr with ⟨-, rfl⟩ | ⟨-, hr⟩
    · exact .inr rfl
    · exact .inl hr
  | _ => exact .inl hr

theorem Steps.lead_new (hs : Steps P i w w') {t : Nat} {r : Election ι E}
    (hr : w'.lead t = some r) : w.lead t = some r ∨ r.leader = i := by
  induction hs with
  | refl => exact .inl hr
  | tail _ hs ih =>
    rcases hs.lead_new hr with hr | hr
    · exact ih hr
    · exact .inr hr

/-- Nothing has happened yet. -/
def World.start : World ι E where
  term _ := 0
  vote _ := none
  log _ := []
  commit _ := 0
  cand _ _ := none
  voted _ _ := none
  lead _ := none
  llog _ := []
  acked _ _ _ := False
  commits _ := False

omit [DecidableEq ι] in
theorem Inv.start : Inv P (World.start : World ι E) := by
  constructor <;> simp [World.start, Coh, World.Backed]

end Consensus
