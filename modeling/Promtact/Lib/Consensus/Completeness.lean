import Promtact.Lib.Consensus.World
import Mathlib.Order.Interval.Set.Defs
import Mathlib.Data.Nat.Find

/-!
# What a committed prefix implies

Consequences of `Inv`, for one world at a time.

* `completeness`: the log with which a leader was elected starts with every prefix that was
  committed in an earlier term.
* `election_safety`: a member that holds the votes of a quorum of its own view in a term that has
  a leader is that leader.
* `commit_prefix`: of two commits, the earlier one's prefix is a prefix of the later one's.

Both quorum arguments take place on two logs that may disagree and whose owners may know
different commits. Let `j` be the largest index of the commits that come before: both logs agree
up to `j`, and neither has two changes from `j` on, because the second one would have been made
after a commit above `j`. Then `Params.side_view` gives a voter set that both quorums have a
majority of.
-/

namespace Consensus

variable {ι E V : Type} {P : Params ι E V} {w : World ι E}

/-- Two quorums, each counted in the view of its own log, meet if the logs agree up to `j` and
have at most one change each from there on. -/
theorem views_meet {ℓ₁ ℓ₂ : List E} (h₁ : P.Shaped ℓ₁) (h₂ : P.Shaped ℓ₂) {j c₁ c₂ : Nat}
    (hj : ℓ₁.take j = ℓ₂.take j)
    (ho₁ : ∀ k₁ k₂ e₁ e₂, j ≤ k₁ → k₁ < k₂ → ℓ₁[k₁]? = some e₁ → ℓ₁[k₂]? = some e₂ →
      P.IsCfg e₁ → ¬ P.IsCfg e₂)
    (ho₂ : ∀ k₁ k₂ e₁ e₂, j ≤ k₁ → k₁ < k₂ → ℓ₂[k₁]? = some e₁ → ℓ₂[k₂]? = some e₂ →
      P.IsCfg e₁ → ¬ P.IsCfg e₂)
    {A B : ι → Prop} (hA : P.Quorum (P.view ℓ₁ c₁) A) (hB : P.Quorum (P.view ℓ₂ c₂) B) :
    ∃ i, A i ∧ B i := by
  have s₁ := Params.side_view h₁ ho₁ c₁
  have s₂ := Params.side_view h₂ ho₂ c₂
  rw [← hj] at s₂
  exact Params.quorum_inter hA hB s₁ s₂

/-- A bounded set of numbers is empty or has a greatest element. -/
theorem exists_greatest (S : Nat → Prop) {b : Nat} (hb : ∀ n, S n → n ≤ b) :
    ∃ j, (j = 0 ∨ S j) ∧ ∀ n, S n → n ≤ j := by
  classical
  refine ⟨Nat.findGreatest S b, ?_, fun n hn => Nat.le_findGreatest (hb n hn) hn⟩
  by_cases h0 : Nat.findGreatest S b = 0
  · exact .inl h0
  · exact .inr (Nat.findGreatest_of_ne_zero rfl h0)

theorem lastTerm_eq {ℓ : List E} {e : E} (h : ℓ[ℓ.length - 1]? = some e) :
    P.lastTerm ℓ = P.term e := by
  rw [Params.lastTerm, List.getLast?_eq_getElem?, h]; rfl

/-- The last term of the first `k + 1` entries. -/
theorem lastTerm_take {ℓ : List E} {k : Nat} {e : E} (h : ℓ[k]? = some e) :
    P.lastTerm (ℓ.take (k + 1)) = P.term e := by
  have hlt := getElem?_lt h
  refine lastTerm_eq ?_
  rw [List.length_take, Nat.min_eq_left (by omega), Nat.add_sub_cancel,
    List.getElem?_take_of_lt (by omega)]
  exact h

/-- Coherent logs with the same last term at one length agree up to it. -/
theorem Coh.take_eq_of_lastTerm {ℓ ℓ' : List E} (h : Coh P w ℓ) (h' : Coh P w ℓ') {k : Nat}
    (hk : k ≤ ℓ.length) (hk' : k ≤ ℓ'.length)
    (ht : P.lastTerm (ℓ.take k) = P.lastTerm (ℓ'.take k)) : ℓ.take k = ℓ'.take k := by
  cases k with
  | zero => simp
  | succ k =>
    have e₁ := List.getElem?_eq_getElem (show k < ℓ.length by omega)
    have e₂ := List.getElem?_eq_getElem (show k < ℓ'.length by omega)
    rw [lastTerm_take e₁, lastTerm_take e₂] at ht
    exact h.take_eq h' e₁ e₂ ht

theorem lastTerm_nil : P.lastTerm ([] : List E) = 0 := rfl

theorem lastTerm_take_le {ℓ : List E} {t : Nat} (h : ∀ e ∈ ℓ, P.term e ≤ t) {k : Nat}
    (hk : k ≤ ℓ.length) : P.lastTerm (ℓ.take k) ≤ t := by
  cases k with
  | zero => exact Nat.zero_le t
  | succ k =>
    have hget := List.getElem?_eq_getElem (show k < ℓ.length by omega)
    rw [lastTerm_take hget]
    exact h _ (List.mem_of_getElem? hget)

namespace Inv

variable (h : Inv P w)
include h

/-- The last terms of longer prefixes do not fall. -/
theorem lastTerm_take_mono {ℓ : List E} (hc : Coh P w ℓ) {j k : Nat} (hjk : j ≤ k)
    (hk : k ≤ ℓ.length) : P.lastTerm (ℓ.take j) ≤ P.lastTerm (ℓ.take k) := by
  cases j with
  | zero => exact Nat.zero_le _
  | succ j =>
    obtain ⟨k, rfl⟩ : ∃ k', k = k' + 1 := ⟨k - 1, by omega⟩
    have hj := List.getElem?_eq_getElem (show j < ℓ.length by omega)
    have hk := List.getElem?_eq_getElem (show k < ℓ.length by omega)
    rw [lastTerm_take hj, lastTerm_take hk]
    exact h.term_mono hc (by omega) hj hk

/-- The log of a leader is longer than a committed prefix that it was elected with. -/
theorem commit_lt {c d : Commit ι} (hd : w.commits d) {r : Election ι E}
    (hr : w.lead d.term = some r) (hc : c.idx ≤ (w.llog c.term).length)
    (hp : w.upTo c.term c.idx <+: r.log) : c.idx < d.idx := by
  obtain ⟨hpos, hle, ht, -⟩ := h.commit_rec hd
  by_contra hge
  have hlen := hp.length_le
  rw [World.upTo, List.length_take, Nat.min_eq_left hc] at hlen
  have hlt : d.idx - 1 < r.log.length := by omega
  have hget : r.log[d.idx - 1]? = some r.log[d.idx - 1] := List.getElem?_eq_getElem hlt
  have heq := ht _ (getElem?_of_isPrefix (h.lead_log hr) hget)
  have := (h.cand_coh (h.lead_cand hr)).2 _ (List.mem_of_getElem? hget)
  omega

theorem commit_lead {c : Commit ι} (hc : w.commits c) : ∃ r, w.lead c.term = some r := by
  obtain ⟨hpos, hle, -⟩ := h.commit_rec hc
  cases hl : w.lead c.term with
  | some r => exact ⟨r, rfl⟩
  | none => rw [h.llog_none hl] at hle; simp at hle; omega

theorem upTo_length {c : Commit ι} (hc : w.commits c) : (w.upTo c.term c.idx).length = c.idx := by
  rw [World.upTo, List.length_take, Nat.min_eq_left (h.commit_rec hc).2.1]

/-- An up-to-date log carries a prefix on from a voter, if every leader since carries it. -/
theorem prefix_of_upToDate {c : Commit ι} (hc : w.commits c) {ℓ ℓv : List E} {t : Nat}
    (hℓ : Coh P w ℓ) (hlt : ∀ e ∈ ℓ, P.term e < t) (hℓv : Coh P w ℓv)
    (hp : w.upTo c.term c.idx <+: ℓv) (hu : P.UpToDate ℓ ℓv)
    (hIH : ∀ t' r, c.term < t' → t' < t → w.lead t' = some r → w.upTo c.term c.idx <+: r.log) :
    w.upTo c.term c.idx <+: ℓ := by
  obtain ⟨hpos, hle, ht, -⟩ := h.commit_rec hc
  have hlen := h.upTo_length hc
  have hvl : c.idx ≤ ℓv.length := by rw [← hlen]; exact hp.length_le
  -- the voter's last term is at least the term of the commit
  obtain ⟨ev, hev⟩ : ∃ ev, ℓv[ℓv.length - 1]? = some ev :=
    ⟨_, List.getElem?_eq_getElem (show ℓv.length - 1 < ℓv.length by omega)⟩
  obtain ⟨ec, hec⟩ : ∃ ec, (w.llog c.term)[c.idx - 1]? = some ec :=
    ⟨_, List.getElem?_eq_getElem (show c.idx - 1 < (w.llog c.term).length by omega)⟩
  have hecv : ℓv[c.idx - 1]? = some ec := by
    refine getElem?_of_isPrefix hp ?_
    rw [World.upTo, List.getElem?_take_of_lt (by omega)]; exact hec
  have htv : c.term ≤ P.term ev := by
    rw [← ht ec hec]; exact h.term_mono hℓv (by omega) hecv hev
  have hlast : P.term ev ≤ P.lastTerm ℓ := by
    rw [← lastTerm_eq hev]; rcases hu with hu | hu <;> omega
  have hevpos := h.term_pos hℓv hev
  have hne : 0 < ℓ.length := by
    rcases Nat.eq_zero_or_pos ℓ.length with h0 | h0
    · rw [List.length_eq_zero_iff.mp h0, lastTerm_nil] at hlast; omega
    · exact h0
  obtain ⟨e, he⟩ : ∃ e, ℓ[ℓ.length - 1]? = some e :=
    ⟨_, List.getElem?_eq_getElem (show ℓ.length - 1 < ℓ.length by omega)⟩
  have hpre : ℓ <+: w.llog (P.term e) := by
    have := hℓ _ _ he
    rwa [show ℓ.length - 1 + 1 = ℓ.length by omega, List.take_length] at this
  rw [lastTerm_eq he] at hlast
  rcases Nat.lt_or_ge c.term (P.term e) with hgt | hge
  · -- the last entry of `ℓ` was made by a later leader, after the log it was elected with
    obtain ⟨r, hr⟩ := h.exists_lead hℓ he
    have hpr := hIH _ r hgt (hlt e (List.mem_of_getElem? he)) hr
    refine prefix_of_le (hpr.trans (h.lead_log hr)) hpre ?_
    have hrl : r.log.length < ℓ.length := by
      by_contra hcon
      have hk : r.log[ℓ.length - 1]? = some e := by
        rw [getElem?_prefix_eq (h.lead_log hr) (by omega)]; exact getElem?_of_isPrefix hpre he
      have := (h.cand_coh (h.lead_cand hr)).2 e (List.mem_of_getElem? hk)
      omega
    have := hpr.length_le
    omega
  · -- both last entries have the term of the commit, so the length decides
    have heq : P.term e = c.term := by omega
    have hlv : ℓv.length ≤ ℓ.length := by
      rcases hu with hu | hu
      · rw [lastTerm_eq hev, lastTerm_eq he] at hu; omega
      · exact hu.2
    rw [heq] at hpre
    exact prefix_of_le (List.take_prefix _ _) hpre (by omega)

/-- A change at `k₂` after a change at `k₁` in a coherent log was made after a commit between
them, which the log starts with. -/
theorem commit_between {ℓ : List E} (hc : Coh P w ℓ) {k₁ k₂ : Nat} {e₁ e₂ : E} (hk : k₁ < k₂)
    (h₁ : ℓ[k₁]? = some e₁) (h₂ : ℓ[k₂]? = some e₂) (hc₁ : P.IsCfg e₁) (hc₂ : P.IsCfg e₂) :
    ∃ c, w.commits c ∧ c.term ≤ P.term e₂ ∧ k₁ < c.idx ∧ c.idx ≤ k₂ ∧
      w.upTo c.term c.idx <+: ℓ := by
  have hp := hc k₂ e₂ h₂
  have h₁' : (w.llog (P.term e₂))[k₁]? = some e₁ := by
    refine getElem?_of_isPrefix hp ?_
    rw [List.getElem?_take_of_lt (by omega)]; exact h₁
  obtain ⟨c, hcc, hct, hlt, hle, hpre⟩ := (h.llog_cfg (hc.getElem h₂) rfl).2 hc₂ k₁ e₁ hk h₁' hc₁
  refine ⟨c, hcc, hct, hlt, hle, ?_⟩
  have hlen := getElem?_lt h₂
  refine (prefix_of_le hpre hp ?_).trans (List.take_prefix _ _)
  rw [h.upTo_length hcc, List.length_take]; omega

/-- A candidate with the votes of a quorum of its own view starts with every committed prefix of
the earlier terms. `hkeep`: its voters had the prefixes they acknowledged. -/
theorem candidate_complete {t seen : Nat} {i : ι} {ℓ : List E} {votes : ι → Prop}
    (hcand : w.cand t i = some ℓ) (hq : P.Quorum (P.view ℓ seen) votes)
    (hvotes : ∀ v, votes v → ∃ ℓv, w.voted t v = some (i, ℓv))
    (hIH : ∀ t' r, t' < t → w.lead t' = some r → ∀ c, w.commits c → c.term < t' →
      w.upTo c.term c.idx <+: r.log)
    (hkeep : ∀ v ℓv, votes v → w.voted t v = some (i, ℓv) → ∀ c, w.commits c → c.term < t →
      c.acks v → w.upTo c.term c.idx <+: ℓv) :
    ∀ c, w.commits c → c.term < t → w.upTo c.term c.idx <+: ℓ := by
  obtain ⟨hcoh, hlt⟩ := h.cand_coh hcand
  -- induction on the commits, by term and then by index
  suffices key : ∀ s m c, w.commits c → c.term = s → c.idx = m → c.term < t →
      w.upTo c.term c.idx <+: ℓ from fun c hc => key _ _ c hc rfl rfl
  intro s
  induction s using Nat.strong_induction_on with
  | _ s ihs =>
  intro m
  induction m using Nat.strong_induction_on with
  | _ m ihm =>
  intro c hc hs hm hct
  subst hs hm
  have hearlier : ∀ d, w.commits d → (d.term < c.term ∨ d.term = c.term ∧ d.idx < c.idx) →
      w.upTo d.term d.idx <+: ℓ := by
    intro d hd hlt'
    rcases hlt' with hlt' | ⟨heq, hlt'⟩
    · exact ihs _ hlt' _ d hd rfl rfl (by omega)
    · exact ihm _ hlt' d hd heq rfl (by omega)
  by_contra hnot
  obtain ⟨r, hr⟩ := h.commit_lead hc
  have hlow : ∀ d, w.commits d → (d.term < c.term ∨ d.term = c.term ∧ d.idx < c.idx) →
      d.idx < c.idx ∧ w.upTo d.term d.idx <+: w.upTo c.term c.idx := by
    intro d hd hlt'
    rcases hlt' with hlt' | ⟨heq, hlt'⟩
    · have hp := hIH _ r hct hr d hd hlt'
      have hi := h.commit_lt hc hr (h.commit_rec hd).2.1 hp
      refine ⟨hi, prefix_of_le (hp.trans (h.lead_log hr)) (List.take_prefix _ _) ?_⟩
      rw [h.upTo_length hd, h.upTo_length hc]; omega
    · exact ⟨hlt', by rw [heq]; exact take_prefix_take hlt'.le⟩
  obtain ⟨j, hj, hmax⟩ := exists_greatest
    (fun n => ∃ d, w.commits d ∧ (d.term < c.term ∨ d.term = c.term ∧ d.idx < c.idx) ∧ d.idx = n)
    (b := c.idx) (by rintro n ⟨d, hd, hl, rfl⟩; exact (hlow d hd hl).1.le)
  have hagree : (w.upTo c.term c.idx).take j = ℓ.take j := by
    rcases hj with rfl | ⟨d, hd, hl, rfl⟩
    · simp
    · rw [← take_eq_of_isPrefix (hlow d hd hl).2 (by rw [h.upTo_length hd]),
        take_eq_of_isPrefix (hearlier d hd hl) (by rw [h.upTo_length hd])]
  have hcohc : Coh P w (w.upTo c.term c.idx) := (h.llog_coh _).of_isPrefix (List.take_prefix _ _)
  obtain ⟨v, hva, hvv⟩ := views_meet (h.shaped hcohc) (h.shaped hcoh) hagree
    (by
      intro k₁ k₂ e₁ e₂ hjk hk h₁ h₂ hc₁ hc₂
      obtain ⟨d, hd, hdt, hd₁, hd₂, -⟩ := h.commit_between hcohc hk h₁ h₂ hc₁ hc₂
      have hk₂ : k₂ < c.idx := by rw [← h.upTo_length hc]; exact getElem?_lt h₂
      have ht₂ := h.llog_term_le (getElem?_of_isPrefix (List.take_prefix _ _) h₂)
      have := hmax d.idx ⟨d, hd, by omega, rfl⟩
      omega)
    (by
      intro k₁ k₂ e₁ e₂ hjk hk h₁ h₂ hc₁ hc₂
      obtain ⟨d, hd, hdt, hd₁, hd₂, hdp⟩ := h.commit_between hcoh hk h₁ h₂ hc₁ hc₂
      have ht₂ := hlt e₂ (List.mem_of_getElem? h₂)
      -- a commit above `j` is not before `c`, so its prefix starts with that of `c`
      have hnlt : ¬ (d.term < c.term ∨ d.term = c.term ∧ d.idx < c.idx) := fun hl => by
        have := hmax d.idx ⟨d, hd, hl, rfl⟩
        omega
      refine hnot (List.IsPrefix.trans ?_ hdp)
      rcases Nat.lt_or_ge c.term d.term with hdc | hdc
      · obtain ⟨r', hr'⟩ := h.commit_lead hd
        have hp := hIH _ r' (by omega) hr' c hc hdc
        have hi := h.commit_lt hd hr' (h.commit_rec hc).2.1 hp
        refine prefix_of_le (hp.trans (h.lead_log hr')) (List.take_prefix _ _) ?_
        rw [h.upTo_length hc, h.upTo_length hd]; omega
      · have heq : d.term = c.term := by omega
        rw [heq]; exact take_prefix_take (by omega))
    (h.commit_rec hc).2.2.2.1 hq
  obtain ⟨ℓv, hℓv⟩ := hvotes v hvv
  obtain ⟨hcohv, ℓ', hℓ', hu⟩ := h.voted_cand hℓv
  rw [hcand] at hℓ'; cases hℓ'
  exact hnot (h.prefix_of_upToDate hc hcoh hlt hcohv (hkeep v ℓv hvv hℓv c hc hct hva) hu
    fun t' r' h1 h2 hr' => hIH t' r' h2 hr' c hc h1)

/-- Leader completeness: a leader was elected with every prefix committed in an earlier term. -/
theorem completeness : ∀ t r, w.lead t = some r → ∀ c, w.commits c → c.term < t →
    w.upTo c.term c.idx <+: r.log := by
  intro t
  induction t using Nat.strong_induction_on with
  | _ t ih =>
  intro r hr
  refine h.candidate_complete (h.lead_cand hr) (h.lead_quorum hr) (fun v hv => h.lead_votes hr hv)
    (fun t' r' ht' hr' => ih t' ht' r' hr') fun v ℓv hv hℓv c hc hct hcv => ?_
  rcases h.lead_keep hr hv hℓv ((h.commit_rec hc).2.2.2.2 v hcv) hct with hp | ⟨t', r', h1, h2, hr', hn⟩
  · exact hp
  · exact absurd (ih t' h2 r' hr' c hc h1) hn

theorem completeness_llog {t : Nat} {r : Election ι E} (hr : w.lead t = some r) {c : Commit ι}
    (hc : w.commits c) (hct : c.term ≤ t) : w.upTo c.term c.idx <+: w.llog t := by
  rcases Nat.lt_or_ge c.term t with hlt | hge
  · exact (h.completeness t r hr c hc hlt).trans (h.lead_log hr)
  · have : c.term = t := by omega
    rw [this]; exact List.take_prefix _ _

/-- Election safety: a candidate with the votes of a quorum of its own view, in a term that has a
leader, is that leader. -/
theorem election_safety {t seen : Nat} {i : ι} {ℓ : List E} {votes : ι → Prop} {r : Election ι E}
    (hr : w.lead t = some r) (hcand : w.cand t i = some ℓ)
    (hq : P.Quorum (P.view ℓ seen) votes)
    (hvotes : ∀ v, votes v → ∃ ℓv, w.voted t v = some (i, ℓv)) : i = r.leader := by
  have hcomp : ∀ c, w.commits c → c.term < t → w.upTo c.term c.idx <+: ℓ := by
    refine h.candidate_complete hcand hq hvotes (fun t' r' _ hr' => h.completeness t' r' hr')
      fun v ℓv hv hℓv c hc hct hcv => ?_
    rcases h.voted_keep hℓv ((h.commit_rec hc).2.2.2.2 v hcv) hct with hp | ⟨t', r', h1, h2, hr', hn⟩
    · exact hp
    · exact absurd (h.completeness t' r' hr' c hc h1) hn
  obtain ⟨j, hj, hmax⟩ := exists_greatest (fun n => ∃ d, w.commits d ∧ d.term < t ∧ d.idx = n)
    (b := ℓ.length) (by
      rintro n ⟨d, hd, hdt, rfl⟩
      rw [← h.upTo_length hd]; exact (hcomp d hd hdt).length_le)
  have hagree : ℓ.take j = r.log.take j := by
    rcases hj with rfl | ⟨d, hd, hdt, rfl⟩
    · simp
    · rw [← take_eq_of_isPrefix (hcomp d hd hdt) (by rw [h.upTo_length hd]),
        ← take_eq_of_isPrefix (h.completeness t r hr d hd hdt) (by rw [h.upTo_length hd])]
  have hone : ∀ ℓ', Coh P w ℓ' → (∀ e ∈ ℓ', P.term e < t) → ∀ k₁ k₂ e₁ e₂, j ≤ k₁ → k₁ < k₂ →
      ℓ'[k₁]? = some e₁ → ℓ'[k₂]? = some e₂ → P.IsCfg e₁ → ¬ P.IsCfg e₂ := by
    intro ℓ' hcoh hlt k₁ k₂ e₁ e₂ hjk hk h₁ h₂ hc₁ hc₂
    obtain ⟨d, hd, hdt, hd₁, -, -⟩ := h.commit_between hcoh hk h₁ h₂ hc₁ hc₂
    have ht₂ := hlt e₂ (List.mem_of_getElem? h₂)
    have := hmax d.idx ⟨d, hd, by omega, rfl⟩
    omega
  obtain ⟨hcoh, hlt⟩ := h.cand_coh hcand
  obtain ⟨hcoh', hlt'⟩ := h.cand_coh (h.lead_cand hr)
  obtain ⟨v, hv, hv'⟩ := views_meet (h.shaped hcoh) (h.shaped hcoh') hagree (hone ℓ hcoh hlt)
    (hone r.log hcoh' hlt') hq (h.lead_quorum hr)
  obtain ⟨ℓv, hℓv⟩ := hvotes v hv
  obtain ⟨ℓv', hℓv'⟩ := h.lead_votes hr hv'
  rw [hℓv] at hℓv'; cases hℓv'; rfl

/-- Of two commits, the one of the smaller term, or of the smaller index in one term, is a prefix
of the other. -/
theorem commit_prefix {c d : Commit ι} (hc : w.commits c) (hd : w.commits d)
    (hle : c.term < d.term ∨ c.term = d.term ∧ c.idx ≤ d.idx) :
    c.idx ≤ d.idx ∧ w.upTo c.term c.idx <+: w.upTo d.term d.idx := by
  rcases hle with hlt | ⟨heq, hle⟩
  · obtain ⟨r, hr⟩ := h.commit_lead hd
    have hp := h.completeness _ r hr c hc hlt
    have hi := h.commit_lt hd hr (h.commit_rec hc).2.1 hp
    refine ⟨hi.le, prefix_of_le (hp.trans (h.lead_log hr)) (List.take_prefix _ _) ?_⟩
    rw [h.upTo_length hc, h.upTo_length hd]; omega
  · exact ⟨hle, by rw [heq]; exact take_prefix_take hle⟩

/-- What a member knows to be committed is a prefix of the log of every leader from its term
on. -/
theorem backed_llog {t t' c : Nat} {ℓ : List E} (hb : w.Backed t ℓ c) {r : Election ι E}
    (hr : w.lead t' = some r) (ht : t ≤ t') : ℓ.take c <+: w.llog t' := by
  obtain ⟨hle, rfl | ⟨k, hk, hkt, hck, heq⟩⟩ := hb
  · simp
  · rw [heq]
    exact (take_prefix_take hck).trans (h.completeness_llog hr hk (by omega))

/-- And every leader of a later term was elected with it. -/
theorem backed_elected {t t' c : Nat} {ℓ : List E} (hb : w.Backed t ℓ c) {r : Election ι E}
    (hr : w.lead t' = some r) (ht : t < t') : ℓ.take c <+: r.log := by
  obtain ⟨-, rfl | ⟨k, hk, hkt, hck, heq⟩⟩ := hb
  · simp
  · rw [heq]
    exact (take_prefix_take hck).trans (h.completeness t' r hr k hk (by omega))

/-- Two members agree on what both know to be committed. -/
theorem backed_agree {t t' c c' : Nat} {ℓ ℓ' : List E} (hb : w.Backed t ℓ c)
    (hb' : w.Backed t' ℓ' c') {m : Nat} (hm : m ≤ c) (hm' : m ≤ c') : ℓ.take m = ℓ'.take m := by
  obtain ⟨-, rfl | ⟨k, hk, -, hck, heq⟩⟩ := hb
  · simp [Nat.le_zero.mp hm]
  obtain ⟨-, rfl | ⟨k', hk', -, hck', heq'⟩⟩ := hb'
  · simp [Nat.le_zero.mp hm']
  have e₁ : ℓ.take m = (w.upTo k.term k.idx).take m := by
    have := congrArg (List.take m) heq
    simpa [World.upTo, List.take_take, Nat.min_eq_left hm, Nat.min_eq_left (hm.trans hck)] using this
  have e₂ : ℓ'.take m = (w.upTo k'.term k'.idx).take m := by
    have := congrArg (List.take m) heq'
    simpa [World.upTo, List.take_take, Nat.min_eq_left hm', Nat.min_eq_left (hm'.trans hck')]
      using this
  rw [e₁, e₂]
  by_cases hord : k.term < k'.term ∨ k.term = k'.term ∧ k.idx ≤ k'.idx
  · exact take_eq_of_isPrefix (h.commit_prefix hk hk' hord).2 (by rw [h.upTo_length hk]; omega)
  · exact (take_eq_of_isPrefix (h.commit_prefix hk' hk (by omega)).2
      (by rw [h.upTo_length hk']; omega)).symm

end Inv

end Consensus
