import Promtact.Lib.Consensus.Config

/-!
# The history of a replicated log

`World` is what a protocol that elects one leader a term has done so far: the state of each
member, and a record of every election, vote, acknowledgement and commit. No message occurs in
it. A message in flight is a fact about the record, and the record only grows (`World.Ext`), so a
late or repeated message is as true as when it was sent.

* A log is *coherent* (`Coh`) when each of its prefixes is a prefix of the log of the leader whose
  term its last entry carries. Coherent logs that carry the same term at one position agree up to
  it (`Coh.take_eq`).
* `Inv` is what holds of every world that the steps of `Promtact.Lib.Consensus.Steps` reach. Its
  clauses say what each record means. None of them says that a commit survives: that is a
  consequence (`Promtact.Lib.Consensus.Completeness`). A member that acknowledged a prefix holds
  it until some later leader was elected without it (`acked_keep`).
-/

namespace Consensus

/-- An election that `leader` won: the log and the commit index it had, and the votes it
counted. -/
structure Election (ι E : Type) where
  leader : ι
  log : List E
  seen : Nat
  votes : ι → Prop

/-- The leader of `term` committed its first `idx` entries on the acknowledgements `acks`, when it
knew `seen` entries to be committed. -/
structure Commit (ι : Type) where
  term : Nat
  idx : Nat
  seen : Nat
  acks : ι → Prop

/-- The state of the members and the record of what they did. -/
structure World (ι E : Type) where
  term : ι → Nat
  vote : ι → Option ι
  log : ι → List E
  commit : ι → Nat
  /-- The log with which a member started its election in a term. -/
  cand : Nat → ι → Option (List E)
  /-- A member's vote in a term, and the log it had then. -/
  voted : Nat → ι → Option (ι × List E)
  /-- The election that was won in a term. -/
  lead : Nat → Option (Election ι E)
  /-- The log of the leader of a term. -/
  llog : Nat → List E
  /-- A member acknowledged the first entries of the leader of a term. -/
  acked : Nat → ι → Nat → Prop
  commits : Commit ι → Prop

namespace World

variable {ι E : Type}

/-- The first `k` entries of the leader of term `t`. -/
def upTo (w : World ι E) (t k : Nat) : List E := (w.llog t).take k

/-- The record of `w'` continues the record of `w`. -/
structure Ext (w w' : World ι E) : Prop where
  cand : ∀ {t i ℓ}, w.cand t i = some ℓ → w'.cand t i = some ℓ
  voted : ∀ {t i x}, w.voted t i = some x → w'.voted t i = some x
  lead : ∀ {t r}, w.lead t = some r → w'.lead t = some r
  llog : ∀ t, w.llog t <+: w'.llog t
  acked : ∀ {t i k}, w.acked t i k → w'.acked t i k
  commits : ∀ {c}, w.commits c → w'.commits c

theorem Ext.refl (w : World ι E) : Ext w w := ⟨id, id, id, fun _ => List.prefix_rfl, id, id⟩

theorem Ext.trans {w₁ w₂ w₃ : World ι E} (h : Ext w₁ w₂) (h' : Ext w₂ w₃) : Ext w₁ w₃ where
  cand hc := h'.cand (h.cand hc)
  voted hv := h'.voted (h.voted hv)
  lead hl := h'.lead (h.lead hl)
  llog t := (h.llog t).trans (h'.llog t)
  acked ha := h'.acked (h.acked ha)
  commits hc := h'.commits (h.commits hc)

/-- A prefix within the leader's log stays as it is while that log grows. -/
theorem Ext.upTo_eq {w w' : World ι E} (h : Ext w w') {t k : Nat} (hk : k ≤ (w.llog t).length) :
    w'.upTo t k = w.upTo t k := by
  obtain ⟨s, hs⟩ := h.llog t
  rw [upTo, upTo, ← hs, List.take_append_of_le_length hk]

/-- A member's commit index `c` on its log `ℓ` is covered by a commit of a term up to `t`. -/
def Backed (w : World ι E) (t : Nat) (ℓ : List E) (c : Nat) : Prop :=
  c ≤ ℓ.length ∧ (c = 0 ∨ ∃ k, w.commits k ∧ k.term ≤ t ∧ c ≤ k.idx ∧ ℓ.take c = w.upTo k.term c)

theorem Backed.mono {w : World ι E} {t t' c c' : Nat} {ℓ ℓ' : List E} (hb : w.Backed t ℓ c)
    (ht : t ≤ t') (hp : ℓ.take c <+: ℓ') (hc : c' ≤ c) : w.Backed t' ℓ' c' := by
  have htake : ℓ'.take c' = ℓ.take c' := by
    obtain ⟨s, hs⟩ := hp
    rw [← hs, List.take_append_of_le_length (by rw [List.length_take]; have := hb.1; omega),
      List.take_take, Nat.min_eq_left hc]
  refine ⟨?_, ?_⟩
  · have := hp.length_le
    rw [List.length_take] at this
    have := hb.1; omega
  · rcases hb.2 with h0 | ⟨k, hk, hkt, hck, heq⟩
    · exact .inl (by omega)
    · refine .inr ⟨k, hk, hkt.trans ht, hc.trans hck, ?_⟩
      have := congrArg (List.take c') heq
      rw [List.take_take, Nat.min_eq_left hc, upTo, List.take_take, Nat.min_eq_left hc] at this
      rw [htake, this, upTo]

end World

variable {ι E V : Type} (P : Params ι E V)

/-- The term of the last entry, `0` for the empty log. -/
def Params.lastTerm (ℓ : List E) : Nat := (ℓ.getLast?.map P.term).getD 0

/-- `ℓ` is at least as up to date as `ℓ'`. -/
def Params.UpToDate (ℓ ℓ' : List E) : Prop :=
  P.lastTerm ℓ' < P.lastTerm ℓ ∨ P.lastTerm ℓ' = P.lastTerm ℓ ∧ ℓ'.length ≤ ℓ.length

/-- Each prefix of `ℓ` is a prefix of the log of the leader of its last entry's term. -/
def Coh (w : World ι E) (ℓ : List E) : Prop :=
  ∀ k e, ℓ[k]? = some e → ℓ.take (k + 1) <+: w.llog (P.term e)

/-- What the records of a reachable world mean. -/
structure Inv (w : World ι E) : Prop where
  cand_le : ∀ {t i ℓ}, w.cand t i = some ℓ → 0 < t ∧ t ≤ w.term i
  cand_coh : ∀ {t i ℓ}, w.cand t i = some ℓ → Coh P w ℓ ∧ ∀ e ∈ ℓ, P.term e < t
  vote_voted : ∀ {i c}, w.vote i = some c → ∃ ℓ, w.voted (w.term i) i = some (c, ℓ)
  voted_le : ∀ {t i c ℓ}, w.voted t i = some (c, ℓ) →
    t ≤ w.term i ∧ (w.term i = t → w.vote i = some c)
  voted_cand : ∀ {t i c ℓ}, w.voted t i = some (c, ℓ) →
    Coh P w ℓ ∧ ∃ ℓ', w.cand t c = some ℓ' ∧ P.UpToDate ℓ' ℓ
  lead_cand : ∀ {t r}, w.lead t = some r → w.cand t r.leader = some r.log
  lead_votes : ∀ {t r v}, w.lead t = some r → r.votes v → ∃ ℓ, w.voted t v = some (r.leader, ℓ)
  lead_quorum : ∀ {t r}, w.lead t = some r → P.Quorum (P.view r.log r.seen) r.votes
  lead_log : ∀ {t r}, w.lead t = some r → r.log <+: w.llog t
  lead_own : ∀ {t r}, w.lead t = some r → w.term r.leader = t → w.log r.leader = w.llog t
  llog_none : ∀ {t}, w.lead t = none → w.llog t = []
  llog_new : ∀ {t r k e}, w.lead t = some r → r.log.length ≤ k → (w.llog t)[k]? = some e →
    P.term e = t
  llog_coh : ∀ t, Coh P w (w.llog t)
  llog_ok : ∀ {t e}, e ∈ w.llog t → P.Ok e
  /-- A change starts from the configuration before it, and all earlier changes of the log were
  committed when it was made. -/
  llog_cfg : ∀ {t k e}, (w.llog t)[k]? = some e → P.term e = t →
    (P.cfg (w.upTo t k)).Fits (P.change e) ∧
    (P.IsCfg e → ∀ j e', j < k → (w.llog t)[j]? = some e' → P.IsCfg e' →
      ∃ c, w.commits c ∧ c.term ≤ t ∧ j < c.idx ∧ c.idx ≤ k ∧ w.upTo c.term c.idx <+: w.llog t)
  log_coh : ∀ i, Coh P w (w.log i) ∧ ∀ e ∈ w.log i, P.term e ≤ w.term i
  acked_le : ∀ {t v k}, w.acked t v k →
    t ≤ w.term v ∧ k ≤ (w.llog t).length ∧ ∃ r, w.lead t = some r
  acked_down : ∀ {t v k j}, w.acked t v k → j ≤ k → w.acked t v j
  acked_keep : ∀ {t v k}, w.acked t v k → w.upTo t k <+: w.log v ∨
    ∃ t' r, t < t' ∧ t' ≤ w.term v ∧ w.lead t' = some r ∧ ¬ w.upTo t k <+: r.log
  voted_keep : ∀ {t v c ℓ s k}, w.voted t v = some (c, ℓ) → w.acked s v k → s < t →
    w.upTo s k <+: ℓ ∨ ∃ t' r, s < t' ∧ t' ≤ t ∧ w.lead t' = some r ∧ ¬ w.upTo s k <+: r.log
  lead_keep : ∀ {t v c ℓ s k r}, w.lead t = some r → r.votes v → w.voted t v = some (c, ℓ) →
    w.acked s v k → s < t →
    w.upTo s k <+: ℓ ∨ ∃ t' r', s < t' ∧ t' < t ∧ w.lead t' = some r' ∧ ¬ w.upTo s k <+: r'.log
  commit_rec : ∀ {c}, w.commits c → 0 < c.idx ∧ c.idx ≤ (w.llog c.term).length ∧
    (∀ e, (w.llog c.term)[c.idx - 1]? = some e → P.term e = c.term) ∧
    P.Quorum (P.view (w.upTo c.term c.idx) c.seen) c.acks ∧
    ∀ v, c.acks v → w.acked c.term v c.idx
  commit_ev : ∀ i, w.Backed (w.term i) (w.log i) (w.commit i)

variable {P} {w : World ι E}

/-! ## Prefixes -/

theorem prefix_of_le {l₁ l₂ l : List E} (h₁ : l₁ <+: l) (h₂ : l₂ <+: l)
    (h : l₁.length ≤ l₂.length) : l₁ <+: l₂ := List.prefix_of_prefix_length_le h₁ h₂ h

theorem take_prefix_take {l : List E} {i j : Nat} (h : i ≤ j) : l.take i <+: l.take j :=
  List.take_prefix_take_left h

/-- A prefix of `l` is `l` cut at its length. -/
theorem eq_take_of_isPrefix {l' l : List E} (h : l' <+: l) : l' = l.take l'.length :=
  List.prefix_iff_eq_take.mp h

theorem getElem?_of_isPrefix {l l' : List E} {k : Nat} {e : E} (h : l <+: l')
    (hk : l[k]? = some e) : l'[k]? = some e := by
  obtain ⟨s, rfl⟩ := h
  have := (List.getElem?_eq_some_iff.mp hk).1
  rw [List.getElem?_append_left this]; exact hk

theorem getElem?_lt {l : List E} {k : Nat} {e : E} (hk : l[k]? = some e) : k < l.length :=
  (List.getElem?_eq_some_iff.mp hk).1

/-- The entries of a log and of a prefix of it agree below the prefix's length. -/
theorem getElem?_prefix_eq {l l' : List E} {k : Nat} (h : l <+: l') (hk : k < l.length) :
    l[k]? = l'[k]? := by
  obtain ⟨s, rfl⟩ := h
  rw [List.getElem?_append_left hk]

theorem take_eq_of_isPrefix {l l' : List E} {k : Nat} (h : l <+: l') (hk : k ≤ l.length) :
    l.take k = l'.take k := by
  obtain ⟨s, rfl⟩ := h
  rw [List.take_append_of_le_length hk]

/-! ## Coherent logs -/

theorem Coh.of_isPrefix {ℓ ℓ' : List E} (h : Coh P w ℓ') (hp : ℓ <+: ℓ') : Coh P w ℓ := by
  intro k e hk
  rw [take_eq_of_isPrefix hp (by have := getElem?_lt hk; omega)]
  exact h k e (getElem?_of_isPrefix hp hk)

theorem Coh.ext {w' : World ι E} {ℓ : List E} (h : Coh P w ℓ) (hx : w.Ext w') : Coh P w' ℓ :=
  fun k e hk => (h k e hk).trans (hx.llog _)

/-- Log matching. -/
theorem Coh.take_eq {ℓ ℓ' : List E} (h : Coh P w ℓ) (h' : Coh P w ℓ') {k : Nat} {e e' : E}
    (hk : ℓ[k]? = some e) (hk' : ℓ'[k]? = some e') (ht : P.term e = P.term e') :
    ℓ.take (k + 1) = ℓ'.take (k + 1) := by
  have h1 := h k e hk
  have h2 := h' k e' hk'
  rw [← ht] at h2
  have hl := getElem?_lt hk
  have hl' := getElem?_lt hk'
  refine (prefix_of_le h1 h2 (by simp; omega)).eq_of_length (by simp; omega)

theorem Coh.getElem {ℓ : List E} (h : Coh P w ℓ) {k : Nat} {e : E} (hk : ℓ[k]? = some e) :
    (w.llog (P.term e))[k]? = some e :=
  getElem?_of_isPrefix (h k e hk) (by rw [List.getElem?_take_of_lt (by omega)]; exact hk)

theorem Coh.take_llog {ℓ : List E} (h : Coh P w ℓ) {k : Nat} {e : E} (hk : ℓ[k]? = some e) :
    ℓ.take k = w.upTo (P.term e) k := by
  have hl := getElem?_lt hk
  have := take_eq_of_isPrefix (h k e hk) (k := k) (by simp; omega)
  rwa [List.take_take, Nat.min_eq_left (by omega)] at this

namespace Inv

variable (h : Inv P w)
include h

/-- An entry of a leader's log has a term up to the leader's. -/
theorem llog_term_le {t k : Nat} {e : E} (hk : (w.llog t)[k]? = some e) : P.term e ≤ t := by
  cases hl : w.lead t with
  | none => rw [h.llog_none hl] at hk; simp at hk
  | some r =>
    rcases Nat.lt_or_ge k r.log.length with hlt | hge
    · rw [← getElem?_prefix_eq (h.lead_log hl) hlt] at hk
      exact ((h.cand_coh (h.lead_cand hl)).2 e (List.mem_of_getElem? hk)).le
    · exact (h.llog_new hl hge hk).le

/-- The term of an entry of a coherent log has a leader. -/
theorem exists_lead {ℓ : List E} (hc : Coh P w ℓ) {k : Nat} {e : E} (hk : ℓ[k]? = some e) :
    ∃ r, w.lead (P.term e) = some r := by
  cases hl : w.lead (P.term e) with
  | some r => exact ⟨r, rfl⟩
  | none =>
    have := hc.getElem hk
    rw [h.llog_none hl] at this; simp at this

/-- The terms of a coherent log do not fall. -/
theorem term_mono {ℓ : List E} (hc : Coh P w ℓ) {j k : Nat} {e e' : E} (hjk : j ≤ k)
    (hj : ℓ[j]? = some e) (hk : ℓ[k]? = some e') : P.term e ≤ P.term e' := by
  have hp := hc k e' hk
  refine h.llog_term_le (k := j) (getElem?_of_isPrefix hp ?_)
  rw [List.getElem?_take_of_lt (by omega)]; exact hj

/-- The entries of a coherent log are those that leaders make. -/
theorem ok {ℓ : List E} (hc : Coh P w ℓ) {e : E} (he : e ∈ ℓ) : P.Ok e := by
  obtain ⟨k, hk⟩ := List.mem_iff_getElem?.mp he
  exact h.llog_ok (List.mem_of_getElem? (hc.getElem hk))

theorem term_pos {ℓ : List E} (hc : Coh P w ℓ) {k : Nat} {e : E} (hk : ℓ[k]? = some e) :
    0 < P.term e := by
  obtain ⟨r, hr⟩ := h.exists_lead hc hk
  exact (h.cand_le (h.lead_cand hr)).1

theorem shaped {ℓ : List E} (hc : Coh P w ℓ) : P.Shaped ℓ := by
  intro k e hk
  rw [hc.take_llog hk]
  exact (h.llog_cfg (hc.getElem hk) rfl).1

/-! ## A longer record -/

theorem acked_le_ext {w' : World ι E} (hx : w.Ext w') {t v k} (ha : w.acked t v k) :
    t ≤ w.term v ∧ k ≤ (w'.llog t).length ∧ ∃ r, w'.lead t = some r := by
  obtain ⟨hle, hlen, r, hr⟩ := h.acked_le ha
  exact ⟨hle, hlen.trans (hx.llog t).length_le, r, hx.lead hr⟩

/-- An acknowledged prefix is still kept, or lost to the same leader. -/
theorem keep_ext {w' : World ι E} (hx : w.Ext w') {s k : Nat} {i : ι} (ha : w.acked s i k)
    {B : Nat → Prop} {ℓ ℓ' : List E} (hp : ℓ <+: ℓ')
    (hk : w.upTo s k <+: ℓ ∨ ∃ t r, s < t ∧ B t ∧ w.lead t = some r ∧ ¬ w.upTo s k <+: r.log) :
    w'.upTo s k <+: ℓ' ∨ ∃ t r, s < t ∧ B t ∧ w'.lead t = some r ∧ ¬ w'.upTo s k <+: r.log := by
  rw [hx.upTo_eq (h.acked_le ha).2.1]
  refine hk.imp (fun hk => hk.trans hp) ?_
  rintro ⟨t, r, hst, ht, hr, hlost⟩
  exact ⟨t, r, hst, ht, hx.lead hr, hlost⟩

/-- What is said about an entry of a leader's log stays true. -/
theorem llog_cfg_ext {w' : World ι E} (hx : w.Ext w') {t k : Nat} {e : E}
    (hk : (w.llog t)[k]? = some e) (he : P.term e = t) :
    (P.cfg (w'.upTo t k)).Fits (P.change e) ∧
    (P.IsCfg e → ∀ j e', j < k → (w'.llog t)[j]? = some e' → P.IsCfg e' →
      ∃ c, w'.commits c ∧ c.term ≤ t ∧ j < c.idx ∧ c.idx ≤ k ∧
        w'.upTo c.term c.idx <+: w'.llog t) := by
  have hlen := getElem?_lt hk
  obtain ⟨hfits, hcommitted⟩ := h.llog_cfg hk he
  rw [hx.upTo_eq hlen.le]
  refine ⟨hfits, fun hcfg j e' hj hje hce => ?_⟩
  rw [← getElem?_prefix_eq (hx.llog t) (hj.trans hlen)] at hje
  obtain ⟨c, hc, hct, hjc, hck, hpre⟩ := hcommitted hcfg j e' hj hje hce
  refine ⟨c, hx.commits hc, hct, hjc, hck, ?_⟩
  rw [hx.upTo_eq (h.commit_rec hc).2.1]
  exact hpre.trans (hx.llog t)

theorem commit_rec_ext {w' : World ι E} (hx : w.Ext w') {c : Commit ι} (hc : w.commits c) :
    0 < c.idx ∧ c.idx ≤ (w'.llog c.term).length ∧
    (∀ e, (w'.llog c.term)[c.idx - 1]? = some e → P.term e = c.term) ∧
    P.Quorum (P.view (w'.upTo c.term c.idx) c.seen) c.acks ∧
    ∀ v, c.acks v → w'.acked c.term v c.idx := by
  obtain ⟨hpos, hlen, hterm, hquorum, hacks⟩ := h.commit_rec hc
  rw [hx.upTo_eq hlen]
  refine ⟨hpos, hlen.trans (hx.llog _).length_le, fun e he => hterm e ?_, hquorum,
    fun v hv => hx.acked (hacks v hv)⟩
  rw [getElem?_prefix_eq (hx.llog _) (by omega)]
  exact he

/-- A commit stays covered as the record grows. -/
theorem backed_ext {w' : World ι E} (hx : w.Ext w') {t c : Nat} {ℓ : List E}
    (hb : w.Backed t ℓ c) : w'.Backed t ℓ c := by
  refine ⟨hb.1, hb.2.imp_right ?_⟩
  rintro ⟨k, hk, hkt, hck, heq⟩
  refine ⟨k, hx.commits hk, hkt, hck, ?_⟩
  rw [heq, hx.upTo_eq (hck.trans (h.commit_rec hk).2.1)]

end Inv

end Consensus
