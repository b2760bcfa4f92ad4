import Mathlib.Data.List.Basic
import Mathlib.Data.List.Infix

/-!
# Voter configurations carried by a log

A log of a protocol with joint consensus carries the changes of its own voter set. This file says
what a log prefix makes of them.

* `Params`: the entries of a log (their term and their `Change`), the first configuration, and
  when a set of members is a majority of a voter set. Two majorities of one voter set meet.
* `Params.cfg ℓ`: the configuration after all entries of `ℓ`.
* `Params.view ℓ c`: the configuration that a member with the log `ℓ` counts votes in when it
  knows that the first `c` entries are committed. A joint entry counts as soon as it is in the
  log, a final entry only once it is known to be committed.
* `Shaped`: every change starts from the configuration before it.

The result is `side_view`: of two shaped logs that agree up to `j` and hold at most one change
from there on, every view has the newest voter set at `j` on one of its sides. So any two quorums
that are counted on such logs have a majority of one voter set in common, whatever each of them
knows to be committed.
-/

namespace Consensus

/-- What an entry does to the configuration. -/
inductive Change (V : Type) where
  | keep
  | joint (old new : V)
  | final (new : V)

/-- A voter set, or two of them during a transition. -/
structure Config (V : Type) where
  old : V
  new : Option V

/-- A protocol's entries, its first configuration, and its majorities. Leaders make entries that
are `Ok` only. -/
structure Params (ι E V : Type) where
  term : E → Nat
  change : E → Change V
  Ok : E → Prop
  init : Config V
  Maj : V → (ι → Prop) → Prop
  maj_inter : ∀ {v A B}, Maj v A → Maj v B → ∃ i, A i ∧ B i

namespace Config

variable {V : Type}

/-- The configuration after a committed change. -/
def apply (c : Config V) : Change V → Config V
  | .keep => c
  | .joint o n => ⟨o, some n⟩
  | .final n => ⟨n, none⟩

/-- The configuration after a change that is only in the log. -/
def applyJoint (c : Config V) : Change V → Config V
  | .joint o n => ⟨o, some n⟩
  | _ => c

/-- The change starts from the configuration `c`. -/
def Fits (c : Config V) : Change V → Prop
  | .keep => True
  | .joint o _ => c = ⟨o, none⟩
  | .final n => c.new = some n

/-- The voter set that the configuration leads to. -/
def newest (c : Config V) : V := c.new.getD c.old

/-- `v` is one of the voter sets whose majority the configuration asks for. -/
def Side (c : Config V) (v : V) : Prop := c.old = v ∨ c.new = some v

theorem side_newest (c : Config V) : c.Side c.newest := by
  unfold Side newest
  cases c.new <;> simp

end Config

namespace Params

variable {ι E V : Type} (P : Params ι E V)

/-- A majority of every voter set of the configuration. -/
def Quorum (c : Config V) (A : ι → Prop) : Prop := ∀ v, c.Side v → P.Maj v A

/-- The configuration after the entries of `ℓ`. -/
def cfg (ℓ : List E) : Config V := ℓ.foldl (fun c e => c.apply (P.change e)) P.init

/-- The configuration of a member with log `ℓ` that knows `c` entries to be committed. -/
def view (ℓ : List E) (c : Nat) : Config V :=
  (ℓ.drop c).foldl (fun k e => k.applyJoint (P.change e)) (P.cfg (ℓ.take c))

/-- The entry changes the configuration. -/
def IsCfg (e : E) : Prop := P.change e ≠ .keep

/-- Every change in the log starts from the configuration before it. -/
def Shaped (ℓ : List E) : Prop :=
  ∀ k e, ℓ[k]? = some e → (P.cfg (ℓ.take k)).Fits (P.change e)

variable {P}

theorem quorum_inter {c d : Config V} {A B : ι → Prop} {v : V} (hA : P.Quorum c A)
    (hB : P.Quorum d B) (hc : c.Side v) (hd : d.Side v) : ∃ i, A i ∧ B i :=
  P.maj_inter (hA v hc) (hB v hd)

@[simp] theorem cfg_nil : P.cfg [] = P.init := rfl

@[simp] theorem cfg_snoc (ℓ : List E) (e : E) :
    P.cfg (ℓ ++ [e]) = (P.cfg ℓ).apply (P.change e) := by
  simp [cfg]

theorem view_of_length_le {ℓ : List E} {c : Nat} (h : ℓ.length ≤ c) : P.view ℓ c = P.cfg ℓ := by
  simp [view, List.drop_eq_nil_of_le h, List.take_of_length_le h]

theorem view_snoc {ℓ : List E} {c : Nat} (h : c ≤ ℓ.length) (e : E) :
    P.view (ℓ ++ [e]) c = (P.view ℓ c).applyJoint (P.change e) := by
  simp [view, List.drop_append_of_le_length h, List.take_append_of_le_length h]

theorem Shaped.of_isPrefix {ℓ ℓ' : List E} (h : P.Shaped ℓ') (hp : ℓ <+: ℓ') : P.Shaped ℓ := by
  obtain ⟨t, rfl⟩ := hp
  intro k e hk
  have hlt : k < ℓ.length := (List.getElem?_eq_some_iff.mp hk).1
  have := h k e (by rw [List.getElem?_append_left hlt]; exact hk)
  rwa [List.take_append_of_le_length (by omega)] at this

theorem Shaped.last {ℓ : List E} {e : E} (h : P.Shaped (ℓ ++ [e])) :
    (P.cfg ℓ).Fits (P.change e) := by
  have := h ℓ.length e (by simp)
  simpa using this

/-- The view is the configuration of the whole log, unless the last change is a final entry that
is not known to be committed: then it is still the transition before it. -/
theorem view_cases {ℓ : List E} (h : P.Shaped ℓ) (c : Nat) :
    P.view ℓ c = P.cfg ℓ ∨ ∃ v, P.cfg ℓ = ⟨v, none⟩ ∧ (P.view ℓ c).new = some v := by
  induction ℓ using List.reverseRecOn with
  | nil => left; simp [view]
  | append_singleton ℓ e ih =>
    by_cases hc : (ℓ ++ [e]).length ≤ c
    · exact .inl (view_of_length_le hc)
    have hc' : c ≤ ℓ.length := by simp at hc; omega
    have hlast := h.last
    rw [view_snoc hc', cfg_snoc]
    have ih := ih (h.of_isPrefix (List.prefix_append _ _))
    cases he : P.change e with
    | keep => exact ih
    | joint o n => exact .inl rfl
    | final n =>
      rw [he] at hlast
      right
      refine ⟨n, rfl, ?_⟩
      rcases ih with ih | ⟨v, hv, -⟩
      · show (P.view ℓ c).new = some n
        rw [ih]; exact hlast
      · rw [Config.Fits, hv] at hlast; cases hlast

theorem side_view_newest {ℓ : List E} (h : P.Shaped ℓ) (c : Nat) :
    (P.view ℓ c).Side (P.cfg ℓ).newest := by
  rcases view_cases h c with hv | ⟨v, hv, hn⟩
  · rw [hv]; exact Config.side_newest _
  · rw [hv]; exact .inr hn

/-- Entries without a change leave the configuration. -/
theorem cfg_take_eq {ℓ : List E} {i j : Nat} (hij : i ≤ j)
    (h : ∀ k e, i ≤ k → k < j → ℓ[k]? = some e → ¬ P.IsCfg e) :
    P.cfg (ℓ.take j) = P.cfg (ℓ.take i) := by
  induction j, hij using Nat.le_induction with
  | base => rfl
  | succ j hij ih =>
    rw [← ih fun k e hk hkj => h k e hk (by omega)]
    rcases lt_or_ge j ℓ.length with hj | hj
    · rw [List.take_succ_eq_append_getElem hj, cfg_snoc]
      have := h j ℓ[j] hij (by omega) (List.getElem?_eq_getElem hj)
      rw [not_not.mp this]; rfl
    · rw [List.take_of_length_le hj, List.take_of_length_le (by omega)]

/-- The newest voter set at `j` is a side of every view of a log with at most one change from `j`
on. -/
theorem side_view {ℓ : List E} (h : P.Shaped ℓ) {j : Nat}
    (hone : ∀ k₁ k₂ e₁ e₂, j ≤ k₁ → k₁ < k₂ → ℓ[k₁]? = some e₁ → ℓ[k₂]? = some e₂ →
      P.IsCfg e₁ → ¬ P.IsCfg e₂) (c : Nat) :
    (P.view ℓ c).Side (P.cfg (ℓ.take j)).newest := by
  by_cases hex : ∃ k e, j ≤ k ∧ ℓ[k]? = some e ∧ P.IsCfg e
  · obtain ⟨k, e, hjk, hk, he⟩ := hex
    obtain ⟨hlt, rfl⟩ := List.getElem?_eq_some_iff.mp hk
    -- the only change from `j` on is at `k`
    have hbefore : P.cfg (ℓ.take k) = P.cfg (ℓ.take j) :=
      cfg_take_eq hjk fun i e' hi hik hget hc => hone i k e' _ hi hik hget hk hc he
    have hafter : P.cfg ℓ = P.cfg (ℓ.take (k + 1)) := by
      conv_lhs => rw [← List.take_length (l := ℓ)]
      exact cfg_take_eq (by omega) fun i e' hi _ hget => hone k i _ e' hjk (by omega) hk hget he
    have hcfg : P.cfg ℓ = (P.cfg (ℓ.take j)).apply (P.change ℓ[k]) := by
      rw [hafter, List.take_succ_eq_append_getElem hlt, cfg_snoc, hbefore]
    have hfit := h k _ hk
    rw [hbefore] at hfit
    cases hch : P.change ℓ[k] with
    | keep => exact absurd hch he
    | joint o n =>
      rw [hch] at hfit hcfg
      simp only [Config.Fits] at hfit
      rcases view_cases h c with hv | ⟨v, hv, -⟩
      · rw [hv, hcfg, hfit]; exact .inl rfl
      · rw [hcfg, Config.apply] at hv; cases hv
    | final n =>
      rw [hch] at hfit hcfg
      have hnew : (P.cfg (ℓ.take j)).newest = (P.cfg ℓ).newest := by
        simp only [Config.Fits] at hfit
        simp [Config.newest, hcfg, Config.apply, hfit]
      rw [hnew]; exact side_view_newest h c
  · have : P.cfg ℓ = P.cfg (ℓ.take j) := by
      rcases le_or_gt ℓ.length j with hl | hl
      · rw [List.take_of_length_le hl]
      · conv_lhs => rw [← List.take_length (l := ℓ)]
        exact cfg_take_eq hl.le fun k e hk _ hget hc => hex ⟨k, e, hk, hget, hc⟩
    rw [← this]; exact side_view_newest h c

end Params

end Consensus
