import Promtact.Raft.Changes.Methods

/-!
# The methods of a node as sequences of effects

The changes of a method are effects, so `Op.effects` follows from `Op.changes`. There are two rules
for invariants: what every effect keeps, every method keeps (`Op.keeps`), and the same for changes
(`Op.keepsChanges`). `Op.keepsAlways` also says what a panic leaves.
-/

namespace Promtact.Raft

open Refine

variable {σ : Type} [StableStore σ] {op : Op} {n₀ n n' : Node σ}

theorem Sane.change (h : Sane n) (hc : Change op n₀ n n') : Sane n' := by
  have he := hc.effects h.log
  clear hc
  induction he with
  | refl => exact h
  | tail _ he ih => exact ih.effect he

omit [StableStore σ] in
theorem Sane.leads (h : Sane n) (hl : n.state = .leader) : n.faulted = false :=
  eq_false_of_ne_true fun hf => by cases (h.stopped hf).symm.trans hl

/-- Every method is a sequence of changes. -/
theorem Op.acts (op : Op) (h : Sane n) : Acts True op n op.run n fun _ _ => True :=
  (op.changes ⟨h.log, .inl trivial⟩ h.leads (.inl trivial) (.inl trivial) (.inl trivial)).mono
    fun _ _ _ => trivial

/-- Every method that returns is a sequence of effects. -/
theorem Op.effects (op : Op) (h : Sane n) : Eff op n op.run n fun _ _ => True :=
  Sim.replace ((op.acts h).weaken fun _ _ _ _ => trivial) h fun hs hc =>
    ⟨hs.change hc, hc.effects hs.log⟩

/-- The rule for invariants: what every effect keeps is kept by the methods. -/
theorem Op.keeps {I : Node σ → Prop} {n n' : Node σ} {u : Unit} (h : Sane n) (hi : I n)
    (hx : op.run n = .ok u n') (hI : ∀ {n₁ n₂}, Sane n₁ → I n₁ → Effect op n n₁ n₂ → I n₂) :
    Sane n' ∧ I n' := by
  obtain ⟨w, hw, rfl, -⟩ := (op.effects h).ok hx
  clear hx
  induction hw with
  | refl => exact ⟨h, hi⟩
  | tail _ he ih => exact ⟨ih.1.effect he, hI ih.1 ih.2 he⟩

/-- The rule for invariants that depend on the single fields of a node. A panic leaves the store of
a node that has the invariant. -/
theorem Op.keepsAlways {I : Node σ → Prop} (op : Op) (h : Sane n) (hi : I n)
    (hI : ∀ {n₁ n₂}, Sane n₁ → I n₁ → Change op n n₁ n₂ → I n₂) :
    Triple (fun n' => ∃ w, I w ∧ Left op w n'.store) op.run n fun _ n' => Sane n' ∧ I n' := by
  have hrun : ∀ {w}, Relation.ReflTransGen (Change op n) n w → Sane w ∧ I w := fun hw => by
    induction hw with
    | refl => exact ⟨h, hi⟩
    | tail _ hc ih => exact ⟨ih.1.change hc, hI ih.1 ih.2 hc⟩
  have hacts := op.acts h
  unfold Triple Sim
  cases hx : op.run n with
  | ok u n' =>
    obtain ⟨w, hw, rfl, -⟩ := hacts.ok hx
    exact ⟨(), .refl, hrun hw⟩
  | error e n' =>
    obtain ⟨w, hw, -, hleft⟩ := hacts.error hx
    exact ⟨(), .refl, w, (hrun hw).2, hleft⟩

theorem Op.keepsChanges {I : Node σ → Prop} {n n' : Node σ} {u : Unit} (h : Sane n) (hi : I n)
    (hx : op.run n = .ok u n') (hI : ∀ {n₁ n₂}, Sane n₁ → I n₁ → Change op n n₁ n₂ → I n₂) :
    Sane n' ∧ I n' :=
  (op.keepsAlways h hi hI).ok hx

omit [StableStore σ] in
theorem Persist.applied {h : HardState} (hp : Persist op n h n') : n'.applied = n.applied := by
  cases hp <;> rfl

/-- Only `ApplyEntries` and a snapshot of the leader move the applied index. -/
theorem Effect.applied (he : Effect op n₀ n n') (ha : op ≠ .applyEntries)
    (hi : ∀ m, op = .step m → ¬ n₀.TakesSnapshot m) : n'.applied = n.applied := by
  cases he with
  | volatile hv _ => exact hv.applied
  | persist _ hp _ => exact hp.applied
  | appendError _ _ hv => exact hv.applied
  | save hp _ _ =>
    cases hp with
    | own => rfl
    | install hn hop htype hm hb => exact absurd (hn.takesSnapshot htype hm hb) (hi _ hop)
  | apply hop => exact absurd hop ha
  | _ => rfl

theorem Op.applied_eq {n n' : Node σ} {u : Unit} (h : Sane n) (hx : op.run n = .ok u n')
    (ha : op ≠ .applyEntries) (hi : ∀ m, op = .step m → ¬ n.TakesSnapshot m) :
    n'.applied = n.applied :=
  (op.keeps (I := fun n₁ => n₁.applied = n.applied) h rfl hx fun _ h₁ he =>
    (he.applied ha hi).trans h₁).2

/-- A node that runs after a method ran before it. -/
theorem Op.running {n n' : Node σ} {u : Unit} (h : Sane n) (hx : op.run n = .ok u n')
    (hf : n'.faulted = false) : n.faulted = false := by
  refine eq_false_of_ne_true fun hn => ?_
  have hstay := (op.keepsChanges (I := fun n₁ => n₁.faulted = true) h hn hx fun _ h₁ hc =>
    eq_true_of_ne_false fun h₂ => by cases h₁.symm.trans (hc.running h₂)).2
  cases hf.symm.trans hstay

end Promtact.Raft
