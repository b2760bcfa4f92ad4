import Mathlib.Logic.Relation
import Mathlib.Tactic.Common

/-!
# Simulation triples

A program over a state that can fail is a value of `EStateM ε σ`. `Sim S B w x s Q` says that a
run of `x` from the state `s` is matched by a run of the abstract step relation `S` from the
abstract state `w`: if `x` returns `a`, then `Q a` holds of the two states reached, and if `x`
fails, then `B` does. A failing program keeps what it did before, so `B` is about the state in
which it failed.

The rules follow the constructors of a program. `Sim.steps` takes abstract steps at any point, and
`Sim.each` and `Sim.upTo` are the invariant rules for loops. `Made` is a simulation by steps of the
state itself.

`Agree` compares two programs without a hidden state: both return, or both fail in the same way.
`Paired` does so for two programs with states. `within` runs a program on a part of a state.
-/

namespace Refine

/-- A check without effects inside a program with state. -/
instance liftCheck {ε σ : Type} : MonadLift (Except ε) (EStateM ε σ) := ⟨fun x => ofExcept x⟩

/-- `for k := first; k <= last; k++ { f(k) }`. -/
def forUpTo {m : Type → Type} [Monad m] (first last : Nat) (f : Nat → m Unit) : m Unit :=
  (List.range' first (last + 1 - first)).forM f

variable {W ε σ α β : Type}

/-- A sequence of checks that passes. -/
theorem check_ok {x : Except ε α} {f : α → Except ε β} {b : β} (h : x >>= f = .ok b) :
    ∃ a, x = .ok a ∧ f a = .ok b := by
  cases x with
  | ok a => exact ⟨a, rfl, h⟩
  | error e => cases h

/-- A guard before the rest of a program that passes. -/
theorem guard_ok {c : Prop} [Decidable c] {e : ε} {f : PUnit → Except ε β} {b : β}
    (h : (if c then throw e >>= f else f ⟨⟩) = .ok b) : ¬c ∧ f ⟨⟩ = .ok b := by
  split at h
  · cases h
  · exact ⟨‹¬c›, h⟩

/-- What is computed from the result of a program that returns. -/
theorem ok_of_map {x : Except ε α} {f : α → β} {b : β} (h : x.toOption.map f = some b) :
    ∃ a, x = .ok a ∧ f a = b := by
  cases x with
  | ok a => exact ⟨a, rfl, Option.some.inj h⟩
  | error e => cases h

/-- A run of `x` from `s` is matched by a run of `S` from `w`. -/
def Sim (S : W → W → Prop) (B : W → σ → Prop) (w : W) (x : EStateM ε σ α) (s : σ)
    (Q : α → W → σ → Prop) : Prop :=
  match x s with
  | .ok a s' => ∃ w', Relation.ReflTransGen S w w' ∧ Q a w' s'
  | .error _ s' => ∃ w', Relation.ReflTransGen S w w' ∧ B w' s'

variable {S : W → W → Prop} {B : W → σ → Prop} {w w' : W} {s : σ} {x : EStateM ε σ α}
  {Q Q' : α → W → σ → Prop}

theorem Sim.ok {a : α} {s' : σ} (h : Sim S B w x s Q) (hx : x s = .ok a s') :
    ∃ w', Relation.ReflTransGen S w w' ∧ Q a w' s' := by
  rw [Sim, hx] at h; exact h

theorem Sim.error {e : ε} {s' : σ} (h : Sim S B w x s Q) (hx : x s = .error e s') :
    ∃ w', Relation.ReflTransGen S w w' ∧ B w' s' := by
  rw [Sim, hx] at h; exact h

theorem Sim.ret {a : α} (h : Q a w s) : Sim S B w (pure a : EStateM ε σ α) s Q :=
  ⟨w, .refl, h⟩

theorem Sim.fail {e : ε} (h : B w s) : Sim S B w (throw e : EStateM ε σ α) s Q :=
  ⟨w, .refl, h⟩

theorem Sim.update {f : σ → σ} {Q : Unit → W → σ → Prop} (h : Q () w (f s)) :
    Sim S B w (modify f : EStateM ε σ Unit) s Q :=
  ⟨w, .refl, h⟩

/-- Abstract steps before the program. -/
theorem Sim.steps (hs : Relation.ReflTransGen S w w') (h : Sim S B w' x s Q) :
    Sim S B w x s Q := by
  unfold Sim at h ⊢
  split at h
  · obtain ⟨v, hv, hq⟩ := h; exact ⟨v, hs.trans hv, hq⟩
  · obtain ⟨v, hv, hq⟩ := h; exact ⟨v, hs.trans hv, hq⟩

theorem Sim.step (hs : S w w') (h : Sim S B w' x s Q) : Sim S B w x s Q :=
  Sim.steps (.single hs) h

theorem Sim.mono (h : Sim S B w x s Q)
    (hq : ∀ a w' s', Relation.ReflTransGen S w w' → Q a w' s' → Q' a w' s') :
    Sim S B w x s Q' := by
  unfold Sim at h ⊢
  split at h
  · obtain ⟨v, hv, hQ⟩ := h; exact ⟨v, hv, hq _ _ _ hv hQ⟩
  · exact h

/-- Less is said about a failure. -/
theorem Sim.weaken {B' : W → σ → Prop} (h : Sim S B w x s Q)
    (hb : ∀ w' s', Relation.ReflTransGen S w w' → B w' s' → B' w' s') : Sim S B' w x s Q := by
  unfold Sim at h ⊢
  split at h
  · exact h
  · obtain ⟨v, hv, hB⟩ := h; exact ⟨v, hv, hb _ _ hv hB⟩

/-- Abstract steps that are runs of another relation, as long as `I` holds. -/
theorem Sim.replace {S' : W → W → Prop} {I : W → Prop} (h : Sim S B w x s Q) (hi : I w)
    (hS : ∀ {w w'}, I w → S w w' → I w' ∧ Relation.ReflTransGen S' w w') : Sim S' B w x s Q := by
  have hrun : ∀ {w'}, Relation.ReflTransGen S w w' → I w' ∧ Relation.ReflTransGen S' w w' := by
    intro w' hw
    induction hw with
    | refl => exact ⟨hi, .refl⟩
    | tail _ hs ih =>
      obtain ⟨hi', hs'⟩ := hS ih.1 hs
      exact ⟨hi', ih.2.trans hs'⟩
  unfold Sim at h ⊢
  split at h
  · obtain ⟨w', hw, hq⟩ := h
    exact ⟨w', (hrun hw).2, hq⟩
  · obtain ⟨w', hw, hb⟩ := h
    exact ⟨w', (hrun hw).2, hb⟩

theorem Sim.seq {f : α → EStateM ε σ β} {R : β → W → σ → Prop} (h : Sim S B w x s Q)
    (hf : ∀ a w' s', Relation.ReflTransGen S w w' → Q a w' s' → Sim S B w' (f a) s' R) :
    Sim S B w (x >>= f) s R := by
  unfold Sim at h
  cases hx : x s with
  | ok a s' =>
    rw [hx] at h
    obtain ⟨v, hv, hq⟩ := h
    have hr : (x >>= f) s = f a s' := by
      simp only [Bind.bind, EStateM.bind, hx]
    have := Sim.steps hv (hf a v s' hv hq)
    unfold Sim at this ⊢
    rwa [hr]
  | error e s' =>
    rw [hx] at h
    have hr : (x >>= f) s = .error e s' := by
      simp only [Bind.bind, EStateM.bind, hx]
    unfold Sim
    rwa [hr]

/-- The result does not matter. -/
theorem Sim.discard {Q : W → σ → Prop} (h : Sim S B w x s fun _ => Q) :
    Sim S B w (do let _ ← x; pure ()) s fun _ => Q :=
  h.seq fun _ _ _ _ hQ => Sim.ret hQ

theorem Sim.seq_get {f : σ → EStateM ε σ α} (h : Sim S B w (f s) s Q) :
    Sim S B w (get >>= f) s Q := h

theorem Sim.seq_update {g : σ → σ} {f : Unit → EStateM ε σ α} (h : Sim S B w (f ()) (g s) Q) :
    Sim S B w (modify g >>= f) s Q := h

/-- A check that passes. -/
theorem Sim.seq_check {c : Except ε β} {b : β} {f : β → EStateM ε σ α} (hc : c = .ok b)
    (h : Sim S B w (f b) s Q) : Sim S B w (liftM c >>= f) s Q := by
  subst hc; exact h

/-- A check that may fail. -/
theorem Sim.seq_check_of {c : Except ε β} {f : β → EStateM ε σ α} (hb : B w s)
    (h : ∀ b, c = .ok b → Sim S B w (f b) s Q) : Sim S B w (liftM c >>= f) s Q := by
  cases c with
  | ok b => exact h b rfl
  | error e => exact ⟨w, .refl, hb⟩

/-- A program on a part of the state. -/
def zoom {τ ε' : Type} (view : τ → σ) (put : σ → τ → τ) (fault : ε → ε') (x : EStateM ε σ α) :
    EStateM ε' τ α := fun t =>
  match x (view t) with
  | .ok a s => .ok a (put s t)
  | .error e s => .error (fault e) (put s t)

theorem Sim.zoom {τ ε' : Type} {view : τ → σ} {put : σ → τ → τ} {fault : ε → ε'} {t : τ}
    {C : W → τ → Prop} {R : α → W → τ → Prop} (h : Sim S B w x (view t) Q)
    (hb : ∀ w' s', Relation.ReflTransGen S w w' → B w' s' → C w' (put s' t))
    (hq : ∀ a w' s', Relation.ReflTransGen S w w' → Q a w' s' → R a w' (put s' t)) :
    Sim S C w (Refine.zoom view put fault x) t R := by
  cases hx : x (view t) with
  | ok a s' =>
    obtain ⟨w', hw, hQ⟩ := h.ok hx
    unfold Sim Refine.zoom
    rw [hx]
    exact ⟨w', hw, hq a w' s' hw hQ⟩
  | error e s' =>
    obtain ⟨w', hw, hB⟩ := h.error hx
    unfold Sim Refine.zoom
    rw [hx]
    exact ⟨w', hw, hb w' s' hw hB⟩

theorem Sim.ite {c : Prop} [Decidable c] {y : EStateM ε σ α} (ht : c → Sim S B w x s Q)
    (he : ¬ c → Sim S B w y s Q) : Sim S B w (if c then x else y) s Q := by
  split
  · exact ht ‹_›
  · exact he ‹_›

/-- The rule for a loop over a list. -/
theorem Sim.each {l : List β} {f : β → EStateM ε σ Unit} {I : W → σ → Prop} (hi : I w s)
    (hf : ∀ b ∈ l, ∀ w s, I w s → Sim S B w (f b) s fun _ => I) :
    Sim S B w (l.forM f) s fun _ => I := by
  induction l generalizing w s with
  | nil => exact Sim.ret hi
  | cons b l ih =>
    show Sim S B w (f b >>= fun _ => l.forM f) s _
    refine Sim.seq (hf b List.mem_cons_self w s hi) fun _ w' s' _ hi' => ?_
    exact ih hi' fun b' hb' => hf b' (List.mem_cons_of_mem _ hb')

/-- A loop of updates is an update. -/
theorem Sim.seq_updates {l : List β} {g : β → σ → σ} {f : Unit → EStateM ε σ α}
    (h : Sim S B w (f ()) (l.foldl (fun s b => g b s) s) Q) :
    Sim S B w (l.forM (fun b => modify (g b)) >>= f) s Q := by
  have hrun : ∀ s, (l.forM fun b => modify (g b) : EStateM ε σ Unit) s =
      .ok () (l.foldl (fun s b => g b s) s) := by
    clear h
    induction l with
    | nil => exact fun _ => rfl
    | cons b l ih => exact fun s => ih (g b s)
  unfold Sim at h ⊢
  simp only [Bind.bind, EStateM.bind, hrun]
  exact h

/-- The rule for a loop over a list, with an invariant about what is left of it. -/
theorem Sim.eachRest {l : List β} {f : β → EStateM ε σ Unit} {I : List β → W → σ → Prop} (hi : I l w s)
    (hf : ∀ b ∈ l, ∀ rest w s, I (b :: rest) w s → Sim S B w (f b) s fun _ => I rest) :
    Sim S B w (l.forM f) s fun _ => I [] := by
  induction l generalizing w s with
  | nil => exact Sim.ret hi
  | cons b l ih =>
    show Sim S B w (f b >>= fun _ => l.forM f) s _
    refine Sim.seq (hf b List.mem_cons_self l w s hi) fun _ w' s' _ hi' => ?_
    exact ih hi' fun b' hb' => hf b' (List.mem_cons_of_mem _ hb')

/-- The rule for a loop that counts up. The invariant holds at `k` before the pass for `k`. -/
theorem Sim.upTo {first last : Nat} {f : Nat → EStateM ε σ Unit} {I : Nat → W → σ → Prop}
    (hi : I first w s)
    (hf : ∀ k, first ≤ k → k ≤ last → ∀ w s, I k w s → Sim S B w (f k) s fun _ => I (k + 1)) :
    Sim S B w (forUpTo first last f) s fun _ => I (max first (last + 1)) := by
  suffices key : ∀ n first w s, first + n ≤ last + 1 → I first w s →
      (∀ k, first ≤ k → k ≤ last → ∀ w s, I k w s → Sim S B w (f k) s fun _ => I (k + 1)) →
      Sim S B w ((List.range' first n).forM f) s fun _ => I (first + n) by
    rcases Nat.le_total first (last + 1) with hle | hle
    · have := key (last + 1 - first) first w s (by omega) hi hf
      rwa [show first + (last + 1 - first) = max first (last + 1) by omega] at this
    · rw [forUpTo, show last + 1 - first = 0 by omega, show max first (last + 1) = first by omega]
      exact Sim.ret hi
  intro n
  induction n with
  | zero => intro first w s _ hi _; exact Sim.ret hi
  | succ n ih =>
    intro first w s hn hi hf
    rw [List.range'_succ]
    show Sim S B w (f first >>= fun _ => (List.range' (first + 1) n).forM f) s _
    refine Sim.seq (hf first (Nat.le_refl _) (by omega) w s hi) fun _ w' s' _ hi' => ?_
    have := ih (first + 1) w' s' (by omega) hi' fun k hk => hf k (by omega)
    rwa [show first + 1 + n = first + (n + 1) by omega] at this

/-- The state in which a run ended. -/
def finalState : EStateM.Result ε σ α → σ
  | .ok _ s => s
  | .error _ s => s

/-- The run has returned. -/
def returned : EStateM.Result ε σ α → Bool
  | .ok _ _ => true
  | .error _ _ => false

theorem eq_ok_of_returned {r : EStateM.Result ε σ Unit} (h : returned r = true) :
    r = .ok () (finalState r) := by
  cases r with
  | ok a s => rfl
  | error e s => cases h

/-- What follows changes nothing. -/
theorem finalState_seq {f : α → EStateM ε σ β} (h : ∀ a s, finalState (f a s) = s) :
    finalState ((x >>= f) s) = finalState (x s) := by
  show finalState (EStateM.bind x f s) = _
  unfold EStateM.bind
  cases x s with
  | ok a s' => exact h a s'
  | error e s' => rfl

/-- A program made of steps of `S`, however it ends. -/
abbrev Made (S : σ → σ → Prop) (x : EStateM ε σ α) : Prop :=
  ∀ s, Sim S (fun w s => w = s) s x s fun _ w s => w = s

section Made

variable {S S' : σ → σ → Prop}

theorem Made.each {l : List β} {f : β → EStateM ε σ Unit} (h : ∀ b ∈ l, Made S (f b)) :
    Made S (l.forM f) :=
  fun s => Sim.each (w := s) rfl fun b hb w _ hw => hw ▸ h b hb w

theorem Made.seq {f : α → EStateM ε σ β} (h : Made S x) (hf : ∀ a, Made S (f a)) :
    Made S (x >>= f) :=
  fun s => (h s).seq fun a w _ _ hw => hw ▸ hf a w

theorem Made.mono (h : Made S x) (hS : ∀ {s s'}, S s s' → S' s s') : Made S' x :=
  fun s => (h s).replace (I := fun _ => True) trivial fun _ hs => ⟨trivial, .single (hS hs)⟩

theorem Made.final (h : Made S x) (s : σ) : Relation.ReflTransGen S s (finalState (x s)) := by
  cases hx : x s with
  | ok a s' =>
    obtain ⟨w, hw, rfl⟩ := (h s).ok hx
    exact hw
  | error e s' =>
    obtain ⟨w, hw, rfl⟩ := (h s).error hx
    exact hw

/-- It is enough to look at where the program ends. -/
theorem Made.of_final (h : ∀ s, Relation.ReflTransGen S s (finalState (x s))) : Made S x := by
  intro s
  have hs := h s
  unfold Sim
  cases hx : x s with
  | ok a s' =>
    rw [hx] at hs
    exact ⟨s', hs, rfl⟩
  | error e s' =>
    rw [hx] at hs
    exact ⟨s', hs, rfl⟩

end Made

/-- A triple is a simulation without an abstract state: after a run of `x` from `s` that returns
`a`, `Q a` holds, and after a run that fails, `B` does. -/
abbrev Triple (B : σ → Prop) (x : EStateM ε σ α) (s : σ) (Q : α → σ → Prop) : Prop :=
  Sim (fun (_ _ : Unit) => False) (fun _ => B) () x s fun a _ => Q a

theorem Triple.ok {B : σ → Prop} {Q : α → σ → Prop} {a : α} {s' : σ} (h : Triple B x s Q)
    (hx : x s = .ok a s') : Q a s' := by
  obtain ⟨_, _, hq⟩ := Sim.ok h hx
  exact hq

theorem Triple.error {B : σ → Prop} {Q : α → σ → Prop} {e : ε} {s' : σ} (h : Triple B x s Q)
    (hx : x s = .error e s') : B s' := by
  obtain ⟨_, _, hb⟩ := Sim.error h hx
  exact hb

/-- What holds whatever the program does. -/
theorem Triple.intro {Q : α → σ → Prop} (h : ∀ a s', Q a s') : Triple (fun _ => True) x s Q := by
  unfold Triple Sim
  split
  · exact ⟨(), .refl, h _ _⟩
  · exact ⟨(), .refl, trivial⟩

/-- Nothing is said about a program that fails. -/
theorem Triple.succeeds {B : σ → Prop} {Q : α → σ → Prop} (h : Triple B x s Q) :
    Triple (fun _ => True) x s Q := by
  unfold Triple Sim
  cases hx : x s with
  | ok a s' => exact ⟨(), .refl, h.ok hx⟩
  | error e s' => exact ⟨(), .refl, trivial⟩

/-- A program that is matched by no step. -/
theorem Triple.sim {Q : α → σ → Prop} (h : Triple (B w) x s Q) :
    Sim S B w x s fun a w' s' => w' = w ∧ Q a s' := by
  unfold Sim
  cases hx : x s with
  | ok a s' => exact ⟨w, .refl, rfl, h.ok hx⟩
  | error e s' => exact ⟨w, .refl, h.error hx⟩

/-- What holds in any case. -/
theorem Triple.final {B : σ → Prop} (h : Triple B x s fun _ => B) : B (finalState (x s)) := by
  cases hx : x s with
  | ok a s' => exact h.ok hx
  | error e s' => exact h.error hx

/-! ## Two programs that agree -/

/-- Both return, with related results, or both fail with the same error. -/
def Agree (R : α → β → Prop) : Except ε α → Except ε β → Prop
  | .ok a, .ok b => R a b
  | .error e, .error e' => e = e'
  | _, _ => False

section Agree

variable {γ δ : Type} {R : α → β → Prop} {T : γ → δ → Prop}

theorem Agree.bind {x : Except ε α} {y : Except ε β} {f : α → Except ε γ} {g : β → Except ε δ}
    (h : Agree R x y) (hf : ∀ a b, R a b → Agree T (f a) (g b)) : Agree T (x >>= f) (y >>= g) := by
  cases x with
  | ok a =>
    cases y with
    | ok b => exact hf a b h
    | error e => exact h.elim
  | error e =>
    cases y with
    | ok b => exact h.elim
    | error e' => exact h

/-- The same first step. -/
theorem Agree.bind_same {x : Except ε α} {f : α → Except ε γ} {g : α → Except ε δ}
    (h : ∀ a, x = .ok a → Agree T (f a) (g a)) : Agree T (x >>= f) (x >>= g) := by
  cases x with
  | ok a => exact h a rfl
  | error e => exact rfl

/-- The same loop. -/
theorem Agree.foldlM {l : List γ} {f : α → γ → Except ε α} {g : β → γ → Except ε β} {a : α} {b : β}
    {R : α → β → Prop} (h : R a b) (hf : ∀ a b c, R a b → Agree R (f a c) (g b c)) :
    Agree R (l.foldlM f a) (l.foldlM g b) := by
  induction l generalizing a b with
  | nil => exact h
  | cons c l ih =>
    rw [List.foldlM_cons, List.foldlM_cons]
    exact (hf a b c h).bind fun a b h => ih h

end Agree

/-! ## Two programs with states that agree -/

/-- Both end in the same way, in related states. -/
def Paired {τ : Type} (R : σ → τ → Prop) (x : EStateM ε σ α) (y : EStateM ε τ α) (s : σ) (t : τ) :
    Prop :=
  match x s, y t with
  | .ok a s', .ok b t' => a = b ∧ R s' t'
  | .error e s', .error e' t' => e = e' ∧ R s' t'
  | _, _ => False

section Paired

variable {τ : Type} {R : σ → τ → Prop} {y : EStateM ε τ α} {t : τ}

theorem Paired.seq {f : α → EStateM ε σ β} {g : α → EStateM ε τ β} (h : Paired R x y s t)
    (hf : ∀ a s t, R s t → Paired R (f a) (g a) s t) : Paired R (x >>= f) (y >>= g) s t := by
  unfold Paired at h
  split at h
  · rename_i hx hy
    obtain ⟨rfl, hR⟩ := h
    simp only [Paired, Bind.bind, EStateM.bind, hx, hy]
    exact hf _ _ _ hR
  · rename_i hx hy
    simp only [Paired, Bind.bind, EStateM.bind, hx, hy]
    exact h
  · exact h.elim

/-- The same loop. -/
theorem Paired.each {l : List β} {f : β → EStateM ε σ Unit} {g : β → EStateM ε τ Unit} (h : R s t)
    (hf : ∀ b ∈ l, ∀ s t, R s t → Paired R (f b) (g b) s t) : Paired R (l.forM f) (l.forM g) s t := by
  induction l generalizing s t with
  | nil => exact ⟨rfl, h⟩
  | cons b l ih =>
    show Paired R (f b >>= fun _ => l.forM f) (g b >>= fun _ => l.forM g) s t
    exact (hf b List.mem_cons_self s t h).seq fun _ s t hR =>
      ih hR fun b' hb' => hf b' (List.mem_cons_of_mem _ hb')

end Paired

/-! ## Programs on a part of the state -/

section Within

variable {τ : Type}

/-- `x` on the part `view` of a state, which `put` replaces. `refuse` may stop it before it starts.
-/
def within (view : τ → σ) (put : σ → τ → τ) (refuse : τ → Option (ε × τ)) (x : EStateM ε σ Unit) :
    EStateM ε τ Unit := fun t =>
  match refuse t with
  | some (e, t') => .error e t'
  | none => zoom view put id x t

variable {view : τ → σ} {put : σ → τ → τ} {refuse : τ → Option (ε × τ)} {x : EStateM ε σ Unit} {t t' : τ}

/-- What returns on the whole returned on the part. -/
theorem within_ok (hput : ∀ s t, view (put s t) = s) (h : within view put refuse x t = .ok () t') :
    x (view t) = .ok () (view t') := by
  unfold within zoom at h
  split at h
  · cases h
  · split at h
    · cases h
      rw [hput]
      assumption
    · cases h

/-- What fails on the whole was refused, or failed on the part. -/
theorem within_error (hput : ∀ s t, view (put s t) = s)
    (hrefuse : ∀ t e t', refuse t = some (e, t') → view t' = view t) {e : ε}
    (h : within view put refuse x t = .error e t') :
    view t' = view t ∨ ∃ e', x (view t) = .error e' (view t') := by
  unfold within zoom at h
  split at h
  · cases h
    exact .inl (hrefuse t _ _ ‹_›)
  · split at h
    · cases h
    · cases h
      rw [hput]
      exact .inr ⟨_, ‹_›⟩

end Within

end Refine
