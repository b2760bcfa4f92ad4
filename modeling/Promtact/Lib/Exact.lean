import Promtact.Lib.Sim

/-!
# When a program fails, and when two programs are the same

`FailsIff P x s Q` says that a run of `x` from the state `s` fails exactly if `P`, and that it
returns with `Q` otherwise. The rules follow the constructors of a program, as those of `Sim` do,
and build up the condition: a sequence fails if its first part does, or if the rest does. `Checks P
c` is the same for a check without a state.

`Twin x y s Q` says that `x` and `y` do the same from `s`, and that `Q` holds if they return.
-/

namespace Refine

variable {ε σ α β : Type}

/-- The program fails exactly if `P`. Otherwise it returns, with `Q`. -/
def FailsIff (P : Prop) (x : EStateM ε σ α) (s : σ) (Q : α → σ → Prop) : Prop :=
  match x s with
  | .ok a s' => ¬ P ∧ Q a s'
  | .error _ _ => P

/-- The check fails exactly if `P`. -/
def Checks (P : Prop) : Except ε α → Prop
  | .ok _ => ¬ P
  | .error _ => P

theorem Checks.congr {P F : Prop} {c : Except ε α} (h : Checks P c) (hp : P ↔ F) : Checks F c := by
  rwa [← propext hp]

theorem Checks.ok {P : Prop} {c : Except ε α} (h : Checks P c) (hp : ¬ P) : ∃ a, c = .ok a := by
  cases c with
  | ok a => exact ⟨a, rfl⟩
  | error e => exact absurd h hp

theorem Checks.not_of_ok {P : Prop} {c : Except ε α} {a : α} (h : Checks P c) (hc : c = .ok a) : ¬ P := by
  subst hc
  exact h

theorem Checks.seq {P F : Prop} {c : Except ε α} {f : α → Except ε β} (h : Checks P c)
    (hf : ∀ a, c = .ok a → Checks F (f a)) : Checks (P ∨ F) (c >>= f) := by
  cases c with
  | ok a => exact (hf a rfl).congr (or_iff_right h).symm
  | error e => exact .inl h

/-- What follows the check does not fail. -/
theorem Checks.map {P : Prop} {c : Except ε α} (h : Checks P c) (f : α → β) :
    Checks P (c >>= fun a => pure (f a)) := by
  cases c with
  | ok a => exact h
  | error e => exact h

/-- A loop of checks fails if one of them does. -/
theorem Checks.foldlM {γ : Type} {l : List β} {f : γ → β → Except ε γ} {F : β → Prop}
    (hf : ∀ a b, Checks (F b) (f a b)) (a : γ) : Checks (∃ b ∈ l, F b) (l.foldlM f a) := by
  induction l generalizing a with
  | nil =>
    show ¬ _
    simp only [List.not_mem_nil, false_and, exists_false, not_false_eq_true]
  | cons b l ih =>
    rw [List.foldlM_cons]
    refine ((hf a b).seq fun a' _ => ih a').congr ?_
    simp only [List.mem_cons, exists_eq_or_imp]

namespace FailsIff

variable {P F : Prop} {x : EStateM ε σ α} {s : σ} {Q Q' : α → σ → Prop}

/-- What holds of a run that returns. -/
theorem triple (h : FailsIff P x s Q) : Triple (fun _ => True) x s Q := by
  unfold FailsIff at h
  unfold Triple Sim
  cases hx : x s with
  | ok a s' =>
    rw [hx] at h
    exact ⟨(), .refl, h.2⟩
  | error e s' => exact ⟨(), .refl, trivial⟩

theorem congr (h : FailsIff P x s Q) (hp : P ↔ F) : FailsIff F x s Q := by
  rwa [← propext hp]

theorem mono (h : FailsIff P x s Q) (hq : ¬ P → ∀ a s', Q a s' → Q' a s') : FailsIff P x s Q' := by
  unfold FailsIff at h ⊢
  split at h
  · exact ⟨h.1, hq h.1 _ _ h.2⟩
  · exact h

/-- The state in which the program returns has a name. -/
theorem final (h : FailsIff P x s Q) : FailsIff P x s fun a s' => Q a s' ∧ s' = finalState (x s) := by
  unfold FailsIff at h ⊢
  cases hx : x s with
  | ok a s' =>
    rw [hx] at h
    exact ⟨h.1, h.2, rfl⟩
  | error e s' =>
    rw [hx] at h
    exact h

theorem ret {a : α} (h : Q a s) : FailsIff False (pure a : EStateM ε σ α) s Q := ⟨id, h⟩

theorem fail {e : ε} : FailsIff True (throw e : EStateM ε σ α) s Q := trivial

theorem update {f : σ → σ} {Q : Unit → σ → Prop} (h : Q () (f s)) :
    FailsIff False (modify f : EStateM ε σ Unit) s Q := ⟨id, h⟩

/-- The rest of the program runs from a state in which the first part has not failed. -/
theorem seq {f : α → EStateM ε σ β} {R : β → σ → Prop} (h : FailsIff P x s Q)
    (hf : ¬ P → ∀ a s', Q a s' → FailsIff F (f a) s' R) : FailsIff (P ∨ F) (x >>= f) s R := by
  unfold FailsIff at h
  cases hx : x s with
  | ok a s' =>
    rw [hx] at h
    have hr : (x >>= f) s = f a s' := by
      simp only [Bind.bind, EStateM.bind, hx]
    have hrest := (hf h.1 a s' h.2).congr (or_iff_right h.1).symm
    unfold FailsIff at hrest ⊢
    rwa [hr]
  | error e s' =>
    rw [hx] at h
    have hr : (x >>= f) s = .error e s' := by
      simp only [Bind.bind, EStateM.bind, hx]
    unfold FailsIff
    rw [hr]
    exact .inl h

/-- The first part does not fail. -/
theorem seq_ok {f : α → EStateM ε σ β} {R : β → σ → Prop} (h : FailsIff False x s Q)
    (hf : ∀ a s', Q a s' → FailsIff P (f a) s' R) : FailsIff P (x >>= f) s R :=
  (h.seq fun _ => hf).congr (false_or P).to_iff

/-- The rest of the program does not fail. -/
theorem seq_then {f : α → EStateM ε σ β} {R : β → σ → Prop} (h : FailsIff P x s Q)
    (hf : ¬ P → ∀ a s', Q a s' → FailsIff False (f a) s' R) : FailsIff P (x >>= f) s R :=
  (h.seq hf).congr (or_false P).to_iff

theorem seq_get {f : σ → EStateM ε σ α} (h : FailsIff P (f s) s Q) : FailsIff P (get >>= f) s Q := h

theorem seq_update {g : σ → σ} {f : Unit → EStateM ε σ α} (h : FailsIff P (f ()) (g s) Q) :
    FailsIff P (modify g >>= f) s Q := h

/-- A check, and what follows if it passes. -/
theorem seq_check {c : Except ε β} {f : β → EStateM ε σ α} (hc : Checks P c)
    (h : ∀ b, c = .ok b → FailsIff F (f b) s Q) : FailsIff (P ∨ F) (liftM c >>= f) s Q := by
  cases c with
  | ok b => exact (h b rfl).congr (or_iff_right hc).symm
  | error e => exact .inl hc

/-- A check after which nothing fails. -/
theorem seq_check_then {c : Except ε β} {f : β → EStateM ε σ α} (hc : Checks P c)
    (h : ∀ b, c = .ok b → FailsIff False (f b) s Q) : FailsIff P (liftM c >>= f) s Q :=
  (seq_check hc h).congr (or_false P).to_iff

/-- A check that passes. -/
theorem seq_pass {c : Except ε β} {b : β} {f : β → EStateM ε σ α} (hc : c = .ok b)
    (h : FailsIff P (f b) s Q) : FailsIff P (liftM c >>= f) s Q := by
  subst hc
  exact h

theorem ite {c : Prop} [Decidable c] {y : EStateM ε σ α} (ht : c → FailsIff P x s Q)
    (he : ¬ c → FailsIff F y s Q) :
    FailsIff (c ∧ P ∨ ¬ c ∧ F) (if c then x else y) s Q := by
  split
  · rename_i hc
    exact (ht hc).congr (by tauto)
  · rename_i hc
    exact (he hc).congr (by tauto)

/-- A branch that is not taken is left out of the condition. -/
theorem ite_left {c : Prop} [Decidable c] {y : EStateM ε σ α} (ht : c → FailsIff P x s Q)
    (he : ¬ c → FailsIff False y s Q) : FailsIff (c ∧ P) (if c then x else y) s Q :=
  (ite ht he).congr (by tauto)

theorem ite_right {c : Prop} [Decidable c] {y : EStateM ε σ α} (ht : c → FailsIff False x s Q)
    (he : ¬ c → FailsIff P y s Q) : FailsIff (¬ c ∧ P) (if c then x else y) s Q :=
  (ite ht he).congr (by tauto)

/-- A loop that fails if one of its bodies does, whatever the others have done. -/
theorem every {l : List β} {f : β → EStateM ε σ Unit} {F : β → Prop} {I : σ → Prop} (hi : I s)
    (hf : ∀ b ∈ l, ∀ s, I s → FailsIff (F b) (f b) s fun _ => I) :
    FailsIff (∃ b ∈ l, F b) (l.forM f) s fun _ => I := by
  induction l generalizing s with
  | nil => exact (ret hi).congr (by simp only [List.not_mem_nil, false_and, exists_false])
  | cons b l ih =>
    show FailsIff _ (f b >>= fun _ => l.forM f) s _
    refine ((hf b List.mem_cons_self s hi).seq fun _ _ s' hi' => ih hi' fun b' hb' => ?_).congr ?_
    · exact hf b' (List.mem_cons_of_mem _ hb')
    · simp only [List.mem_cons, exists_eq_or_imp]

/-- A loop over a list that uses up what there is room for, one for each `b` with `p b`. `I k` holds
when `k` is used. -/
theorem each {l : List β} {f : β → EStateM ε σ Unit} {p : β → Bool} (room : Nat) {k : Nat}
    {I : Nat → σ → Prop} (hk : k ≤ room) (hi : I k s)
    (hf : ∀ b ∈ l, ∀ k s, k ≤ room → I k s →
      FailsIff (room < k + (p b).toNat) (f b) s fun _ => I (k + (p b).toNat)) :
    FailsIff (room < k + l.countP p) (l.forM f) s fun _ => I (k + l.countP p) := by
  induction l generalizing k s with
  | nil =>
    have hle : ¬ room < k + List.countP p [] := Nat.not_lt.mpr hk
    exact FailsIff.congr (P := False) ⟨id, hi⟩ (iff_of_false id hle)
  | cons b l ih =>
    have hb := hf b List.mem_cons_self k s hk hi
    have hsum : (b :: l).countP p = (p b).toNat + l.countP p := by
      cases hp : p b with
      | true => rw [List.countP_cons_of_pos hp, Bool.toNat_true, Nat.add_comm]
      | false => rw [List.countP_cons_of_neg (by rw [hp]; decide), Bool.toNat_false, Nat.zero_add]
    rw [hsum, ← Nat.add_assoc]
    show FailsIff _ (f b >>= fun _ => l.forM f) s _
    refine (hb.seq fun hle _ s' hi' => ih (by omega) hi' fun b' hb' => ?_).congr (by omega)
    exact hf b' (List.mem_cons_of_mem _ hb')

end FailsIff

/-! ## Two programs that do the same -/

/-- The two programs do the same, and `Q` holds if they return. -/
def Twin (x y : EStateM ε σ α) (s : σ) (Q : α → σ → Prop) : Prop :=
  x s = y s ∧ Triple (fun _ => True) y s Q

namespace Twin

variable {x y : EStateM ε σ α} {s : σ} {Q Q' : α → σ → Prop}

theorem mono (h : Twin x y s Q) (hq : ∀ a s', Q a s' → Q' a s') : Twin x y s Q' :=
  ⟨h.1, h.2.mono fun a _ s' _ => hq a s'⟩

/-- The same program. -/
theorem same (h : Triple (fun _ => True) x s Q) : Twin x x s Q := ⟨rfl, h⟩

protected theorem refl (x : EStateM ε σ α) (s : σ) : Twin x x s fun _ _ => True := by
  refine same ?_
  unfold Triple Sim
  split
  · exact ⟨(), .refl, trivial⟩
  · exact ⟨(), .refl, trivial⟩

theorem ret {a : α} (h : Q a s) : Twin (pure a) (pure a : EStateM ε σ α) s Q := same (Sim.ret h)

theorem update {f g : σ → σ} {Q : Unit → σ → Prop} (hfg : f s = g s) (h : Q () (g s)) :
    Twin (modify f) (modify g : EStateM ε σ Unit) s Q := by
  refine ⟨?_, Sim.update h⟩
  show EStateM.Result.ok () (f s) = _
  rw [hfg]
  rfl

theorem seq {f g : α → EStateM ε σ β} {R : β → σ → Prop} (h : Twin x y s Q)
    (hf : ∀ a s', Q a s' → Twin (f a) (g a) s' R) : Twin (x >>= f) (y >>= g) s R := by
  refine ⟨?_, h.2.seq fun a _ s' _ hq => (hf a s' hq).2⟩
  simp only [Bind.bind, EStateM.bind, h.1]
  cases hy : y s with
  | ok a s' => exact (hf a s' (h.2.ok hy)).1
  | error e s' => rfl

theorem seq_get {f g : σ → EStateM ε σ α} (h : Twin (f s) (g s) s Q) :
    Twin (get >>= f) (get >>= g) s Q := h

theorem seq_update {f g : σ → σ} {x y : Unit → EStateM ε σ α} (hfg : f s = g s)
    (h : Twin (x ()) (y ()) (g s) Q) : Twin (modify f >>= x) (modify g >>= y) s Q :=
  (update (Q := fun _ s' => s' = g s) hfg rfl).seq fun _ _ hs => hs ▸ h

/-- The same check. -/
theorem seq_check {c d : Except ε β} {f g : β → EStateM ε σ α} (hcd : c = d)
    (h : ∀ b, d = .ok b → Twin (f b) (g b) s Q) : Twin (liftM c >>= f) (liftM d >>= g) s Q := by
  subst hcd
  cases c with
  | ok b => exact h b rfl
  | error e => exact ⟨rfl, ⟨(), .refl, trivial⟩⟩

/-- Two programs that decide alike. -/
theorem ite {c d : Prop} [Decidable c] [Decidable d] {x' y' : EStateM ε σ α} (hcd : c ↔ d)
    (ht : d → Twin x y s Q) (he : ¬ d → Twin x' y' s Q) :
    Twin (if c then x else x') (if d then y else y') s Q := by
  by_cases hd : d
  · rw [if_pos hd, if_pos (hcd.mpr hd)]
    exact ht hd
  · rw [if_neg hd, if_neg (mt hcd.mp hd)]
    exact he hd

theorem each {l : List β} {f g : β → EStateM ε σ Unit} {I : σ → Prop} (hi : I s)
    (hf : ∀ b ∈ l, ∀ s, I s → Twin (f b) (g b) s fun _ => I) :
    Twin (l.forM f) (l.forM g) s fun _ => I := by
  induction l generalizing s with
  | nil => exact ret hi
  | cons b l ih =>
    show Twin (f b >>= fun _ => l.forM f) (g b >>= fun _ => l.forM g) s _
    refine (hf b List.mem_cons_self s hi).seq fun _ s' hi' => ih hi' fun b' hb' => ?_
    exact hf b' (List.mem_cons_of_mem _ hb')

end Twin

end Refine
