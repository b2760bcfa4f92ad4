import Promtact.Dst.Run

/-!
# A step, call by call (`dst/engine.go`)

`Flow` of `Promtact.Dst.Run` forgets where a message comes from. `Turn` keeps it: a message that is
settled was returned by `Drain`, and the cluster changes only by what its calls return. `Panics`
says which call of the cluster a panic comes from, and in which state.
-/

namespace Promtact.Dst

open Refine

variable {γ μ ε ρ : Type}

namespace Run

section

variable (P : Protocol γ μ ε) (rand : Rand ρ) (sha256 : List UInt8 → List UInt8)

/-- The calls of which a step is made. `drain` settles the messages it returns, up to a panic of
`Int63n`. -/
inductive Turn : Run γ μ ρ → Run γ μ ρ → Prop
  | time (r : Run γ μ ρ) : Turn r { r with now := r.now + 1 }
  | tick (r : Run γ μ ρ) (id : Nat) (c : γ) (h : P.tick id r.cluster = .ok c) :
    Turn r { r with cluster := c }
  | drain (r : Run γ μ ρ) (id : Nat) (out settled : List μ) (c : γ)
    (h : P.drain id r.cluster = .ok (out, c)) (hs : settled <+: out) :
    Turn r (settled.foldl (fun r m => settle P rand m r) { r with cluster := c })
  | take (r : Run γ μ ρ) (ev : Event μ) (queue : List (Event μ)) (h : r.due = some (ev, queue)) :
    Turn r (take P sha256 ev queue r)
  | deliver (r : Run γ μ ρ) (dst : Nat) (m : μ) (c : γ) (h : P.deliver dst m r.cluster = .ok c) :
    Turn r { r with cluster := c }

/-- A call of the cluster panics with `e` in the state `c`. -/
inductive Refuses (c : γ) (e : ε) : Prop
  | tick (id : Nat) (h : P.tick id c = .error e)
  | drain (id : Nat) (h : P.drain id c = .error e)
  | deliver (dst : Nat) (m : μ) (h : P.deliver dst m c = .error e)

/-- The panics of a program are those of the cluster, in the state in which it ends. -/
def Panics {α : Type} (x : RunM γ μ ε ρ α) : Prop :=
  ∀ r e r', x r = .error (.panic e) r' → Refuses P r'.cluster e

end

variable {P : Protocol γ μ ε} {rand : Rand ρ} {sha256 : List UInt8 → List UInt8} {α β : Type}

/-! ## The turns of a step -/

theorem map_ok {x : Except ε γ} {a : Unit} {c : γ} (h : x.map ((), ·) = .ok (a, c)) : x = .ok c := by
  cases x with
  | ok c' =>
    cases h
    rfl
  | error e => cases h

/-- A call that changes the cluster by a turn. -/
theorem call_turn {f : γ → Except ε (Unit × γ)}
    (h : ∀ (r : Run γ μ ρ) c, f r.cluster = .ok ((), c) →
      Turn P rand sha256 r { r with cluster := c }) : Made (Turn P rand sha256) (call f) := by
  refine Made.of_final fun r => ?_
  cases hf : f r.cluster with
  | ok p =>
    rw [call_ok hf]
    exact .single (h r p.2 hf)
  | error e =>
    rw [call_error hf]
    exact .refl

/-- What the inner loop of `Collect` has settled when it ends. -/
theorem settles (out : List μ) (r : Run γ μ ρ) : ∃ settled, settled <+: out ∧
    finalState ((out.forM (schedule P rand) : RunM γ μ ε ρ Unit) r) =
      settled.foldl (fun r m => settle P rand m r) r := by
  induction out generalizing r with
  | nil => exact ⟨[], List.prefix_rfl, rfl⟩
  | cons m rest ih =>
    obtain ⟨settled, hfirst, hfinal⟩ := ih (settle P rand m r)
    show ∃ settled, settled <+: m :: rest ∧ finalState (EStateM.bind (schedule P rand m)
      (fun _ => rest.forM (schedule P rand)) r) = _
    rw [EStateM.bind, schedule_run]
    by_cases hf : (roll rand r.drop r.delay r.rng).1 = .int63n
    · rw [if_pos hf]
      exact ⟨[m], List.cons_prefix_cons.mpr ⟨rfl, List.nil_prefix⟩, rfl⟩
    · rw [if_neg hf]
      exact ⟨m :: settled, List.cons_prefix_cons.mpr ⟨rfl, hfirst⟩, hfinal⟩

theorem drain_turn (id : Nat) : Made (Turn P rand sha256)
    (call (P.drain id) >>= fun out => out.forM (schedule P rand)) := by
  refine Made.of_final fun r => ?_
  show Relation.ReflTransGen _ r (finalState (EStateM.bind (call (P.drain id))
    (fun out => out.forM (schedule P rand)) r))
  cases hd : P.drain id r.cluster with
  | error e =>
    rw [EStateM.bind, call_error hd]
    exact .refl
  | ok p =>
    rw [EStateM.bind, call_ok hd]
    obtain ⟨settled, hfirst, hfinal⟩ : ∃ settled, settled <+: p.1 ∧ finalState ((p.1.forM
      (schedule P rand) : RunM γ μ ε ρ Unit) { r with cluster := p.2 }) = _ := settles _ _
    show Relation.ReflTransGen _ r (finalState ((p.1.forM (schedule P rand) : RunM γ μ ε ρ Unit)
      { r with cluster := p.2 }))
    rw [hfinal]
    exact .single (.drain r id p.1 settled p.2 hd hfirst)

theorem collect_turns : Made (Turn P rand sha256) (collect P rand) := fun r =>
  Sim.seq_get (Made.each (fun id _ => drain_turn id) r)

theorem deliverAll_turns (passes : Nat) :
    Made (Turn P rand sha256) (deliverAll P rand sha256 passes) := by
  have hdeliver (dst : Nat) (m : μ) : Made (Turn P rand sha256)
      (call fun c => (P.deliver dst m c).map ((), ·)) :=
    call_turn fun r c h => .deliver r dst m c (map_ok h)
  induction passes with
  | zero =>
    refine Made.of_final fun r => ?_
    cases hdue : r.due with
    | none => rw [deliverAll_none hdue]; exact .refl
    | some next => rw [deliverAll_stop hdue]; exact .refl
  | succ passes ih =>
    intro r
    cases hdue : r.due with
    | none =>
      rw [Sim, deliverAll_none hdue]
      exact ⟨r, .refl, rfl⟩
    | some next =>
      rw [Sim, deliverAll_succ hdue]
      refine Sim.seq (Q := fun _ w r => w = r) ?_ fun _ w _ _ hw => hw ▸ ih w
      exact Sim.step (.take r next.1 next.2 hdue) (Sim.seq_update
        (((hdeliver _ _).seq fun _ => collect_turns) _))

/-- A step is made of turns. -/
theorem step_turns (passes : Nat) : Made (Turn P rand sha256) (step P rand sha256 passes) := by
  have htick (id : Nat) : Made (Turn P rand sha256) (call fun c => (P.tick id c).map ((), ·)) :=
    call_turn fun r c h => .tick r id c (map_ok h)
  refine Made.seq (fun r => ?_) fun _ => deliverAll_turns passes
  exact Sim.step (.time r) (Sim.seq_update (Sim.seq_get
    (((Made.each fun id _ => htick id).seq fun _ => collect_turns) _)))

/-! ## The panics of a step -/

theorem Panics.seq {x : RunM γ μ ε ρ α} {f : α → RunM γ μ ε ρ β} (hx : Panics P x)
    (hf : ∀ a, Panics P (f a)) : Panics P (x >>= f) := by
  intro r e r' h
  replace h : EStateM.bind x f r = .error (.panic e) r' := h
  unfold EStateM.bind at h
  split at h
  · exact hf _ _ _ _ h
  · rename_i hr
    cases h
    exact hx _ _ _ hr

theorem Panics.each {l : List β} {f : β → RunM γ μ ε ρ Unit} (h : ∀ b, Panics P (f b)) :
    Panics P (l.forM f) := by
  induction l with
  | nil => exact fun r e r' hr => by cases hr
  | cons b l ih => exact (h b).seq fun _ => ih

theorem Panics.call {f : γ → Except ε (α × γ)}
    (h : ∀ c e, f c = .error e → Refuses P c e) : Panics P (call f : RunM γ μ ε ρ α) := by
  intro r e r' hr
  cases hf : f r.cluster with
  | ok p =>
    rw [call_ok hf] at hr
    cases hr
  | error e' =>
    rw [call_error hf] at hr
    cases hr
    exact h _ _ hf

theorem map_error {x : Except ε γ} {e : ε} (h : x.map ((), ·) = .error e) : x = .error e := by
  cases x with
  | ok c => cases h
  | error e' => exact congrArg Except.error (Except.error.inj h)

theorem schedule_panics (m : μ) : Panics P (schedule P rand m) := by
  intro r e r' h
  rw [schedule_run] at h
  split at h <;> cases h

theorem collect_panics : Panics P (collect P rand) := by
  intro r e r' h
  exact Panics.each (fun id => (Panics.call fun c e h => .drain id h).seq fun _ =>
    Panics.each schedule_panics) r e r' h

theorem deliverAll_panics (passes : Nat) : Panics P (deliverAll P rand sha256 passes) := by
  induction passes with
  | zero =>
    intro r e r' h
    cases hdue : r.due with
    | none => rw [deliverAll_none hdue] at h; cases h
    | some next => rw [deliverAll_stop hdue] at h; cases h
  | succ passes ih =>
    intro r e r' h
    cases hdue : r.due with
    | none => rw [deliverAll_none hdue] at h; cases h
    | some next =>
      rw [deliverAll_succ hdue] at h
      have hdeliver : Panics P (deliver P rand sha256 next.1 next.2) := fun r e r' h =>
        ((Panics.call fun c e h => .deliver _ _ (map_error h)).seq fun _ => collect_panics)
          (take P sha256 next.1 next.2 r) e r' h
      exact (hdeliver.seq fun _ => ih) r e r' h

/-- A panic of a step, other than that of `Int63n`, comes from a call of the cluster. -/
theorem step_panics (passes : Nat) : Panics P (step P rand sha256 passes) := by
  refine Panics.seq (fun r e r' h => ?_) fun _ => deliverAll_panics passes
  exact ((Panics.each fun id => Panics.call fun c e h => .tick id (map_error h)).seq fun _ =>
    collect_panics) { r with now := r.now + 1 } e r' h

end Run

end Promtact.Dst
