import Mathlib.Logic.Relation
import Mathlib.Logic.Function.Basic
import Mathlib.Data.List.Chain

/-!
# Networks of processes

A network has a process at some addresses, and remembers every message that was sent. A process
acts on an event, given the messages sent so far: it may read any of them, any number of times, in
any order, or never. So a run of the network covers delay, reordering, duplication and loss.

`Joined.run` is the simulation rule for runs. Each action of the process at `i` is matched by steps
of member `i` of an abstract world, which keep the invariant of the world and do not disturb the
other processes; then every run of the network is matched by a run of the world.
-/

namespace Network

variable {ι π μ ε W : Type} [DecidableEq ι]

/-- A network of processes. -/
structure Net (ι π μ : Type) where
  procs : ι → Option π
  sent : List μ

/-- What the process at an address does on an event: its new state, and the messages it sends.
`none` if the event cannot happen. -/
def Behaviour (ι π μ ε : Type) := ι → ε → π → List μ → Option (π × List μ)

namespace Net

/-- One event at a process, if it can happen there. -/
def next (act : Behaviour ι π μ ε) (c : Net ι π μ) (i : ι) (e : ε) : Option (Net ι π μ) :=
  (c.procs i).bind fun p => (act i e p c.sent).map fun (p', out) =>
    { procs := Function.update c.procs i (some p'), sent := c.sent ++ out }

/-- One event that meets the condition `A`. -/
def Step (act : Behaviour ι π μ ε) (A : ι → ε → π → Prop) (c c' : Net ι π μ) : Prop :=
  ∃ i e p, c.procs i = some p ∧ A i e p ∧ c.next act i e = some c'

/-- A run, every event of which meets the condition `A`. -/
def Runs (act : Behaviour ι π μ ε) (A : ι → ε → π → Prop) : Net ι π μ → Net ι π μ → Prop :=
  Relation.ReflTransGen (Step act A)

variable {act : Behaviour ι π μ ε} {A : ι → ε → π → Prop} {c c' : Net ι π μ}

theorem next_some {i : ι} {e : ε} {p : π} (hp : c.procs i = some p)
    (h : c.next act i e = some c') : ∃ p' out, act i e p c.sent = some (p', out) ∧
      c' = { procs := Function.update c.procs i (some p'), sent := c.sent ++ out } := by
  rw [next, hp, Option.bind_some, Option.map_eq_some_iff] at h
  obtain ⟨⟨p', out⟩, ha, hc⟩ := h
  exact ⟨p', out, ha, hc.symm⟩

theorem Runs.mono {A' : ι → ε → π → Prop} (h : Runs act A c c')
    (hA : ∀ i e p, A i e p → A' i e p) : Runs act A' c c' := by
  refine Relation.ReflTransGen.mono (p := Step act A') ?_ _ _ h
  rintro c c' ⟨i, e, p, hp, ha, hn⟩
  exact ⟨i, e, p, hp, hA i e p ha, hn⟩

/-- The events of a run meet what holds of every event that can happen on the way. -/
theorem Runs.strengthen {A' : ι → ε → π → Prop} (h : Runs act A c c')
    (hA : ∀ {c₁ i e p}, Runs act A c c₁ → c₁.procs i = some p → A i e p →
      (act i e p c₁.sent).isSome → A' i e p) : Runs act A' c c' := by
  induction h with
  | refl => exact .refl
  | tail hr hs ih =>
    obtain ⟨i, e, p, hp, ha, hn⟩ := hs
    obtain ⟨p', out, hact, -⟩ := next_some hp hn
    exact ih.tail ⟨i, e, p, hp, hA hr hp ha (by rw [hact]; rfl), hn⟩

/-- What every action of a process keeps holds of all processes along a run, and what it only sends
of all messages. -/
theorem Runs.keeps {R : ι → π → Prop} {M : μ → Prop} (h : Runs act A c c')
    (hact : ∀ {i e p sent p' out}, R i p → (∀ m ∈ sent, M m) → A i e p →
      act i e p sent = some (p', out) → R i p' ∧ ∀ m ∈ out, M m)
    (hc : ∀ i p, c.procs i = some p → R i p) (hm : ∀ m ∈ c.sent, M m) :
    (∀ i p, c'.procs i = some p → R i p) ∧ ∀ m ∈ c'.sent, M m := by
  induction h with
  | refl => exact ⟨hc, hm⟩
  | tail _ hs ih =>
    obtain ⟨i, e, p, hp, ha, hn⟩ := hs
    obtain ⟨p', out, hout, rfl⟩ := next_some hp hn
    obtain ⟨hp', hsent⟩ := hact (ih.1 i p hp) ih.2 ha hout
    refine ⟨fun j q hq => ?_, fun m hm => ?_⟩
    · dsimp only at hq
      by_cases hj : j = i
      · subst hj
        rw [Function.update_self] at hq
        cases hq
        exact hp'
      · rw [Function.update_of_ne hj] at hq
        exact ih.1 j q hq
    · rcases List.mem_append.mp hm with hm | hm
      · exact ih.2 m hm
      · exact hsent m hm

/-- What holds of the messages so far, and of every process given those. -/
theorem Runs.keepsHistory {G : List μ → Prop} {R : List μ → ι → π → Prop} (h : Runs act A c c')
    (hact : ∀ {i e p sent p' out}, G sent → R sent i p → A i e p →
      act i e p sent = some (p', out) → G (sent ++ out) ∧ R (sent ++ out) i p' ∧
        ∀ j q, j ≠ i → R sent j q → R (sent ++ out) j q)
    (hc : ∀ i p, c.procs i = some p → R c.sent i p) (hm : G c.sent) :
    (∀ i p, c'.procs i = some p → R c'.sent i p) ∧ G c'.sent := by
  induction h with
  | refl => exact ⟨hc, hm⟩
  | tail _ hs ih =>
    obtain ⟨i, e, p, hp, ha, hn⟩ := hs
    obtain ⟨p', out, hout, rfl⟩ := next_some hp hn
    obtain ⟨hg, hi, hframe⟩ := hact ih.2 (ih.1 i p hp) ha hout
    refine ⟨fun j q hq => ?_, hg⟩
    dsimp only at hq
    by_cases hj : j = i
    · subst hj
      rw [Function.update_self] at hq
      cases hq
      exact hi
    · rw [Function.update_of_ne hj] at hq
      exact hframe j q hj (ih.1 j q hq)

/-- Plays a script: each step of it chooses the next event, which has to meet the condition. -/
def play (act : Behaviour ι π μ ε) (A : ι → ε → π → Prop) [∀ i e p, Decidable (A i e p)] :
    Net ι π μ → List (Net ι π μ → Option (ι × ε)) → Option (Net ι π μ)
  | c, [] => some c
  | c, choose :: script => do
    let (i, e) ← choose c
    let p ← c.procs i
    if A i e p then (c.next act i e).bind fun c' => play act A c' script else none

theorem Runs.of_play [∀ i e p, Decidable (A i e p)] {script : List (Net ι π μ → Option (ι × ε))}
    (h : c.play act A script = some c') : Runs act A c c' := by
  induction script generalizing c with
  | nil => cases h; exact .refl
  | cons choose script ih =>
    obtain ⟨⟨i, e⟩, -, h⟩ := Option.bind_eq_some_iff.mp h
    obtain ⟨p, hp, h⟩ := Option.bind_eq_some_iff.mp h
    split at h
    · obtain ⟨c₁, h₁, h⟩ := Option.bind_eq_some_iff.mp h
      exact .head ⟨i, e, p, hp, ‹_›, h₁⟩ (ih h)
    · cases h

/-- The states of a run after `c`, one after the other. -/
def Trace (act : Behaviour ι π μ ε) (A : ι → ε → π → Prop) (c : Net ι π μ)
    (cs : List (Net ι π μ)) : Prop := List.IsChain (Step act A) (c :: cs)

/-- A run to the start of a trace continues it backwards. -/
theorem Trace.of_runs {cs : List (Net ι π μ)} (h : Runs act A c c') (ht : Trace act A c' cs) :
    ∃ cs', Trace act A c cs' ∧ ∀ x ∈ c' :: cs, x ∈ c :: cs' := by
  induction h using Relation.ReflTransGen.head_induction_on with
  | refl => exact ⟨cs, ht, fun _ => id⟩
  | head hs _ ih =>
    obtain ⟨cs', ht', hmem⟩ := ih
    exact ⟨_ :: cs', .cons_cons hs ht', fun x hx => List.mem_cons_of_mem _ (hmem x hx)⟩

end Net

/-- The network is the abstract world `w`: its processes are the members, and what was sent is
true. -/
structure Joined (I : W → Prop) (R : W → ι → π → Prop) (M : W → μ → Prop) (w : W)
    (c : Net ι π μ) : Prop where
  inv : I w
  procs : ∀ i p, c.procs i = some p → R w i p
  sent : ∀ m ∈ c.sent, M w m

/-- A simulation of the processes by the members of a world with steps `S i` of member `i`. -/
structure Simulates (act : Behaviour ι π μ ε) (A : ι → ε → π → Prop) (S : ι → W → W → Prop)
    (I : W → Prop) (R : W → ι → π → Prop) (M : W → μ → Prop) : Prop where
  act : ∀ {w i e p sent p' out}, I w → R w i p → (∀ m ∈ sent, M w m) → A i e p →
    act i e p sent = some (p', out) → ∃ w', S i w w' ∧ R w' i p' ∧ ∀ m ∈ out, M w' m
  inv : ∀ {w w' i}, I w → S i w w' → I w'
  frame : ∀ {w w' i j p}, I w → S i w w' → j ≠ i → R w j p → R w' j p
  sent : ∀ {w w' i m}, I w → S i w w' → M w m → M w' m

variable {act : Behaviour ι π μ ε} {A : ι → ε → π → Prop} {S : ι → W → W → Prop} {I : W → Prop}
  {R : W → ι → π → Prop} {M : W → μ → Prop} {w : W} {c c' : Net ι π μ}

theorem Joined.step (hsim : Simulates act A S I R M) (h : Joined I R M w c)
    (hs : Net.Step act A c c') : ∃ w', (∃ i, S i w w') ∧ Joined I R M w' c' := by
  obtain ⟨i, e, p, hp, ha, hn⟩ := hs
  obtain ⟨p', out, hact, rfl⟩ := Net.next_some hp hn
  obtain ⟨w', hsteps, hr, hout⟩ := hsim.act h.inv (h.procs i p hp) h.sent ha hact
  refine ⟨w', ⟨i, hsteps⟩, hsim.inv h.inv hsteps, fun j q hq => ?_, fun m hm => ?_⟩
  · dsimp only at hq
    by_cases hj : j = i
    · subst hj
      rw [Function.update_self] at hq; cases hq
      exact hr
    · rw [Function.update_of_ne hj] at hq
      exact hsim.frame h.inv hsteps hj (h.procs j q hq)
  · rcases List.mem_append.mp hm with hm | hm
    · exact hsim.sent h.inv hsteps (h.sent m hm)
    · exact hout m hm

/-- A run of the network is matched by a run of the world. -/
theorem Joined.run (hsim : Simulates act A S I R M) (h : Joined I R M w c)
    (hr : Net.Runs act A c c') :
    ∃ w', Relation.ReflTransGen (fun w w' => I w ∧ ∃ i, S i w w') w w' ∧ Joined I R M w' c' := by
  induction hr with
  | refl => exact ⟨w, .refl, h⟩
  | tail _ hs ih =>
    obtain ⟨w₁, hw, h₁⟩ := ih
    obtain ⟨w₂, hw', h₂⟩ := h₁.step hsim hs
    exact ⟨w₂, hw.tail ⟨h₁.inv, hw'⟩, h₂⟩

/-- Each state of a trace is a world from which the last one can be reached. -/
theorem Joined.trace (hsim : Simulates act A S I R M) (h : Joined I R M w c)
    {cs : List (Net ι π μ)} (ht : Net.Trace act A c cs) :
    ∃ w', Relation.ReflTransGen (fun w w' => I w ∧ ∃ i, S i w w') w w' ∧
      ∀ c₁ ∈ c :: cs, ∃ w₁, Relation.ReflTransGen (fun w w' => I w ∧ ∃ i, S i w w') w₁ w' ∧
        I w' ∧ Joined I R M w₁ c₁ := by
  induction cs generalizing w c with
  | nil =>
    refine ⟨w, .refl, fun c₁ hc => ?_⟩
    rw [List.mem_singleton.mp hc]
    exact ⟨w, .refl, h.inv, h⟩
  | cons c' cs ih =>
    obtain ⟨hs, ht⟩ := List.isChain_cons_cons.mp ht
    obtain ⟨w₁, hw₁, h₁⟩ := h.step hsim hs
    obtain ⟨w', hw', hall⟩ := ih h₁ ht
    have hpath := Relation.ReflTransGen.head ⟨h.inv, hw₁⟩ hw'
    refine ⟨w', hpath, fun c₁ hc => ?_⟩
    rcases List.mem_cons.mp hc with rfl | hc
    · obtain ⟨_, _, hi, _⟩ := hall c' List.mem_cons_self
      exact ⟨w, hpath, hi, h⟩
    · exact hall c₁ hc

end Network
