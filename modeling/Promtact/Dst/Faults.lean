import Promtact.Dst.Run
import Mathlib.Algebra.BigOperators.Group.Finset.Piecewise

/-!
# The draws and the injected faults (`dst/engine.go`, `dst/inject.go`)

* `faults_keep_schedule`: the draws for the k-th message of a run depend on the parameters of the run
  only, and injectors that allow everything change nothing.
* `injected_faults_counted`: a message that is not lost enters the schedule if every injector allows
  it, and is counted otherwise, unless the first injector that denies it has the empty name. The
  engine takes that name for no injector at all (`unnamed_injector_ignored`).
-/

namespace Promtact.Dst

open Refine

variable {γ μ ε ρ : Type}

namespace Run

variable {P : Protocol γ μ ε} {rand : Rand ρ} {sha256 : List UInt8 → List UInt8}

/-! ## One message -/

/-- The first injector that denies a message. -/
def denier (injectors : List Injector) (now : Nat) (route : Nat × Nat) (d : Nat) : Option Injector :=
  injectors.find? fun i => !i.allow now route.1 route.2 d

/-- A message that is lost or for which the draws panic. -/
theorem settle_fate {r : Run γ μ ρ} {m : μ} {fate : Fate} {rng : ρ}
    (h : roll rand r.drop r.delay r.rng = (fate, rng)) (hf : ∀ d, fate ≠ .delayed d) :
    settle P rand m r = r.log m fate none rng := by
  unfold settle
  rw [h]
  cases fate with
  | delayed d => exact absurd rfl (hf d)
  | lost | int63n => rfl

/-- A message that an injector denies. -/
theorem settle_blocked {r : Run γ μ ρ} {m : μ} {d : Nat} {rng : ρ} {i : Injector}
    (h : roll rand r.drop r.delay r.rng = (.delayed d, rng))
    (hi : denier r.injectors r.now (P.route m) d = some i) (hname : i.name ≠ "") :
    settle P rand m r = { r.log m (.delayed d) none rng with
      injected := Function.update r.injected i.name (r.injected i.name + 1) } := by
  have hblocked : r.blockedBy (P.route m).1 (P.route m).2 d = i.name := Engine.blockedBy_some hi
  unfold settle
  rw [h]
  show ite _ _ _ = _
  rw [hblocked, if_pos hname]

/-- The event of a message that enters the schedule. -/
def entry (P : Protocol γ μ ε) (m : μ) (d : Nat) (r : Run γ μ ρ) : Event μ :=
  { due := r.now + d, seq := r.seq + 1, src := (P.route m).1, dst := (P.route m).2, msg := m }

theorem settle_enters {r : Run γ μ ρ} {m : μ} {d : Nat} {rng : ρ}
    (h : roll rand r.drop r.delay r.rng = (.delayed d, rng))
    (hi : ∀ i, denier r.injectors r.now (P.route m) d = some i → i.name = "") :
    settle P rand m r = { r.log m (.delayed d) (some (entry P m d r)) rng with
      seq := r.seq + 1
      queue := Heap.push earlier (entry P m d r) r.queue } := by
  have hblocked : r.blockedBy (P.route m).1 (P.route m).2 d = "" := by
    cases hd : denier r.injectors r.now (P.route m) d with
    | none => exact Engine.blockedBy_none hd
    | some i => exact (Engine.blockedBy_some hd).trans (hi i hd)
  unfold settle
  rw [h]
  show ite _ _ _ = _
  rw [hblocked, if_neg (not_not.mpr rfl)]
  rfl

/-- The three things that can become of a message. -/
theorem settle_cases (P : Protocol γ μ ε) (rand : Rand ρ) (m : μ) (r : Run γ μ ρ) {Q : Run γ μ ρ → Prop}
    (hfate : ∀ fate rng, roll rand r.drop r.delay r.rng = (fate, rng) → (∀ d, fate ≠ .delayed d) →
      Q (r.log m fate none rng))
    (hblocked : ∀ d rng i, roll rand r.drop r.delay r.rng = (.delayed d, rng) →
      denier r.injectors r.now (P.route m) d = some i → i.name ≠ "" →
      Q { r.log m (.delayed d) none rng with
        injected := Function.update r.injected i.name (r.injected i.name + 1) })
    (henters : ∀ d rng, roll rand r.drop r.delay r.rng = (.delayed d, rng) →
      (∀ i, denier r.injectors r.now (P.route m) d = some i → i.name = "") →
      Q { r.log m (.delayed d) (some (entry P m d r)) rng with
        seq := r.seq + 1
        queue := Heap.push earlier (entry P m d r) r.queue }) :
    Q (settle P rand m r) := by
  obtain ⟨fate, rng, h⟩ : ∃ fate rng, roll rand r.drop r.delay r.rng = (fate, rng) := ⟨_, _, rfl⟩
  by_cases hf : ∃ d, fate = .delayed d
  · obtain ⟨d, rfl⟩ := hf
    by_cases hi : ∃ i, denier r.injectors r.now (P.route m) d = some i ∧ i.name ≠ ""
    · obtain ⟨i, hi, hname⟩ := hi
      rw [settle_blocked h hi hname]
      exact hblocked d rng i h hi hname
    · have hnone : ∀ i, denier r.injectors r.now (P.route m) d = some i → i.name = "" :=
        fun i hd => by_contra fun hname => hi ⟨i, hd, hname⟩
      rw [settle_enters h hnone]
      exact henters d rng h hnone
  · have hnot : ∀ d, fate ≠ .delayed d := fun d hd => hf ⟨d, hd⟩
    rw [settle_fate h hnot]
    exact hfate fate rng h hnot

/-! ## The draws -/

/-- The draws for the first `n` messages, and the stream after them. -/
def rolls (rand : Rand ρ) (drop : Int) (delay : Nat) (rng : ρ) : Nat → List Fate × ρ
  | 0 => ([], rng)
  | n + 1 =>
    let (fates, rng) := rolls rand drop delay rng n
    let (fate, rng) := roll rand drop delay rng
    (fates ++ [fate], rng)

theorem rolls_succ (rand : Rand ρ) (drop : Int) (delay : Nat) (rng : ρ) (n : Nat) :
    rolls rand drop delay rng (n + 1) =
      ((rolls rand drop delay rng n).1 ++ [(roll rand drop delay (rolls rand drop delay rng n).2).1],
        (roll rand drop delay (rolls rand drop delay rng n).2).2) := rfl

theorem length_rolls (rand : Rand ρ) (drop : Int) (delay : Nat) (rng : ρ) (n : Nat) :
    (rolls rand drop delay rng n).1.length = n := by
  induction n with
  | zero => rfl
  | succ n ih =>
    rw [rolls_succ, List.length_append, ih]
    rfl

theorem rolls_prefix (rand : Rand ρ) (drop : Int) (delay : Nat) (rng : ρ) {n m : Nat} (h : n ≤ m) :
    (rolls rand drop delay rng n).1 <+: (rolls rand drop delay rng m).1 := by
  induction h with
  | refl => exact List.prefix_rfl
  | step _ ih => exact ih.trans (List.prefix_append _ _)

theorem getElem?_rolls (rand : Rand ρ) (drop : Int) (delay : Nat) (rng : ρ) {n k : Nat} (h : k < n) :
    (rolls rand drop delay rng n).1[k]? = (rolls rand drop delay rng (k + 1)).1[k]? := by
  obtain ⟨rest, hrest⟩ := rolls_prefix rand drop delay rng (Nat.succ_le_of_lt h)
  rw [← hrest, List.getElem?_append_left]
  rw [length_rolls]
  exact Nat.lt_succ_self k

/-- The draws of a run are those of its parameters. -/
structure Seeded (rand : Rand ρ) (c : Config) (r : Run γ μ ρ) : Prop where
  drop : r.drop = c.dropPermille
  delay : r.delay = c.maxDelay
  fates : rolls rand c.dropPermille c.maxDelay (rand.source c.seed) r.drained.length =
    (r.drained.map (·.fate), r.rng)

theorem Seeded.log {c : Config} {r : Run γ μ ρ} {m : μ} {fate : Fate} {rng : ρ}
    (h : Seeded rand c r) (hroll : roll rand r.drop r.delay r.rng = (fate, rng))
    (event : Option (Event μ)) : Seeded rand c (r.log m fate event rng) := by
  refine ⟨h.drop, h.delay, ?_⟩
  rw [h.drop, h.delay] at hroll
  show rolls rand _ _ _ (r.drained ++ [_]).length = ((r.drained ++ [_]).map _, rng)
  rw [List.length_append, List.map_append, List.length_singleton, rolls_succ, h.fates, hroll]
  rfl

theorem seeded_step {c : Config} {r r' : Run γ μ ρ} (h : Atomic P rand sha256 r r')
    (hs : Seeded rand c r) : Seeded rand c r' := by
  cases h with
  | flow h =>
    cases h with
    | settle m =>
      refine settle_cases P rand m r (fun fate rng hr _ => hs.log hr none)
        (fun d rng i hr _ _ => ?_) (fun d rng hr _ => ?_)
      · exact ⟨hs.drop, hs.delay, (hs.log (m := m) hr none).fates⟩
      · exact ⟨hs.drop, hs.delay, (hs.log (m := m) hr (some _)).fates⟩
    | cluster _ | take _ _ _ _ => exact ⟨hs.drop, hs.delay, hs.fates⟩
  | tick | isolate _ | inject _ => exact ⟨hs.drop, hs.delay, hs.fates⟩

theorem seeded_play (P : Protocol γ μ ε) (rand : Rand ρ) (sha256 : List UInt8 → List UInt8) (c : Config)
    (cluster : γ) (acts : List (Act γ)) :
    Seeded rand c (play P rand sha256 acts (new rand c cluster)) :=
  play_induction acts ⟨rfl, rfl, rfl⟩ seeded_step

/-- The k-th draws of a run. -/
theorem Seeded.fate {c : Config} {r : Run γ μ ρ} (h : Seeded rand c r) {k : Nat} {d : Drained μ}
    (hd : r.drained[k]? = some d) :
    (rolls rand c.dropPermille c.maxDelay (rand.source c.seed) (k + 1)).1[k]? = some d.fate := by
  obtain ⟨hk, -⟩ := List.getElem?_eq_some_iff.mp hd
  rw [← getElem?_rolls rand _ _ _ hk, h.fates, List.getElem?_map, hd]
  rfl

/-! ## Injectors that allow everything -/

/-- The injectors of the first run allow everything, and it is like the second, which has none. -/
def Quiet (r r' : Run γ μ ρ) : Prop :=
  (∀ i ∈ r.injectors, ∀ now src dst d, i.allow now src dst d = true) ∧
    ∃ injected drained, r' = { r with injectors := [], injected, drained }

/-- The action without its injectors. -/
def quiet : Act γ → Act γ
  | .inject _ => .inject []
  | act => act

theorem quiet_call {α : Type} (f : γ → Except ε (α × γ)) {r r' : Run γ μ ρ} (h : Quiet r r') :
    Paired Quiet (call f : RunM γ μ ε ρ α) (call f) r r' := by
  obtain ⟨hallow, injected, drained, rfl⟩ := h
  cases hf : f r.cluster with
  | ok p =>
    rw [Paired, call_ok hf, call_ok (r := { r with injectors := [], injected, drained }) hf]
    exact ⟨rfl, hallow, injected, drained, rfl⟩
  | error e =>
    rw [Paired, call_error hf, call_error (r := { r with injectors := [], injected, drained }) hf]
    exact ⟨rfl, hallow, injected, drained, rfl⟩

theorem denier_eq_none {injectors : List Injector} {now d : Nat} {route : Nat × Nat} :
    denier injectors now route d = none ↔
      ∀ i ∈ injectors, i.allow now route.1 route.2 d = true := by
  rw [denier, List.find?_eq_none]
  simp

theorem quiet_settle (m : μ) {r r' : Run γ μ ρ} (h : Quiet r r') :
    Quiet (settle P rand m r) (settle P rand m r') := by
  obtain ⟨hallow, injected, drained, rfl⟩ := h
  obtain ⟨fate, rng, hr⟩ : ∃ fate rng, roll rand r.drop r.delay r.rng = (fate, rng) := ⟨_, _, rfl⟩
  by_cases hf : ∃ d, fate = .delayed d
  · obtain ⟨d, rfl⟩ := hf
    have hnone : denier r.injectors r.now (P.route m) d = none :=
      denier_eq_none.mpr fun i hi => hallow i hi _ _ _ _
    have hleft := settle_enters hr fun i hi => by rw [hnone] at hi; cases hi
    have hright : settle P rand m { r with injectors := [], injected, drained } = _ :=
      settle_enters hr fun i hi => by cases hi
    rw [hleft, hright]
    exact ⟨hallow, injected, _, rfl⟩
  · have hnot : ∀ d, fate ≠ .delayed d := fun d hd => hf ⟨d, hd⟩
    have hright : settle P rand m { r with injectors := [], injected, drained } = _ :=
      settle_fate hr hnot
    rw [settle_fate hr hnot, hright]
    exact ⟨hallow, injected, _, rfl⟩

theorem quiet_schedule (m : μ) {r r' : Run γ μ ρ} (h : Quiet r r') :
    Paired Quiet (schedule P rand m) (schedule P rand m) r r' := by
  have hsettle : Quiet (settle P rand m r) (settle P rand m r') := quiet_settle m h
  have hroll : roll rand r'.drop r'.delay r'.rng = roll rand r.drop r.delay r.rng := by
    obtain ⟨-, _, _, rfl⟩ := h
    rfl
  rw [Paired, schedule_run, schedule_run, hroll]
  by_cases hf : (roll rand r.drop r.delay r.rng).1 = .int63n
  · rw [if_pos hf, if_pos hf]
    exact ⟨rfl, hsettle⟩
  · rw [if_neg hf, if_neg hf]
    exact ⟨rfl, hsettle⟩

theorem quiet_collect {r r' : Run γ μ ρ} (h : Quiet r r') :
    Paired Quiet (collect P rand) (collect P rand) r r' := by
  have hc : r'.cluster = r.cluster := by
    obtain ⟨-, _, _, rfl⟩ := h
    rfl
  show Paired Quiet ((P.nodes r.cluster).forM _) ((P.nodes r'.cluster).forM _) r r'
  rw [hc]
  exact Paired.each h fun id _ s t hq => (quiet_call _ hq).seq fun out s t hq =>
    Paired.each hq fun m _ s t hq => quiet_schedule m hq

theorem quiet_deliver (ev : Event μ) (queue : List (Event μ)) {r r' : Run γ μ ρ} (h : Quiet r r') :
    Paired Quiet (deliver P rand sha256 ev queue) (deliver P rand sha256 ev queue) r r' := by
  have htake : Quiet (take P sha256 ev queue r) (take P sha256 ev queue r') := by
    obtain ⟨hallow, injected, drained, rfl⟩ := h
    exact ⟨hallow, injected, drained, rfl⟩
  exact (quiet_call _ htake).seq fun _ _ _ hq => quiet_collect hq

theorem quiet_deliverAll (passes : Nat) {r r' : Run γ μ ρ} (h : Quiet r r') :
    Paired Quiet (deliverAll P rand sha256 passes) (deliverAll P rand sha256 passes) r r' := by
  have hdue {r r' : Run γ μ ρ} (h : Quiet r r') : r'.due = r.due := by
    obtain ⟨-, _, _, rfl⟩ := h
    rfl
  induction passes generalizing r r' with
  | zero =>
    cases hr : r.due with
    | none =>
      rw [Paired, deliverAll_none hr, deliverAll_none ((hdue h).trans hr)]
      exact ⟨rfl, h⟩
    | some next =>
      rw [Paired, deliverAll_stop hr, deliverAll_stop ((hdue h).trans hr)]
      exact ⟨rfl, h⟩
  | succ passes ih =>
    cases hr : r.due with
    | none =>
      rw [Paired, deliverAll_none hr, deliverAll_none ((hdue h).trans hr)]
      exact ⟨rfl, h⟩
    | some next =>
      rw [Paired, deliverAll_succ hr, deliverAll_succ ((hdue h).trans hr)]
      exact (quiet_deliver next.1 next.2 h).seq fun _ _ _ hq => ih hq

theorem quiet_step (passes : Nat) {r r' : Run γ μ ρ} (h : Quiet r r') :
    Paired Quiet (step P rand sha256 passes) (step P rand sha256 passes) r r' := by
  refine Paired.seq ?_ fun _ _ _ hq => quiet_deliverAll passes hq
  obtain ⟨hallow, injected, drained, rfl⟩ := h
  have hq : Quiet { r with now := r.now + 1 }
      { r with now := r.now + 1, injectors := [], injected, drained } :=
    ⟨hallow, injected, drained, rfl⟩
  show Paired Quiet ((P.nodes r.cluster).forM _ >>= fun _ => collect P rand)
    ((P.nodes r.cluster).forM _ >>= fun _ => collect P rand) { r with now := r.now + 1 }
    { r with now := r.now + 1, injectors := [], injected, drained }
  exact (Paired.each hq fun id _ _ _ hq => quiet_call _ hq).seq fun _ _ _ hq => quiet_collect hq

/-- Every injector that an action registers allows everything. -/
def Allows (act : Act γ) : Prop :=
  ∀ injectors, act = .inject injectors → ∀ i ∈ injectors, ∀ now src dst d,
    i.allow now src dst d = true

theorem quiet_perform {act : Act γ} (hact : Allows act) {r r' : Run γ μ ρ} (h : Quiet r r') :
    Paired Quiet (perform P rand sha256 act) (perform P rand sha256 (quiet act)) r r' := by
  cases act with
  | step passes => exact quiet_step passes h
  | collect => exact quiet_collect h
  | isolate node | drive f =>
    obtain ⟨hallow, injected, drained, rfl⟩ := h
    exact ⟨rfl, hallow, injected, drained, rfl⟩
  | inject injectors =>
    obtain ⟨hallow, injected, drained, rfl⟩ := h
    refine ⟨rfl, fun i hi => ?_, injected, drained, rfl⟩
    rcases List.mem_append.mp hi with hi | hi
    · exact hallow i hi
    · exact hact injectors rfl i hi

theorem quiet_play {acts : List (Act γ)} (hacts : ∀ act ∈ acts, Allows act) {r r' : Run γ μ ρ}
    (h : Quiet r r') :
    Quiet (play P rand sha256 acts r) (play P rand sha256 (acts.map quiet) r') := by
  induction acts generalizing r r' with
  | nil => exact h
  | cons act rest ih =>
    have hact : Paired Quiet (perform P rand sha256 act) (perform P rand sha256 (quiet act)) r r' :=
      quiet_perform (hacts act List.mem_cons_self) h
    have hrest {r r' : Run γ μ ρ} (h : Quiet r r') := ih
      (fun act hin => hacts act (List.mem_cons_of_mem _ hin)) h
    rw [Paired] at hact
    rw [List.map_cons]
    unfold play
    split at hact
    · rename_i hr hr'
      rw [hr, hr']
      exact hrest hact.2
    · rename_i e s' e' t' hr hr'
      obtain ⟨rfl, hq⟩ := hact
      rw [hr, hr']
      cases e with
      | passes => exact hq
      | panic e | int63n => exact hrest hq
    · exact hact.elim

/-! ## What the injectors deny -/

/-- A message that was not lost and did not enter the schedule. -/
def blocked (d : Drained μ) : Bool :=
  match d.fate with
  | .delayed _ => d.event.isNone
  | _ => false

/-- The names of the injectors. -/
def names (r : Run γ μ ρ) : Finset String := (r.injectors.map (·.name)).toFinset

/-- Every message entered the schedule, unless the first injector that denies it has a name, and
then it is counted under that name. -/
structure Accounted (P : Protocol γ μ ε) (r : Run γ μ ρ) : Prop where
  entered : ∀ d ∈ r.drained, ∀ k, d.fate = .delayed k → (d.event.isSome = true ↔
    ∀ i, denier d.injectors d.now (P.route d.msg) k = some i → i.name = "")
  counted : ∑ name ∈ r.names, r.injected name = (r.drained.filter blocked).length
  others : ∀ name, name ∉ r.names → r.injected name = 0

theorem mem_names {r : Run γ μ ρ} {i : Injector} (h : i ∈ r.injectors) : i.name ∈ r.names :=
  List.mem_toFinset.mpr (List.mem_map_of_mem h)

/-- What is known of each message, after one more. -/
theorem entered_log {r : Run γ μ ρ} (h : Accounted P r) {m : μ} {fate : Fate}
    {event : Option (Event μ)} (rng : ρ)
    (hm : ∀ k, fate = .delayed k → (event.isSome = true ↔
      ∀ i, denier r.injectors r.now (P.route m) k = some i → i.name = "")) :
    ∀ d ∈ (r.log m fate event rng).drained, ∀ k, d.fate = .delayed k → (d.event.isSome = true ↔
      ∀ i, denier d.injectors d.now (P.route d.msg) k = some i → i.name = "") := by
  intro d hd
  rcases List.mem_append.mp hd with hd | hd
  · exact h.entered d hd
  · rw [List.mem_singleton.mp hd]
    exact hm

theorem blocked_log (r : Run γ μ ρ) (m : μ) (fate : Fate) (event : Option (Event μ)) (rng : ρ) :
    ((r.log m fate event rng).drained.filter blocked).length = (r.drained.filter blocked).length +
      (if blocked ⟨m, r.now, r.injectors, fate, event⟩ then 1 else 0) := by
  show ((r.drained ++ [_]).filter blocked).length = _
  rw [List.filter_append, List.length_append, List.filter_singleton]
  cases blocked ⟨m, r.now, r.injectors, fate, event⟩ <;> rfl

theorem sum_update_succ {s : Finset String} {f : String → Nat} {a : String} (h : a ∈ s) :
    ∑ x ∈ s, Function.update f a (f a + 1) x = ∑ x ∈ s, f x + 1 := by
  rw [Finset.sum_update_of_mem h, ← Finset.add_sum_erase s f h, Finset.sdiff_singleton_eq_erase]
  omega

theorem accounted_settle (m : μ) {r : Run γ μ ρ} (h : Accounted P r) :
    Accounted P (settle P rand m r) := by
  refine settle_cases P rand m r (fun fate rng _ hf => ?_) (fun d rng i _ hi hname => ?_)
    (fun d rng _ hi => ?_)
  · refine ⟨entered_log h rng fun k hk => absurd hk (hf k), ?_, h.others⟩
    rw [blocked_log]
    cases fate with
    | delayed d => exact absurd rfl (hf d)
    | lost | int63n => exact h.counted
  · have hmem : i.name ∈ r.names := mem_names (List.mem_of_find?_eq_some hi)
    refine ⟨entered_log h rng fun k hk => ?_, ?_, fun name hn => ?_⟩
    · cases hk
      exact iff_of_false Bool.false_ne_true fun hall => hname (hall i hi)
    · rw [blocked_log]
      exact (sum_update_succ hmem).trans (congrArg (· + 1) h.counted)
    · have hne : name ≠ i.name := fun heq => hn (heq ▸ hmem)
      exact (Function.update_of_ne hne _ _).trans (h.others name hn)
  · refine ⟨entered_log h rng fun k hk => ?_, ?_, h.others⟩
    · cases hk
      exact iff_of_true rfl hi
    · rw [blocked_log]
      exact h.counted

theorem accounted_step {r r' : Run γ μ ρ} (hs : Atomic P rand sha256 r r') (h : Accounted P r) :
    Accounted P r' := by
  cases hs with
  | flow hs =>
    cases hs with
    | settle m => exact accounted_settle m h
    | cluster _ | take _ _ _ _ => exact ⟨h.entered, h.counted, h.others⟩
  | tick | isolate _ => exact ⟨h.entered, h.counted, h.others⟩
  | inject injectors =>
    have hsub : r.names ⊆ (inject injectors r).names := fun name hn => by
      rw [names, List.mem_toFinset] at hn ⊢
      exact List.map_append ▸ List.mem_append_left _ hn
    refine ⟨h.entered, ?_, fun name hn => h.others name fun hin => hn (hsub hin)⟩
    exact (Finset.sum_subset hsub fun name _ hn => h.others name hn).symm.trans h.counted

/-- In every run: a message that is not lost enters the schedule exactly if every injector allows
it, where the first injector that denies a message always has a name, and only there. The counts of
the injectors add up to the messages that were not lost and did not enter. -/
theorem injected_faults_counted (P : Protocol γ μ ε) (rand : Rand ρ) (sha256 : List UInt8 → List UInt8)
    (c : Config) (cluster : γ) (acts : List (Act γ)) :
    let r := play P rand sha256 acts (new rand c cluster)
    ((∀ d ∈ r.drained, ∀ k, d.fate = .delayed k → (d.event.isSome = true ↔
        ∀ i ∈ d.injectors, i.allow d.now (P.route d.msg).1 (P.route d.msg).2 k = true)) ↔
      ∀ d ∈ r.drained, ∀ k, d.fate = .delayed k →
        ∀ i, denier d.injectors d.now (P.route d.msg) k = some i → i.name ≠ "") ∧
    ∑ name ∈ r.names, r.injected name = (r.drained.filter blocked).length ∧
      ∀ name, name ∉ r.names → r.injected name = 0 := by
  intro r
  have h : Accounted P r := play_induction acts
    ⟨fun d hd => (List.not_mem_nil hd).elim, rfl, fun _ _ => rfl⟩ accounted_step
  refine ⟨?_, h.counted, h.others⟩
  refine forall₂_congr fun d hd => forall₂_congr fun k hk => ?_
  rw [h.entered d hd k hk, ← denier_eq_none]
  cases denier d.injectors d.now (P.route d.msg) k with
  | none => simp
  | some i => simp

/-- The draws depend on the parameters of the run only: the k-th messages of two runs with any
clusters, actions and injectors are both lost or have the same delay. Injectors that allow
everything change nothing in a run. -/
theorem faults_keep_schedule (rand : Rand ρ) (sha256 : List UInt8 → List UInt8) (c : Config) :
    (∀ {γ γ' μ μ' ε ε' : Type} (P : Protocol γ μ ε) (P' : Protocol γ' μ' ε') (cluster : γ)
      (cluster' : γ') (acts : List (Act γ)) (acts' : List (Act γ')) (k : Nat) (d : Drained μ)
      (d' : Drained μ'), (play P rand sha256 acts (new rand c cluster)).drained[k]? = some d →
      (play P' rand sha256 acts' (new rand c cluster')).drained[k]? = some d' → d.fate = d'.fate) ∧
    ∀ {γ μ ε : Type} (P : Protocol γ μ ε) (cluster : γ) (acts : List (Act γ)),
      (∀ act ∈ acts, Allows act) →
      let r := play P rand sha256 acts (new rand c cluster)
      let r' := play P rand sha256 (acts.map quiet) (new rand c cluster)
      r.queue = r'.queue ∧ r.seq = r'.seq ∧ r.delivered = r'.delivered ∧ r.trace = r'.trace := by
  constructor
  · intro γ γ' μ μ' ε ε' P P' cluster cluster' acts acts' k d d' hd hd'
    have h := (seeded_play P rand sha256 c cluster acts).fate hd
    have h' := (seeded_play P' rand sha256 c cluster' acts').fate hd'
    exact Option.some.inj (h.symm.trans h')
  · intro γ μ ε P cluster acts hacts r r'
    have hstart : Quiet (new rand c cluster : Run γ μ ρ) (new rand c cluster) :=
      ⟨fun i hi => (List.not_mem_nil hi).elim, fun _ => 0, [], rfl⟩
    have h : Quiet r r' := quiet_play hacts hstart
    obtain ⟨-, injected, drained, heq⟩ := h
    rw [heq]
    exact ⟨rfl, rfl, rfl, rfl⟩

section Runs

/-- One node that sends a message to itself at each tick. The state is what it has to send. -/
def echo : Protocol (List Nat) Nat Empty where
  nodes _ := [1]
  tick _ out := .ok (7 :: out)
  deliver _ _ out := .ok out
  drain _ out := .ok (out, [])
  route _ := (1, 1)
  digest m := (0, m)

/-- A stream that counts. -/
def counting : Rand Nat where
  source seed := seed.toNat
  intn n s := (s % n, s + 1)
  int63n n s := (s % n, s + 1)

/-- Denies everything, or allows everything, under a name. -/
def always (name : String) (answer : Bool) : Injector := ⟨name, fun _ _ _ _ => answer⟩

/-- The draws in a run with an injector that denies everything and in one without, and a run with an
injector that allows everything. -/
theorem faults_keep_schedule_echo :
    (∃ d d', (play echo counting id [.inject [always "down" false], .step 9]
        (new counting ⟨20, 10, 5⟩ [])).drained[0]? = some d ∧
      (play echo counting id [.step 9, .step 9] (new counting ⟨20, 10, 5⟩ [])).drained[0]? = some d' ∧
      d.fate = d'.fate) ∧
    (play echo counting id [.inject [always "up" true], .step 9] (new counting ⟨20, 10, 5⟩ [])).queue =
      (play echo counting id [.inject [], .step 9] (new counting ⟨20, 10, 5⟩ [])).queue := by
  have h := faults_keep_schedule counting id ⟨20, 10, 5⟩
  constructor
  · obtain ⟨d, hd⟩ := Option.isSome_iff_exists.mp (show ((play echo counting id
      [.inject [always "down" false], .step 9] (new counting ⟨20, 10, 5⟩ [])).drained[0]?).isSome
      from by decide +kernel)
    obtain ⟨d', hd'⟩ := Option.isSome_iff_exists.mp (show ((play echo counting id
      [.step 9, .step 9] (new counting ⟨20, 10, 5⟩ [])).drained[0]?).isSome from by decide +kernel)
    exact ⟨d, d', hd, hd', h.1 echo echo _ _ _ _ 0 d d' hd hd'⟩
  · refine (h.2 echo _ [.inject [always "up" true], .step 9] fun act hact => ?_).1
    rcases List.mem_cons.mp hact with rfl | hact
    · rintro _ ⟨⟩ i hi
      rw [List.mem_singleton.mp hi]
      exact fun _ _ _ _ => rfl
    · rw [List.mem_singleton.mp hact]
      intro _ heq
      cases heq

/-- An injector without a name denies a message, which enters the schedule all the same, and nothing
is counted. -/
theorem unnamed_injector_ignored :
    let r := play echo counting id [.inject [always "" false], .step 0] (new counting ⟨3, 0, 5⟩ [])
    r.drained.map (·.fate) = [.delayed 3] ∧ r.drained.map (·.event.isSome) = [true] ∧
      (∀ d ∈ r.drained, ∀ i ∈ d.injectors, i.allow d.now 1 1 3 = false) ∧
      r.queue.length = 1 ∧ r.names = {""} ∧ r.injected "" = 0 := by
  decide +kernel

end Runs

end Run

end Promtact.Dst
