import Promtact.Dst.Faults

/-!
# The schedule (`dst/engine.go`)

The events of a run: each is scheduled once, waits in the heap, and is delivered or discarded.
`InOrder` says what holds of them in every state of a run, and `schedule_is_linear_scan` what
follows for the operations of the heap and for the order of the deliveries.
-/

namespace Promtact.Dst

open Refine

variable {γ μ ε ρ : Type}

namespace Run

variable {P : Protocol γ μ ε} {rand : Rand ρ} {sha256 : List UInt8 → List UInt8}

/-- What has entered the schedule, in order. -/
def scheduled (r : Run γ μ ρ) : List (Event μ) := r.drained.filterMap (·.event)

/-- The queue is a heap of what was scheduled and neither delivered nor discarded. What was
delivered is before everything that is still to come. -/
structure InOrder (r : Run γ μ ρ) : Prop where
  heap : Heap.Ordered earlier r.queue
  content : (r.delivered ++ (r.discarded ++ r.queue)).Perm r.scheduled
  seqs : r.scheduled.Pairwise (·.seq < ·.seq)
  bound : ∀ ev ∈ r.scheduled, ev.seq ≤ r.seq
  past : ∀ x ∈ r.delivered, x.due ≤ r.now
  order : r.delivered.Pairwise fun x y => earlier x y = true
  next : ∀ x ∈ r.delivered, ∀ y ∈ r.queue, earlier x y = true

theorem InOrder.nodup {r : Run γ μ ρ} (h : InOrder r) :
    ((r.delivered ++ (r.discarded ++ r.queue)).map (·.seq)).Nodup := by
  rw [(h.content.map _).nodup_iff]
  exact List.pairwise_map.mpr (h.seqs.imp fun hlt => Nat.ne_of_lt hlt)

theorem InOrder.delivered_seq {r : Run γ μ ρ} (h : InOrder r) {x : Event μ} (hx : x ∈ r.delivered) :
    x.seq ≤ r.seq :=
  h.bound x (h.content.subset (List.mem_append_left _ hx))

/-- The root is before everything else in the queue. -/
theorem InOrder.root {r : Run γ μ ρ} (h : InOrder r) {ev : Event μ} {queue : List (Event μ)}
    (hpop : Heap.pop earlier r.queue = some (ev, queue)) : ∀ y ∈ queue, earlier ev y = true := by
  intro y hy
  have hperm := Heap.pop_perm hpop
  have hfirst : earlier y ev = false :=
    h.heap.root_first (Heap.pop_root hpop) (hperm.subset (List.mem_cons_of_mem _ hy))
  have hne : ev.seq ≠ y.seq := by
    have hq : (r.queue.map (·.seq)).Nodup := by
      have := h.nodup
      rw [List.map_append, List.map_append] at this
      exact (List.nodup_append.mp (List.nodup_append.mp this).2.1).2.1
    rw [← (hperm.map _).nodup_iff, List.map_cons, List.nodup_cons] at hq
    exact fun heq => hq.1 (heq ▸ List.mem_map_of_mem hy)
  rw [not_earlier_iff] at hfirst
  rw [earlier_iff]
  omega

theorem scheduled_log (r : Run γ μ ρ) (m : μ) (fate : Fate) (event : Option (Event μ)) (rng : ρ) :
    (r.log m fate event rng).scheduled = r.scheduled ++ event.toList := by
  show (r.drained ++ [_]).filterMap _ = _
  rw [List.filterMap_append]
  cases event <;> rfl

theorem InOrder.log {r : Run γ μ ρ} (h : InOrder r) (m : μ) (fate : Fate) (rng : ρ) :
    InOrder (r.log m fate none rng) := by
  have hs := scheduled_log r m fate none rng
  rw [Option.toList_none, List.append_nil] at hs
  exact ⟨h.heap, hs ▸ h.content, hs ▸ h.seqs, hs ▸ h.bound, h.past, h.order, h.next⟩

/-- A message enters with a new number, not before what was delivered. -/
theorem inOrder_enters (m : μ) (d : Nat) (rng : ρ) {r : Run γ μ ρ} (h : InOrder r) :
    InOrder { r.log m (.delayed d) (some (entry P m d r)) rng with
      seq := r.seq + 1
      queue := Heap.push earlier (entry P m d r) r.queue } := by
  have hs : scheduled { r.log m (.delayed d) (some (entry P m d r)) rng with
      seq := r.seq + 1
      queue := Heap.push earlier (entry P m d r) r.queue } = r.scheduled ++ [entry P m d r] :=
    scheduled_log r m _ _ rng
  have hpush : (Heap.push earlier (entry P m d r) r.queue).Perm (entry P m d r :: r.queue) :=
    Heap.push_perm _ _
  refine ⟨h.heap.push _, ?_, ?_, ?_, h.past, h.order, fun x hx y hy => ?_⟩
  · rw [hs]
    have hnew : (r.discarded ++ Heap.push earlier (entry P m d r) r.queue).Perm
        (r.discarded ++ r.queue ++ [entry P m d r]) :=
      (hpush.append_left _).trans (by
        rw [List.append_assoc]
        exact (List.perm_append_singleton _ _).symm.append_left _)
    refine (hnew.append_left r.delivered).trans ?_
    rw [← List.append_assoc]
    exact h.content.append_right _
  · rw [hs, List.pairwise_append]
    refine ⟨h.seqs, List.pairwise_singleton _ _, fun x hx y hy => ?_⟩
    rw [List.mem_singleton.mp hy]
    exact Nat.lt_succ_of_le (h.bound x hx)
  · intro ev hev
    rw [hs, List.mem_append, List.mem_singleton] at hev
    rcases hev with hev | rfl
    · exact Nat.le_succ_of_le (h.bound ev hev)
    · exact Nat.le_refl _
  · rcases List.mem_cons.mp (hpush.subset hy) with rfl | hy
    · have hdue := h.past x hx
      have hseq := h.delivered_seq hx
      rw [earlier_iff]
      show x.due < r.now + d ∨ x.due = r.now + d ∧ x.seq < r.seq + 1
      omega
    · exact h.next x hx y hy

theorem inOrder_settle (m : μ) {r : Run γ μ ρ} (h : InOrder r) : InOrder (settle P rand m r) := by
  refine settle_cases P rand m r (fun fate rng _ _ => h.log m fate rng) (fun d rng i _ _ _ => ?_)
    (fun d rng _ _ => inOrder_enters m d rng h)
  have hlog := h.log m (.delayed d) rng
  exact ⟨hlog.heap, hlog.content, hlog.seqs, hlog.bound, hlog.past, hlog.order, hlog.next⟩

/-- What `due` returns. -/
theorem due_some {r : Run γ μ ρ} {ev : Event μ} {queue : List (Event μ)}
    (h : r.due = some (ev, queue)) :
    Heap.pop earlier r.queue = some (ev, queue) ∧ ev.due ≤ r.now := by
  obtain ⟨hpop, hle⟩ := Option.filter_eq_some_iff.mp h
  exact ⟨hpop, of_decide_eq_true hle⟩

theorem inOrder_take {r : Run γ μ ρ} {ev : Event μ} {queue : List (Event μ)}
    (hdue : r.due = some (ev, queue)) (h : InOrder r) : InOrder (take P sha256 ev queue r) := by
  obtain ⟨hpop, hle⟩ := due_some hdue
  have hperm := Heap.pop_perm hpop
  have hin : ev ∈ r.queue := hperm.subset List.mem_cons_self
  refine ⟨h.heap.pop hpop, ?_, h.seqs, h.bound, ?_, ?_, ?_⟩
  · show (r.delivered ++ [ev] ++ (r.discarded ++ queue)).Perm r.scheduled
    rw [List.append_assoc]
    have hmiddle : (r.discarded ++ ev :: queue).Perm ([ev] ++ (r.discarded ++ queue)) :=
      List.perm_middle
    exact ((hmiddle.symm.trans (hperm.append_left _)).append_left _).trans h.content
  · intro x hx
    rcases List.mem_append.mp hx with hx | hx
    · exact h.past x hx
    · rw [List.mem_singleton.mp hx]
      exact hle
  · show (r.delivered ++ [ev]).Pairwise _
    rw [List.pairwise_append]
    refine ⟨h.order, List.pairwise_singleton _ _, fun x hx y hy => ?_⟩
    rw [List.mem_singleton.mp hy]
    exact h.next x hx ev hin
  · intro x hx y hy
    rcases List.mem_append.mp hx with hx | hx
    · exact h.next x hx y (hperm.subset (List.mem_cons_of_mem _ hy))
    · rw [List.mem_singleton.mp hx]
      exact h.root hpop y hy

/-- An event from or to the node. -/
def involves (node : Nat) (ev : Event μ) : Bool := ev.src == node || ev.dst == node

/-- The queue after `Isolate`. -/
theorem isolate_queue (node : Nat) (r : Run γ μ ρ) :
    (isolate node r).queue.Perm (r.queue.filter fun ev => !involves node ev) :=
  Heap.rebuild_perm _

theorem inOrder_isolate (node : Nat) {r : Run γ μ ρ} (h : InOrder r) : InOrder (isolate node r) := by
  have hqueue := isolate_queue node r
  refine ⟨Heap.Ordered.rebuild _, ?_, h.seqs, h.bound, h.past, h.order, fun x hx y hy => ?_⟩
  · show (r.delivered ++ (r.discarded ++ r.queue.filter (involves node) ++
      (isolate node r).queue)).Perm r.scheduled
    refine List.Perm.trans (List.Perm.append_left _ ?_) h.content
    rw [List.append_assoc]
    exact ((hqueue.append_left _).trans (List.filter_append_perm _ _)).append_left _
  · exact h.next x hx y (List.mem_of_mem_filter (hqueue.subset hy))

theorem inOrder_step {r r' : Run γ μ ρ} (hs : Atomic P rand sha256 r r') (h : InOrder r) :
    InOrder r' := by
  cases hs with
  | flow hs =>
    cases hs with
    | settle m => exact inOrder_settle m h
    | cluster c => exact ⟨h.heap, h.content, h.seqs, h.bound, h.past, h.order, h.next⟩
    | take ev queue _ hdue => exact inOrder_take hdue h
  | tick =>
    exact ⟨h.heap, h.content, h.seqs, h.bound, fun x hx => Nat.le_succ_of_le (h.past x hx), h.order,
      h.next⟩
  | isolate node => exact inOrder_isolate node h
  | inject injectors => exact ⟨h.heap, h.content, h.seqs, h.bound, h.past, h.order, h.next⟩

theorem inOrder_play (P : Protocol γ μ ε) (rand : Rand ρ) (sha256 : List UInt8 → List UInt8)
    (c : Config) (cluster : γ) (acts : List (Act γ)) :
    InOrder (play P rand sha256 acts (new rand c cluster)) := by
  refine play_induction acts ⟨?_, .refl _, .nil, ?_, ?_, .nil, ?_⟩ inOrder_step
  · intro j x y hx
    cases hx
  all_goals
    intro x hx
    cases hx

/-! ## A step that returns -/

/-- The loop returns when nothing is due any more. -/
theorem deliverAll_due {passes : Nat} {r r' : Run γ μ ρ}
    (h : deliverAll P rand sha256 passes r = .ok () r') : r'.due = none := by
  induction passes generalizing r with
  | zero =>
    cases hdue : r.due with
    | none =>
      rw [deliverAll_none hdue] at h
      cases h
      exact hdue
    | some next =>
      rw [deliverAll_stop hdue] at h
      cases h
  | succ passes ih =>
    cases hdue : r.due with
    | none =>
      rw [deliverAll_none hdue] at h
      cases h
      exact hdue
    | some next =>
      rw [deliverAll_succ hdue] at h
      replace h : EStateM.bind (deliver P rand sha256 next.1 next.2)
        (fun _ => deliverAll P rand sha256 passes) r = .ok () r' := h
      unfold EStateM.bind at h
      split at h
      · exact ih h
      · cases h

theorem not_due {r : Run γ μ ρ} (h : InOrder r) (hdue : r.due = none) :
    ∀ ev ∈ r.queue, r.now < ev.due := by
  intro ev hev
  cases hpop : Heap.pop earlier r.queue with
  | none =>
    rw [Heap.pop_eq_none.mp hpop] at hev
    cases hev
  | some next =>
    have hroot : r.now < next.1.due := by
      rw [Engine.due, hpop, Option.filter_eq_none_iff] at hdue
      exact Nat.lt_of_not_le fun hle => hdue next rfl (decide_eq_true hle)
    have hfirst := h.heap.root_first (Heap.pop_root hpop) hev
    rw [not_earlier_iff] at hfirst
    omega

/-- An event of the queue is delivered or stays, and what was delivered stays so. -/
structure Keeps (r r' : Run γ μ ρ) : Prop where
  now : r'.now = r.now
  queue : ∀ ev ∈ r.queue, ev ∈ r'.queue ∨ ev ∈ r'.delivered
  delivered : ∀ ev ∈ r.delivered, ev ∈ r'.delivered

theorem flow_keeps {r r' : Run γ μ ρ} (h : Flow P rand sha256 r r') : Keeps r r' := by
  cases h with
  | settle m =>
    refine settle_cases P rand m r (Q := Keeps r) (fun _ _ _ _ => ?_) (fun _ _ _ _ _ _ => ?_)
      (fun d rng _ _ => ⟨rfl, fun ev hev => .inl ?_, fun _ hd => hd⟩)
    · exact ⟨rfl, fun _ hev => .inl hev, fun _ hd => hd⟩
    · exact ⟨rfl, fun _ hev => .inl hev, fun _ hd => hd⟩
    · exact (Heap.push_perm _ _).symm.subset (List.mem_cons_of_mem _ hev)
  | cluster c => exact ⟨rfl, fun _ hev => .inl hev, fun _ hd => hd⟩
  | take next queue _ hdue =>
    refine ⟨rfl, fun ev hev => ?_, fun _ hd => List.mem_append_left _ hd⟩
    rcases List.mem_cons.mp ((Heap.pop_perm (due_some hdue).1).symm.subset hev) with rfl | hev
    · exact .inr (List.mem_append_right _ List.mem_cons_self)
    · exact .inl hev

theorem flows_keep {r r' : Run γ μ ρ} (h : Relation.ReflTransGen (Flow P rand sha256) r r') :
    Keeps r r' := by
  induction h with
  | refl => exact ⟨rfl, fun _ hev => .inl hev, fun _ hd => hd⟩
  | tail _ hs ih =>
    have hk := flow_keeps hs
    exact ⟨hk.now.trans ih.now, fun ev hev => (ih.queue ev hev).elim (hk.queue ev) fun hd =>
      .inr (hk.delivered ev hd), fun ev hd => hk.delivered ev (ih.delivered ev hd)⟩

theorem inOrder_steps {r r' : Run γ μ ρ} (hs : Relation.ReflTransGen (Atomic P rand sha256) r r')
    (h : InOrder r) : InOrder r' := by
  induction hs with
  | refl => exact h
  | tail _ hs ih => exact inOrder_step hs ih

/-- A step that returns has delivered every event that was due when its loop began. -/
theorem step_delivers {passes : Nat} {r r' : Run γ μ ρ} (h : InOrder r)
    (hstep : step P rand sha256 passes r = .ok () r') :
    ∃ r₁, tickAll P rand r = .ok () r₁ ∧ ∀ ev ∈ r₁.queue, ev.due ≤ r₁.now → ev ∈ r'.delivered := by
  replace hstep : EStateM.bind (tickAll P rand) (fun _ => deliverAll P rand sha256 passes) r =
    .ok () r' := hstep
  unfold EStateM.bind at hstep
  split at hstep
  · rename_i r₁ htick
    replace hstep : deliverAll P rand sha256 passes r₁ = .ok () r' := hstep
    have htick' : Relation.ReflTransGen (Atomic P rand sha256) r _ := tickAll_made.final r
    have hloop : Relation.ReflTransGen (Flow P rand sha256) r₁ _ := (deliverAll_made passes).final r₁
    rw [htick] at htick'
    rw [hstep] at hloop
    have hkeeps : Keeps r₁ r' := flows_keep hloop
    have hatomic : Relation.ReflTransGen (Atomic P rand sha256) r₁ r' :=
      hloop.lift id fun _ _ hs => .flow hs
    have hend : InOrder r' := inOrder_steps hatomic (inOrder_steps htick' h)
    refine ⟨r₁, htick, fun ev hev hle => (hkeeps.queue ev hev).resolve_left fun hin => ?_⟩
    have hlt := not_due hend (deliverAll_due hstep) ev hin
    rw [hkeeps.now] at hlt
    omega
  · cases hstep

/-- In every state of a run: the queue is a heap of exactly the events that were scheduled and
neither delivered nor discarded, each of which has its own number; taking the root is a linear
search for the first event; `Isolate` removes and counts the events from and to the node; the
deliveries so far are in strictly increasing order; and a step that returns has delivered what was
due when its loop began. -/
theorem schedule_is_linear_scan (P : Protocol γ μ ε) (rand : Rand ρ)
    (sha256 : List UInt8 → List UInt8) (c : Config) (cluster : γ) (acts : List (Act γ)) :
    let r := play P rand sha256 acts (new rand c cluster)
    Heap.Ordered earlier r.queue ∧
    (r.delivered ++ (r.discarded ++ r.queue)).Perm r.scheduled ∧
    r.scheduled.Pairwise (·.seq < ·.seq) ∧
    (Heap.pop earlier r.queue).map (·.1) = Heap.least earlier r.queue ∧
    (∀ ev queue, Heap.pop earlier r.queue = some (ev, queue) →
      (ev :: queue).Perm r.queue ∧ ∀ other ∈ queue, earlier ev other = true) ∧
    (∀ node, (r.toEngine.isolate node).1 = r.queue.countP (involves node) ∧
      (isolate node r).queue.Perm (r.queue.filter fun ev => !involves node ev) ∧
      Heap.Ordered earlier (isolate node r).queue) ∧
    r.delivered.Pairwise (fun x y => earlier x y = true) ∧
    ∀ passes r', step P rand sha256 passes r = .ok () r' → ∃ r₁, tickAll P rand r = .ok () r₁ ∧
      ∀ ev ∈ r₁.queue, ev.due ≤ r₁.now → ev ∈ r'.delivered := by
  intro r
  have h : InOrder r := inOrder_play P rand sha256 c cluster acts
  refine ⟨h.heap, h.content, h.seqs, ?_, fun ev queue hpop => ⟨Heap.pop_perm hpop, h.root hpop⟩,
    fun node => ⟨?_, isolate_queue node r, Heap.Ordered.rebuild _⟩, h.order,
    fun passes r' hstep => step_delivers h hstep⟩
  · rw [h.heap.least_eq]
    cases r.queue <;> rfl
  · have hsplit := (List.filter_append_perm (involves node) r.queue).length_eq
    rw [List.length_append] at hsplit
    show r.queue.length - (r.queue.filter fun ev => !involves node ev).length = _
    rw [List.countP_eq_length_filter]
    omega

end Run

end Promtact.Dst
