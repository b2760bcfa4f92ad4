import Mathlib.Data.List.Nodup
import Mathlib.Data.List.ReduceOption
import Mathlib.Tactic.Common

/-!
# Linearizability

A history is a list of calls and responses. The operations have names, and a caller who does not
hear back may call again under the same name: such an operation is called several times and may be
answered several times, but it happens once.

* `Linearizable O h`: some order of the operations explains the history. It puts each operation at
  most once, contains all that were answered, and gives every answer as the sequential object `O`
  does; an operation that was answered before another was first called comes before it.
* `Points.linearizable`: a log of the operations that change the object, and a place in the log for
  each one that only reads it, make such an order.
-/

namespace Linearizability

/-- A sequential object: what an operation does to the state, and its result. -/
structure Object (σ α ρ : Type) where
  init : σ
  step : σ → α → σ × ρ

/-- A call or a return of a named operation. -/
inductive Ev (ν α ρ : Type) where
  | call (name : ν) (op : α)
  | ret (name : ν) (result : ρ)
  deriving DecidableEq

variable {ν α ρ σ : Type}

/-- The state after some operations. -/
def Object.run (O : Object σ α ρ) (s : List (ν × α)) : σ :=
  s.foldl (fun state x => (O.step state x.2).1) O.init

theorem Object.run_append (O : Object σ α ρ) (s s' : List (ν × α)) :
    O.run (s ++ s') = s'.foldl (fun state x => (O.step state x.2).1) (O.run s) :=
  List.foldl_append

/-- An answer to `a` comes before every call of `b`. -/
def Precedes (h : List (Ev ν α ρ)) (a b : ν) : Prop :=
  ∃ pre r post, h = pre ++ .ret a r :: post ∧ ∀ op, .call b op ∉ pre

/-- A sequential order of operations that explains a history. -/
structure Linearization (O : Object σ α ρ) (h : List (Ev ν α ρ)) (s : List (ν × α)) : Prop where
  names : (s.map Prod.fst).Nodup
  called : ∀ x ∈ s, .call x.1 x.2 ∈ h
  results : ∀ a r, .ret a r ∈ h → ∃ s₁ op s₂, s = s₁ ++ (a, op) :: s₂ ∧ (O.step (O.run s₁) op).2 = r
  order : s.Pairwise fun x y => ¬ Precedes h y.1 x.1

/-- What was answered before an operation was called comes before it. -/
theorem Linearization.before {O : Object σ α ρ} {h : List (Ev ν α ρ)} {s s₁ s₂ : List (ν × α)}
    {a b : ν} {opa opb : α} (hs : Linearization O h s) (heq : s = s₁ ++ (b, opb) :: s₂)
    (ha : (a, opa) ∈ s) (hne : a ≠ b) (hab : Precedes h a b) : (a, opa) ∈ s₁ := by
  have horder := hs.order
  rw [heq] at ha horder
  rcases List.mem_append.mp ha with ha | ha
  · exact ha
  rcases List.mem_cons.mp ha with ha | ha
  · exact absurd (congrArg Prod.fst ha) hne
  · have hlater := (List.pairwise_cons.mp (List.pairwise_append.mp horder).2.1).1
    exact absurd hab (hlater _ ha)

/-- Some sequential order explains the history. -/
def Linearizable (O : Object σ α ρ) (h : List (Ev ν α ρ)) : Prop := ∃ s, Linearization O h s

/-! ## Operations with a place in a log -/

/-- The log `L` has the operations that change the object, with gaps. Each of the `reads` has the
number of slots that it comes after. -/
structure Points (O : Object σ α ρ) (h : List (Ev ν α ρ)) (L : List (Option (ν × α)))
    (reads : List (ν × α × Nat)) : Prop where
  unique : ∀ {j k : Nat} {x y : ν × α}, L[j]? = some (some x) → L[k]? = some (some y) → x.1 = y.1 → j = k
  apart : ∀ {r : ν × α × Nat} {k : Nat} {x : ν × α}, r ∈ reads → L[k]? = some (some x) → r.1 ≠ x.1
  names : (reads.map Prod.fst).Nodup
  called : ∀ {k : Nat} {x : ν × α}, L[k]? = some (some x) → .call x.1 x.2 ∈ h
  asked : ∀ {r}, r ∈ reads → .call r.1 r.2.1 ∈ h
  inside : ∀ {r}, r ∈ reads → r.2.2 ≤ L.length
  still : ∀ {r}, r ∈ reads → ∀ s, (O.step s r.2.1).1 = s
  /-- Reads are listed in an order that respects the history. -/
  order : reads.Pairwise fun x y => ¬ Precedes h y.1 x.1
  /-- An answer is given when the first `c` slots are settled: its operation is among them, or reads
  them, and everything that is called later comes after them. -/
  ret : ∀ {pre a r post}, h = pre ++ .ret a r :: post → ∃ c,
    ((∃ (k : Nat) (op : α), k < c ∧ L[k]? = some (some (a, op)) ∧
        (O.step (O.run (L.take k).reduceOption) op).2 = r) ∨
      ∃ op, (a, op, c) ∈ reads ∧ (O.step (O.run (L.take c).reduceOption) op).2 = r) ∧
    (∀ (k : Nat) (x : ν × α), L[k]? = some (some x) → (∀ op, .call x.1 op ∉ pre) → c ≤ k) ∧
    ∀ x ∈ reads, (∀ op, .call x.1 op ∉ pre) → c ≤ x.2.2

section

variable (L : List (Option (ν × α))) (reads : List (ν × α × Nat))

/-- The reads that come after `k` slots. -/
def readsAt (k : Nat) : List (ν × α) := (reads.filter fun r => r.2.2 = k).map fun r => (r.1, r.2.1)

/-- The reads after `k` slots, and the operation of slot `k`. -/
def block (k : Nat) : List (ν × α) := readsAt reads k ++ (L[k]?.join).toList

/-- The order. -/
def schedule : List (ν × α) := (List.range (L.length + 1)).flatMap (block L reads)

variable {L reads}

theorem mem_readsAt {k : Nat} {x : ν × α} : x ∈ readsAt reads k ↔ (x.1, x.2, k) ∈ reads := by
  unfold readsAt
  rw [List.mem_map]
  constructor
  · rintro ⟨⟨a, op, j⟩, hr, rfl⟩
    obtain ⟨hmem, hj⟩ := List.mem_filter.mp hr
    rw [← of_decide_eq_true hj]
    exact hmem
  · exact fun h => ⟨_, List.mem_filter.mpr ⟨h, decide_eq_true rfl⟩, rfl⟩

theorem mem_slot {k : Nat} {x : ν × α} : x ∈ (L[k]?.join).toList ↔ L[k]? = some (some x) := by
  rw [Option.mem_toList, Option.join_eq_some_iff]

theorem mem_block {k : Nat} {x : ν × α} :
    x ∈ block L reads k ↔ (x.1, x.2, k) ∈ reads ∨ L[k]? = some (some x) := by
  rw [block, List.mem_append, mem_readsAt, mem_slot]

/-- The order, cut at a slot. -/
theorem schedule_split (reads : List (ν × α × Nat)) {k : Nat} (hk : k ≤ L.length) : ∃ rest,
    schedule L reads = (List.range k).flatMap (block L reads) ++ block L reads k ++ rest := by
  have hrange : List.range (L.length + 1) =
      List.range (k + 1) ++ (List.range (L.length - k)).map (k + 1 + ·) := by
    rw [← List.range_add]
    congr 1
    omega
  refine ⟨((List.range (L.length - k)).map (k + 1 + ·)).flatMap (block L reads), ?_⟩
  rw [schedule, hrange, List.flatMap_append, List.range_succ, List.flatMap_append, List.flatMap_singleton]

theorem take_succ_reduce (k : Nat) :
    (L.take (k + 1)).reduceOption = (L.take k).reduceOption ++ (L[k]?.join).toList := by
  rw [List.take_add_one, List.reduceOption_append]
  congr 1
  cases L[k]? with
  | none => rfl
  | some x => cases x <;> rfl

/-- What stands in one block or in two. -/
theorem pairwise_schedule {R : ν × α → ν × α → Prop}
    (hsame : ∀ k, (readsAt reads k).Pairwise R)
    (hslot : ∀ {k x y}, (x.1, x.2, k) ∈ reads → L[k]? = some (some y) → R x y)
    (hlater : ∀ {j k x y}, j < k → x ∈ block L reads j → y ∈ block L reads k → R x y) :
    (schedule L reads).Pairwise R := by
  refine List.pairwise_flatMap.mpr ⟨fun k _ => ?_, ?_⟩
  · refine List.pairwise_append.mpr ⟨hsame k, ?_, fun x hx y hy => ?_⟩
    · cases L[k]?.join with
      | none => exact .nil
      | some x => exact List.pairwise_singleton _ _
    · exact hslot (mem_readsAt.mp hx) (mem_slot.mp hy)
  · exact (List.pairwise_lt_range).imp fun hlt x hx y hy => hlater hlt hx hy

end

namespace Points

variable {O : Object σ α ρ} {h : List (Ev ν α ρ)} {L : List (Option (ν × α))}
  {reads : List (ν × α × Nat)} (hp : Points O h L reads)
include hp

/-- Reads do not change the state. -/
theorem foldl_reads {l : List (ν × α)} {k : Nat} (hl : ∀ x ∈ l, x ∈ readsAt reads k) (s : σ) :
    l.foldl (fun state x => (O.step state x.2).1) s = s := by
  induction l generalizing s with
  | nil => rfl
  | cons x l ih =>
    rw [List.foldl_cons, hp.still (mem_readsAt.mp (hl x List.mem_cons_self))]
    exact ih (fun y hy => hl y (List.mem_cons_of_mem _ hy)) s

/-- The state before slot `k` is that of the log alone. -/
theorem run_before (k : Nat) :
    O.run ((List.range k).flatMap (block L reads)) = O.run (L.take k).reduceOption := by
  induction k with
  | zero => rfl
  | succ k ih =>
    rw [List.range_succ, List.flatMap_append, List.flatMap_singleton, Object.run_append, ih, block,
      List.foldl_append, hp.foldl_reads fun _ => id, take_succ_reduce, Object.run_append]

theorem schedule_names : ((schedule L reads).map Prod.fst).Nodup := by
  refine List.pairwise_map.mpr (pairwise_schedule (fun k => ?_) (fun hx hy => hp.apart hx hy) ?_)
  · refine List.pairwise_map.mp (List.Nodup.sublist ?_ hp.names)
    rw [readsAt, List.map_map]
    exact (List.filter_sublist).map _
  · intro j k x y hlt hx hy heq
    rcases mem_block.mp hx with hx | hx <;> rcases mem_block.mp hy with hy | hy
    · have hsame : ((x.1, x.2, j) : ν × α × Nat) = (y.1, y.2, k) :=
        List.inj_on_of_nodup_map hp.names hx hy heq
      exact absurd (congrArg (·.2.2) hsame) (Nat.ne_of_lt hlt)
    · exact hp.apart hx hy heq
    · exact hp.apart hy hx heq.symm
    · exact absurd (hp.unique hx hy heq) (Nat.ne_of_lt hlt)

/-- An operation that was answered before `x` was called does not stand after it. -/
theorem place {j k : Nat} {x y : ν × α} (hx : x ∈ block L reads j) (hy : y ∈ block L reads k)
    (hxy : Precedes h y.1 x.1) : k ≤ j ∧ (L[k]? = some (some y) → k < j) := by
  obtain ⟨pre, r, post, heq, hnot⟩ := hxy
  obtain ⟨c, hc, hwrites, hreads⟩ := hp.ret heq
  have hcj : c ≤ j := by
    rcases mem_block.mp hx with hx | hx
    · exact hreads _ hx hnot
    · exact hwrites _ _ hx hnot
  rcases mem_block.mp hy with hy | hy
  · have hkc : k = c := by
      rcases hc with ⟨i, op, -, hi, -⟩ | ⟨op, hop, -⟩
      · exact hp.apart hy hi rfl |>.elim
      · have hsame : ((y.1, y.2, k) : ν × α × Nat) = (y.1, op, c) :=
          List.inj_on_of_nodup_map hp.names hy hop rfl
        exact congrArg (·.2.2) hsame
    exact ⟨hkc ▸ hcj, fun hslot => absurd rfl (hp.apart hy hslot)⟩
  · have hkc : k < c := by
      rcases hc with ⟨i, op, hlt, hi, -⟩ | ⟨op, hop, -⟩
      · exact hp.unique hy hi rfl ▸ hlt
      · exact absurd rfl (hp.apart hop hy)
    exact ⟨by omega, fun _ => by omega⟩

theorem schedule_order : (schedule L reads).Pairwise fun x y => ¬ Precedes h y.1 x.1 := by
  refine pairwise_schedule (fun k => ?_) (fun hx hy hxy => ?_) fun hlt hx hy hxy => ?_
  · exact List.pairwise_map.mpr (hp.order.sublist List.filter_sublist)
  · exact absurd ((hp.place (mem_block.mpr (.inl hx)) (mem_block.mpr (.inr hy)) hxy).2 hy)
      (Nat.lt_irrefl _)
  · exact absurd (hp.place hx hy hxy).1 (Nat.not_le.mpr hlt)

theorem schedule_called {x : ν × α} (hx : x ∈ schedule L reads) : .call x.1 x.2 ∈ h := by
  obtain ⟨k, -, hx⟩ := List.mem_flatMap.mp hx
  exact (mem_block.mp hx).elim hp.asked hp.called

theorem schedule_result {a : ν} {r : ρ} (ha : .ret a r ∈ h) : ∃ s₁ op s₂,
    schedule L reads = s₁ ++ (a, op) :: s₂ ∧ (O.step (O.run s₁) op).2 = r := by
  obtain ⟨pre, post, heq⟩ := List.append_of_mem ha
  obtain ⟨c, hc, -, -⟩ := hp.ret heq
  rcases hc with ⟨k, op, -, hk, hr⟩ | ⟨op, hop, hr⟩
  · -- the operation of a slot: before it stand the reads of its block
    have hle : k ≤ L.length := Nat.le_of_lt (List.getElem?_eq_some_iff.mp hk).1
    obtain ⟨rest, hsplit⟩ := schedule_split reads hle
    refine ⟨(List.range k).flatMap (block L reads) ++ readsAt reads k, op, rest, ?_, ?_⟩
    · rw [hsplit, block, hk]
      simp
    · rw [Object.run_append, hp.foldl_reads fun _ => id, hp.run_before, hr]
  · -- a read: before it stand other reads of its block
    obtain ⟨rest, hsplit⟩ := schedule_split reads (hp.inside hop)
    obtain ⟨l₁, l₂, hl⟩ := List.append_of_mem (mem_readsAt.mpr hop : (a, op) ∈ readsAt reads c)
    refine ⟨(List.range c).flatMap (block L reads) ++ l₁, op, l₂ ++ (L[c]?.join).toList ++ rest, ?_, ?_⟩
    · rw [hsplit, block, hl]
      simp
    · have hmem : ∀ x ∈ l₁, x ∈ readsAt reads c := fun x hx => hl ▸ List.mem_append_left _ hx
      rw [Object.run_append, hp.foldl_reads hmem, hp.run_before, hr]

theorem linearizable : Linearizable O h :=
  ⟨schedule L reads, hp.schedule_names, fun _ => hp.schedule_called, fun _ _ => hp.schedule_result,
    hp.schedule_order⟩

end Points

end Linearizability
