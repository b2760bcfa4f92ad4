import Mathlib.Data.List.Basic
import Mathlib.Tactic.Common

/-!
# Binary heaps on lists

A list as a complete binary tree: the children of position `i` are `2 * i + 1` and `2 * i + 2`.
`before` is a strict order, which need not tell all elements apart.

* `push`, `pop` and `rebuild` keep the elements (`push_perm`, `pop_perm`, `rebuild_perm`) and the
  order (`Ordered.push`, `Ordered.pop`, `Ordered.rebuild`).
* `Ordered.root_first`: nothing is before the root. It is what a linear search finds
  (`Ordered.least_eq`).
-/

namespace Heap

variable {α : Type} (before : α → α → Bool)

/-- A strict weak order. `before b a = false` is its weak order, in which `a` is not after `b`. -/
class StrictOrder : Prop where
  asymm : ∀ {a b}, before a b = true → before b a = false
  trans : ∀ {a b c}, before b a = false → before c b = false → before c a = false

/-- The two elements are exchanged. -/
def swap (l : List α) (i j : Nat) : List α :=
  match l[i]?, l[j]? with
  | some x, some y => (l.set i y).set j x
  | _, _ => l

/-- The element at `i` moves up while it is before its parent. `i` passes are enough. -/
def siftUp : Nat → Nat → List α → List α
  | 0, _, l => l
  | passes + 1, i, l =>
    match l[i]?, l[(i - 1) / 2]? with
    | some x, some y =>
      if before x y then siftUp passes ((i - 1) / 2) (swap l i ((i - 1) / 2)) else l
    | _, _ => l

/-- The new element moves up from the end. -/
def push (x : α) (l : List α) : List α := siftUp before l.length l.length (l ++ [x])

/-- `c` if there is an element at `c` that is before the one at `i`, and otherwise `i`. -/
def smaller (l : List α) (i c : Nat) : Nat :=
  match l[c]?, l[i]? with
  | some x, some y => if before x y then c else i
  | _, _ => i

/-- The first among the element at `i` and its children. -/
def smallest (l : List α) (i : Nat) : Nat := smaller before l (smaller before l i (2 * i + 1)) (2 * i + 2)

/-- The element at `i` moves down while a child is before it. `l.length` passes are enough. -/
def siftDown : Nat → Nat → List α → List α
  | 0, _, l => l
  | passes + 1, i, l =>
    if smallest before l i = i then l
    else siftDown passes (smallest before l i) (swap l i (smallest before l i))

/-- The root, and the heap without it. -/
def pop : List α → Option (α × List α)
  | [] => none
  | x :: l =>
    let rest := ((x :: l).set 0 ((x :: l).getLast (List.cons_ne_nil x l))).dropLast
    some (x, siftDown before rest.length 0 rest)

/-- Makes a heap of a list, from its last parent to the root. -/
def rebuild (l : List α) : List α :=
  (List.range (l.length / 2)).reverse.foldl (fun l i => siftDown before l.length i l) l

/-- A linear search for the first element. -/
def least : List α → Option α
  | [] => none
  | x :: l => some (l.foldl (fun best y => if before y best then y else best) x)

/-! ## The elements stay -/

variable {before}

theorem swap_perm (l : List α) (i j : Nat) : (swap l i j).Perm l := by
  unfold swap
  split
  · rename_i x y hi hj
    obtain ⟨hi', rfl⟩ := List.getElem?_eq_some_iff.mp hi
    obtain ⟨hj', rfl⟩ := List.getElem?_eq_some_iff.mp hj
    exact List.set_set_perm hi' hj'
  · exact .refl l

theorem siftUp_perm (passes i : Nat) (l : List α) : (siftUp before passes i l).Perm l := by
  induction passes generalizing i l with
  | zero => exact .refl l
  | succ passes ih =>
    unfold siftUp
    split
    · split
      · exact (ih _ _).trans (swap_perm l _ _)
      · exact .refl l
    · exact .refl l

theorem siftDown_perm (passes i : Nat) (l : List α) : (siftDown before passes i l).Perm l := by
  induction passes generalizing i l with
  | zero => exact .refl l
  | succ passes ih =>
    unfold siftDown
    split
    · exact .refl l
    · exact (ih _ _).trans (swap_perm l _ _)

theorem push_perm (x : α) (l : List α) : (push before x l).Perm (x :: l) :=
  (siftUp_perm _ _ _).trans (List.perm_append_singleton x l)

theorem pop_perm {x : α} {l l' : List α} (h : pop before l = some (x, l')) : (x :: l').Perm l := by
  cases l with
  | nil => cases h
  | cons y l =>
    cases h
    refine ((siftDown_perm _ _ _).trans ?_).cons _
    rcases List.eq_nil_or_concat l with rfl | ⟨l, z, rfl⟩
    · exact .refl _
    · rw [List.concat_eq_append]
      simp only [List.set_cons_zero, ne_eq, not_false_eq_true, List.getLast_cons,
        List.append_eq_nil_iff, List.cons_ne_self, and_false, List.getLast_append_singleton]
      rw [← List.cons_append, List.dropLast_concat]
      exact (List.perm_append_singleton z l).symm

theorem pop_eq_none {l : List α} : pop before l = none ↔ l = [] := by
  cases l with
  | nil => exact iff_of_true rfl rfl
  | cons x l => exact iff_of_false (fun h => by cases h) (List.cons_ne_nil x l)

theorem pop_root {x : α} {l l' : List α} (h : pop before l = some (x, l')) : l[0]? = some x := by
  cases l with
  | nil => cases h
  | cons y l =>
    cases h
    rfl

theorem rebuild_perm (l : List α) : (rebuild before l).Perm l := by
  unfold rebuild
  generalize (List.range (l.length / 2)).reverse = is
  induction is generalizing l with
  | nil => exact .refl l
  | cons i is ih => exact (ih _).trans (siftDown_perm _ _ _)

/-! ## The order -/

/-- The element at `j` is not before its parent. -/
def InOrder (before : α → α → Bool) (l : List α) (j : Nat) : Prop :=
  ∀ x y, l[j]? = some x → l[(j - 1) / 2]? = some y → before x y = false

/-- No element is before its parent. -/
def Ordered (before : α → α → Bool) (l : List α) : Prop := ∀ j, InOrder before l j

theorem getElem?_swap {l : List α} {i j : Nat} {x y : α} (hi : l[i]? = some x)
    (hj : l[j]? = some y) (k : Nat) :
    (swap l i j)[k]? = if k = j then some x else if k = i then some y else l[k]? := by
  obtain ⟨hi', -⟩ := List.getElem?_eq_some_iff.mp hi
  obtain ⟨hj', -⟩ := List.getElem?_eq_some_iff.mp hj
  rw [swap, hi, hj]
  by_cases hkj : k = j
  · subst hkj
    rw [if_pos rfl, List.getElem?_set_self (by rw [List.length_set]; exact hj')]
  · rw [if_neg hkj, List.getElem?_set_ne (Ne.symm hkj)]
    by_cases hki : k = i
    · subst hki
      rw [if_pos rfl, List.getElem?_set_self hi']
    · rw [if_neg hki, List.getElem?_set_ne (Ne.symm hki)]

theorem length_swap (l : List α) (i j : Nat) : (swap l i j).length = l.length := (swap_perm l i j).length_eq

variable [StrictOrder before]

theorem irrefl (x : α) : before x x = false := by
  by_contra h
  exact h (StrictOrder.asymm (eq_true_of_ne_false h))

/-- The weak order after the strict one. -/
theorem not_before_of_before {x y z : α} (h : before x y = true) (h' : before z y = false) :
    before z x = false :=
  StrictOrder.trans (StrictOrder.asymm h) h'

theorem before_trans {x y z : α} (h : before x y = true) (h' : before y z = true) :
    before x z = true := by
  by_contra hn
  have := StrictOrder.trans (eq_false_of_ne_true hn) (StrictOrder.asymm h)
  cases this.symm.trans h'

/-! ### Moving up -/

/-- Only the element at `i` may be before its parent; its children are not. -/
structure Rising (before : α → α → Bool) (l : List α) (i : Nat) : Prop where
  others : ∀ j, j ≠ i → InOrder before l j
  grand : i ≠ 0 → ∀ j, (j - 1) / 2 = i → ∀ x y, l[j]? = some x → l[(i - 1) / 2]? = some y →
    before x y = false

omit [StrictOrder before] in
theorem Rising.ordered {l : List α} {i : Nat} (h : Rising before l i) (hi : InOrder before l i) :
    Ordered before l := by
  intro j
  by_cases hj : j = i
  · exact hj ▸ hi
  · exact h.others j hj

theorem Rising.swap {l : List α} {i : Nat} {x y : α} (h : Rising before l i) (hx : l[i]? = some x)
    (hy : l[(i - 1) / 2]? = some y) (hb : before x y = true) :
    Rising before (swap l i ((i - 1) / 2)) ((i - 1) / 2) := by
  have hi : i ≠ 0 := by
    rintro rfl
    rw [hx] at hy
    cases hy
    cases (irrefl x).symm.trans hb
  obtain ⟨p, hp⟩ : ∃ p, p = (i - 1) / 2 := ⟨_, rfl⟩
  rw [← hp] at hy ⊢
  have hget := getElem?_swap hx hy
  constructor
  · intro j hj u v hu hv
    rw [hget, if_neg hj] at hu
    rw [hget] at hv
    split at hu
    · -- the old parent is below the element now
      rename_i hji
      rw [hji, ← hp, if_pos rfl] at hv
      cases hu
      cases hv
      exact StrictOrder.asymm hb
    · rename_i hji
      split at hv
      · -- the sibling
        rename_i hjp
        cases hv
        exact not_before_of_before hb (h.others j hji u y hu (hjp ▸ hy))
      · split at hv
        · rename_i hjp
          cases hv
          exact h.grand hi j hjp u y hu (hp ▸ hy)
        · exact h.others j hji u v hu hv
  · intro hp0 j hj u v hu hv
    rw [hget, if_neg (by omega), if_neg (by omega)] at hv
    rw [hget, if_neg (by omega)] at hu
    have hpv : before y v = false := h.others p (by omega) y v hy hv
    split at hu
    · cases hu
      exact hpv
    · exact StrictOrder.trans hpv (h.others j ‹_› u y hu (hj ▸ hy))

theorem Rising.siftUp {l : List α} {passes i : Nat} (h : Rising before l i) (hi : i ≤ passes) :
    Ordered before (siftUp before passes i l) := by
  induction passes generalizing i l with
  | zero =>
    obtain rfl : i = 0 := Nat.le_zero.mp hi
    refine h.ordered fun x y hx hy => ?_
    rw [hx] at hy
    cases hy
    exact irrefl x
  | succ passes ih =>
    unfold Heap.siftUp
    split
    · rename_i x y hx hy
      split
      · exact ih (h.swap hx hy ‹_›) (by omega)
      · refine h.ordered fun u v hu hv => ?_
        rw [hx] at hu
        rw [hy] at hv
        cases hu
        cases hv
        exact eq_false_of_ne_true ‹_›
    · rename_i hnone
      exact h.ordered fun u v hu hv => (hnone u v hu hv).elim

theorem Ordered.push {l : List α} (h : Ordered before l) (x : α) : Ordered before (push before x l) := by
  refine Rising.siftUp ⟨fun j hj u v hu hv => ?_, fun _ j hj u v hu _ => ?_⟩ (Nat.le_refl _)
  · have hlt : j < l.length := by
      have := (List.getElem?_eq_some_iff.mp hu).1
      rw [List.length_append, List.length_singleton] at this
      omega
    rw [List.getElem?_append_left hlt] at hu
    rw [List.getElem?_append_left (by omega)] at hv
    exact h j u v hu hv
  · have := (List.getElem?_eq_some_iff.mp hu).1
    rw [List.length_append, List.length_singleton] at this
    omega

/-! ### Moving down -/

/-- From the position `s` on, only the children of `i` may be before their parent. They are not
before the parent of `i`. -/
structure Sinking (before : α → α → Bool) (l : List α) (s i : Nat) : Prop where
  le : s ≤ i
  others : ∀ j, 0 < j → s ≤ (j - 1) / 2 → (j - 1) / 2 ≠ i → InOrder before l j
  grand : 0 < i → s ≤ (i - 1) / 2 → ∀ j, 0 < j → (j - 1) / 2 = i → ∀ x y, l[j]? = some x →
    l[(i - 1) / 2]? = some y → before x y = false

/-- From the position `s` on, no child is before its parent. -/
def OrderedFrom (before : α → α → Bool) (l : List α) (s : Nat) : Prop :=
  ∀ j, 0 < j → s ≤ (j - 1) / 2 → InOrder before l j

theorem smaller_cases (before : α → α → Bool) (l : List α) (i c : Nat) :
    smaller before l i c = c ∧ (∃ x y, l[c]? = some x ∧ l[i]? = some y ∧ before x y = true) ∨
      smaller before l i c = i ∧ ∀ x y, l[c]? = some x → l[i]? = some y → before x y = false := by
  unfold smaller
  split
  · rename_i x y hx hy
    split
    · exact .inl ⟨rfl, x, y, hx, hy, ‹_›⟩
    · refine .inr ⟨rfl, fun u v hu hv => ?_⟩
      rw [hx] at hu
      rw [hy] at hv
      cases hu
      cases hv
      exact eq_false_of_ne_true ‹_›
  · rename_i hnone
    exact .inr ⟨rfl, fun u v hu hv => (hnone u v hu hv).elim⟩

/-- Either the children are not before the element, or the first of them is taken. -/
theorem smallest_cases (before : α → α → Bool) [StrictOrder before] (l : List α) (i : Nat) :
    smallest before l i = i ∧
        (∀ j, (j = 2 * i + 1 ∨ j = 2 * i + 2) → ∀ x y, l[j]? = some x → l[i]? = some y →
          before x y = false) ∨
      ∃ c x y, smallest before l i = c ∧ (c = 2 * i + 1 ∨ c = 2 * i + 2) ∧ l[c]? = some x ∧
        l[i]? = some y ∧ before x y = true ∧
        ∀ j, (j = 2 * i + 1 ∨ j = 2 * i + 2) → ∀ z, l[j]? = some z → before z x = false := by
  unfold smallest
  rcases smaller_cases before l i (2 * i + 1) with ⟨h₁, x, y, hx, hy, hb⟩ | ⟨h₁, hle⟩
  · rw [h₁]
    rcases smaller_cases before l (2 * i + 1) (2 * i + 2) with
      ⟨h₂, u, v, hu, hv, hb'⟩ | ⟨h₂, hle'⟩
    · cases hx.symm.trans hv
      refine .inr ⟨2 * i + 2, u, y, h₂, .inr rfl, hu, hy, before_trans hb' hb, fun j hj z hz => ?_⟩
      rcases hj with rfl | rfl
      · cases hx.symm.trans hz
        exact StrictOrder.asymm hb'
      · cases hu.symm.trans hz
        exact irrefl u
    · refine .inr ⟨2 * i + 1, x, y, h₂, .inl rfl, hx, hy, hb, fun j hj z hz => ?_⟩
      rcases hj with rfl | rfl
      · cases hx.symm.trans hz
        exact irrefl x
      · exact hle' z x hz hx
  · rw [h₁]
    rcases smaller_cases before l i (2 * i + 2) with ⟨h₂, x, y, hx, hy, hb⟩ | ⟨h₂, hle'⟩
    · refine .inr ⟨2 * i + 2, x, y, h₂, .inr rfl, hx, hy, hb, fun j hj z hz => ?_⟩
      rcases hj with rfl | rfl
      · exact not_before_of_before hb (hle z y hz hy)
      · cases hx.symm.trans hz
        exact irrefl x
    · refine .inl ⟨h₂, fun j hj u v hu hv => ?_⟩
      rcases hj with rfl | rfl
      · exact hle u v hu hv
      · exact hle' u v hu hv

theorem Sinking.swap {l : List α} {s i c : Nat} {x y : α} (h : Sinking before l s i)
    (hc : c = 2 * i + 1 ∨ c = 2 * i + 2) (hx : l[c]? = some x) (hy : l[i]? = some y)
    (hb : before x y = true)
    (hmin : ∀ j, (j = 2 * i + 1 ∨ j = 2 * i + 2) → ∀ z, l[j]? = some z → before z x = false) :
    Sinking before (swap l i c) s c := by
  have hget := getElem?_swap hy hx
  have hle := h.le
  refine ⟨by omega, fun j h0 hs hj u v hu hv => ?_, fun _ _ j h0 hj u v hu hv => ?_⟩
  · rw [hget, if_neg hj] at hv
    rw [hget] at hu
    by_cases hpi : (j - 1) / 2 = i
    · -- a child of `i`, under the element that was taken
      rw [if_pos hpi] at hv
      cases hv
      split at hu
      · cases hu
        exact StrictOrder.asymm hb
      · rw [if_neg (by omega)] at hu
        exact hmin j (by omega) u hu
    · rw [if_neg hpi] at hv
      rw [if_neg (by omega)] at hu
      split at hu
      · rename_i hji
        cases hu
        exact h.grand (by omega) (hji ▸ hs) c (by omega) (by omega) x v hx (hji ▸ hv)
      · exact h.others j h0 hs hpi u v hu hv
  · rw [hget, if_neg (by omega), if_pos (by omega)] at hv
    rw [hget, if_neg (by omega), if_neg (by omega)] at hu
    cases hv
    exact h.others j h0 (by omega) (by omega) u x hu (hj ▸ hx)

theorem Sinking.siftDown {l : List α} {passes s i : Nat} (h : Sinking before l s i)
    (hi : l.length ≤ passes + i) : OrderedFrom before (siftDown before passes i l) s := by
  induction passes generalizing i l with
  | zero =>
    show OrderedFrom before l s
    intro j h0 hs u v hu hv
    by_cases hj : (j - 1) / 2 = i
    · have := (List.getElem?_eq_some_iff.mp hv).1
      omega
    · exact h.others j h0 hs hj u v hu hv
  | succ passes ih =>
    unfold Heap.siftDown
    rcases smallest_cases before l i with ⟨heq, hle⟩ | ⟨c, x, y, heq, hc, hx, hy, hb, hmin⟩
    · rw [if_pos heq]
      intro j h0 hs u v hu hv
      by_cases hj : (j - 1) / 2 = i
      · exact hle j (by omega) u v hu (hj ▸ hv)
      · exact h.others j h0 hs hj u v hu hv
    · rw [heq, if_neg (by omega)]
      exact ih (h.swap hc hx hy hb hmin) (by rw [length_swap]; omega)

theorem OrderedFrom.siftDown {l : List α} {s : Nat} (h : OrderedFrom before l (s + 1)) :
    OrderedFrom before (siftDown before l.length s l) s := by
  refine Sinking.siftDown ⟨Nat.le_refl s, fun j h0 hs hj => h j h0 (by omega), ?_⟩ (Nat.le_add_right _ _)
  intro h0 hs
  omega

theorem OrderedFrom.ordered {l : List α} (h : OrderedFrom before l 0) : Ordered before l := by
  intro j
  rcases Nat.eq_zero_or_pos j with rfl | h0
  · intro x y hx hy
    cases hx.symm.trans hy
    exact irrefl x
  · exact h j h0 (Nat.zero_le _)

theorem Ordered.pop {x : α} {l l' : List α} (h : Ordered before l) (hp : pop before l = some (x, l')) :
    Ordered before l' := by
  cases l with
  | nil => cases hp
  | cons y l =>
    cases hp
    refine (OrderedFrom.siftDown fun j h0 hs u v hu hv => ?_).ordered
    -- only the root is new
    rw [List.getElem?_dropLast] at hu hv
    split at hu
    · split at hv
      · rw [List.getElem?_set_ne (by omega)] at hu hv
        exact h j u v hu hv
      · cases hv
    · cases hu

theorem Ordered.rebuild (l : List α) : Ordered before (rebuild before l) := by
  have hstart : OrderedFrom before l (l.length / 2) := by
    intro j h0 hs u v hu hv
    have := (List.getElem?_eq_some_iff.mp hu).1
    omega
  unfold Heap.rebuild
  generalize l.length / 2 = k at hstart
  induction k generalizing l with
  | zero => exact hstart.ordered
  | succ k ih =>
    rw [List.range_succ, List.reverse_append, List.reverse_singleton, List.singleton_append,
      List.foldl_cons]
    exact ih _ hstart.siftDown

/-- Nothing is before the root. -/
theorem Ordered.root_first {x y : α} {l : List α} (h : Ordered before l) (hx : l[0]? = some x)
    (hy : y ∈ l) : before y x = false := by
  obtain ⟨j, hj⟩ := List.mem_iff_getElem?.mp hy
  clear hy
  induction j using Nat.strongRecOn generalizing y with
  | ind j ih =>
    rcases Nat.eq_zero_or_pos j with rfl | h0
    · cases hx.symm.trans hj
      exact irrefl x
    · have hlt := (List.getElem?_eq_some_iff.mp hj).1
      have hp := List.getElem?_eq_getElem (l := l) (i := (j - 1) / 2) (by omega)
      exact StrictOrder.trans (ih _ (by omega) hp) (h j y _ hj hp)

/-- The root is what a linear search finds. -/
theorem Ordered.least_eq {l : List α} (h : Ordered before l) : least before l = l[0]? := by
  cases l with
  | nil => rfl
  | cons x l =>
    have hx : ∀ y ∈ l, before y x = false := fun y hy =>
      h.root_first rfl (List.mem_cons_of_mem x hy)
    have hfold : ∀ l : List α, (∀ y ∈ l, before y x = false) →
        l.foldl (fun best y => if before y best then y else best) x = x := by
      intro l hl
      induction l with
      | nil => rfl
      | cons y l ih =>
        obtain ⟨hy, hrest⟩ := List.forall_mem_cons.mp hl
        rw [List.foldl_cons, hy]
        exact ih hrest
    exact congrArg some (hfold l hx)

end Heap
