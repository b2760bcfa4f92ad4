import Mathlib.Data.List.Basic
import Mathlib.Tactic.Common

/-!
# Streams that are written and read in parts

A writer takes a part of what it is given in each call, and a reader returns a part of what is asked
for. How much is up to them: `accepts k` and `chunks k` bound the `k`th call. The loops that go on
until everything is written, or enough is read, do not depend on it:

* `writeFull_eq`: everything is written, in order.
* `readFull_eq`: what is read is what the stream begins with.
-/

namespace Stream

variable {α : Type}

/-- What was written, and in how many calls. -/
structure Writer (α : Type) where
  written : List α := []
  calls : Nat := 0

/-- Writes until nothing is left. A call that takes nothing ends the loop. -/
def writeLoop (accepts : Nat → Nat) : Nat → List α → Writer α → Option (Writer α)
  | _, [], w => some w
  | 0, _ :: _, _ => none
  | passes + 1, x :: data, w =>
    let n := min (accepts w.calls) (x :: data).length
    if n = 0 then none
    else writeLoop accepts passes ((x :: data).drop n)
      ⟨w.written ++ (x :: data).take n, w.calls + 1⟩

/-- A call that takes something leaves less to write, so there are at most `data.length` of them. -/
def writeFull (accepts : Nat → Nat) (data : List α) (w : Writer α) : Option (Writer α) :=
  writeLoop accepts data.length data w

/-- What is left to read, and how many calls were made. -/
structure Reader (α : Type) where
  rest : List α
  calls : Nat := 0

/-- Reads until there are `count` elements, or the stream ends. -/
def readLoop (chunks : Nat → Nat) : Nat → Nat → Reader α → List α × Reader α
  | 0, _, r => ([], r)
  | passes + 1, count, r =>
    if count = 0 ∨ r.rest = [] then ([], r)
    else
      let n := min (min (chunks r.calls) count) r.rest.length
      let (got, r') := readLoop chunks passes (count - n) ⟨r.rest.drop n, r.calls + 1⟩
      (r.rest.take n ++ got, r')

/-- The stream ended before anything was read, or in the middle. -/
inductive ReadError where
  | eof
  | unexpectedEOF
  deriving DecidableEq, Repr

/-- `io.ReadFull`: an end of the stream before the first byte is told apart from a later one. -/
def readFull (chunks : Nat → Nat) (count : Nat) (r : Reader α) :
    Except ReadError (List α × Reader α) :=
  let (got, r') := readLoop chunks count count r
  if got.length = count then .ok (got, r')
  else if got = [] then .error .eof
  else .error .unexpectedEOF

theorem writeLoop_eq {accepts : Nat → Nat} (hpos : ∀ k, 0 < accepts k) {passes : Nat} {data : List α}
    (hp : data.length ≤ passes) (w : Writer α) :
    ∃ calls, writeLoop accepts passes data w = some ⟨w.written ++ data, calls⟩ := by
  induction passes generalizing data w with
  | zero =>
    rw [List.length_eq_zero_iff.mp (Nat.le_zero.mp hp), List.append_nil]
    exact ⟨w.calls, rfl⟩
  | succ passes ih =>
    cases data with
    | nil =>
      rw [List.append_nil]
      exact ⟨w.calls, rfl⟩
    | cons x data =>
      have hn : 0 < min (accepts w.calls) (x :: data).length :=
        Nat.lt_min.mpr ⟨hpos _, Nat.succ_pos _⟩
      unfold writeLoop
      simp only [if_neg (Nat.ne_of_gt hn)]
      generalize min (accepts w.calls) (x :: data).length = n at hn
      have hlen : ((x :: data).drop n).length ≤ passes := by
        rw [List.length_drop]
        omega
      obtain ⟨calls, h⟩ := ih hlen ⟨w.written ++ (x :: data).take n, w.calls + 1⟩
      rw [h]
      simp only [List.append_assoc, List.take_append_drop]
      exact ⟨calls, rfl⟩

theorem writeFull_eq {accepts : Nat → Nat} (hpos : ∀ k, 0 < accepts k) (data : List α) (w : Writer α) :
    ∃ calls, writeFull accepts data w = some ⟨w.written ++ data, calls⟩ :=
  writeLoop_eq hpos (Nat.le_refl _) w

theorem readLoop_eq {chunks : Nat → Nat} (hpos : ∀ k, 0 < chunks k) {passes count : Nat}
    (hp : count ≤ passes) (r : Reader α) :
    ∃ calls, readLoop chunks passes count r = (r.rest.take count, ⟨r.rest.drop count, calls⟩) := by
  induction passes generalizing count r with
  | zero =>
    rw [Nat.le_zero.mp hp]
    exact ⟨r.calls, rfl⟩
  | succ passes ih =>
    unfold readLoop
    by_cases hend : count = 0 ∨ r.rest = []
    · rw [if_pos hend]
      refine ⟨r.calls, ?_⟩
      rcases hend with rfl | h
      · rfl
      · rw [h, List.take_nil, List.drop_nil, ← h]
    · rw [if_neg hend]
      obtain ⟨hcount, hrest⟩ := not_or.mp hend
      have hlen := List.length_pos_of_ne_nil hrest
      have hchunk := hpos r.calls
      generalize hn : min (min (chunks r.calls) count) r.rest.length = n
      have hleft : count - n ≤ passes := by omega
      obtain ⟨calls, h⟩ := ih hleft ⟨r.rest.drop n, r.calls + 1⟩
      refine ⟨calls, ?_⟩
      simp only [h, List.drop_drop]
      rw [← List.take_add, Nat.add_sub_cancel' (by omega)]

/-- Enough is there. -/
theorem readFull_eq {chunks : Nat → Nat} (hpos : ∀ k, 0 < chunks k) {count : Nat} {r : Reader α}
    (h : count ≤ r.rest.length) :
    ∃ calls, readFull chunks count r = .ok (r.rest.take count, ⟨r.rest.drop count, calls⟩) := by
  obtain ⟨calls, hloop⟩ := readLoop_eq hpos (Nat.le_refl count) r
  refine ⟨calls, ?_⟩
  simp only [readFull, hloop, List.length_take, Nat.min_eq_left h, if_true]

/-- The stream ends before that. -/
theorem readFull_short {chunks : Nat → Nat} (hpos : ∀ k, 0 < chunks k) {count : Nat} {r : Reader α}
    (h : r.rest.length < count) :
    readFull chunks count r = .error (if r.rest = [] then .eof else .unexpectedEOF) := by
  obtain ⟨calls, hloop⟩ := readLoop_eq hpos (Nat.le_refl count) r
  have hne : r.rest.length ≠ count := Nat.ne_of_lt h
  simp only [readFull, hloop, List.take_of_length_le (Nat.le_of_lt h), if_neg hne]
  split <;> rfl

end Stream
