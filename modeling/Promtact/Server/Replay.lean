import Promtact.Raft.Refine.Ops
import Promtact.StateMachine

/-!
# The machine after a log

`replay ℓ` is the machine that a server has after the log `ℓ`: it applies the commands and skips the
other entries.

* `Executed ℓ client request value`: the request was executed in `ℓ`, and its result was `value`. An
  entry of the request that comes later is answered with the same result (`executed_of_apply`), and so
  is a question for the record of the client (`executed_of_cached`).
* `restore_replay`: a snapshot brings the machine back, if the log has fewer than `2 ^ 32` entries.
-/

namespace Promtact.Service

open Raft StateMachine

/-- The commands of a log. -/
def commandsOf (ℓ : List Entry) : List Entry := ℓ.filter fun e => e.kind = .normal

/-- The machine after the commands of a log. -/
def replay (ℓ : List Entry) : Machine := applyAll (commandsOf ℓ)

theorem commandsOf_append (ℓ ℓ' : List Entry) : commandsOf (ℓ ++ ℓ') = commandsOf ℓ ++ commandsOf ℓ' :=
  List.filter_append ..

theorem mem_commandsOf {ℓ : List Entry} {e : Entry} : e ∈ commandsOf ℓ ↔ e ∈ ℓ ∧ e.kind = .normal := by
  simp [commandsOf]

/-- A log up to `b` is the log up to `a` and the commands that are applied after it. -/
theorem commandsOf_take (ℓ : List Entry) {a b : Nat} (h : a ≤ b) :
    commandsOf (ℓ.take b) = commandsOf (ℓ.take a) ++ commands ℓ a b := by
  have hsplit : ℓ.take b = ℓ.take a ++ (ℓ.take b).drop a := by
    conv_lhs => rw [← List.take_append_drop a (ℓ.take b)]
    rw [List.take_take, Nat.min_eq_left h]
  conv_lhs => rw [hsplit, commandsOf_append]
  rfl

/-- The place of a command in the log. -/
theorem commandsOf_split {ℓ before later : List Entry} {e : Entry}
    (h : commandsOf ℓ = before ++ e :: later) :
    ∃ ℓ₁ ℓ₂, ℓ = ℓ₁ ++ e :: ℓ₂ ∧ commandsOf ℓ₁ = before ∧ e.kind = .normal := by
  obtain ⟨ℓ₁, ℓ₂, rfl, h₁, h₂⟩ := List.filter_eq_append_iff.mp h
  obtain ⟨ℓ₃, ℓ₄, rfl, hnot, he, -⟩ := List.filter_eq_cons_iff.mp h₂
  refine ⟨ℓ₁ ++ ℓ₃, ℓ₄, by rw [List.append_assoc], ?_, of_decide_eq_true he⟩
  have hnone : commandsOf ℓ₃ = [] := List.filter_eq_nil_iff.mpr hnot
  have hfirst : commandsOf ℓ₁ = before := h₁
  rw [commandsOf_append, hnone, List.append_nil, hfirst]

/-! ## Requests that were executed -/

/-- A request of the client was executed with this result. -/
def Executed (ℓ : List Entry) (client request value : UInt64) : Prop :=
  ∃ before e later, ℓ = before ++ e :: later ∧ e.kind = .normal ∧ e.clientID = client ∧
    e.requestID = request ∧ Fresh (commandsOf before) e ∧
    ∃ result, ((replay before).apply e).2 = .ok result ∧ result.value = value

/-- The same in a list of commands. -/
def ExecutedIn (es : List Entry) (client request value : UInt64) : Prop :=
  ∃ before e later, es = before ++ e :: later ∧ e.clientID = client ∧ e.requestID = request ∧
    Fresh before e ∧ ∃ result, ((applyAll before).apply e).2 = .ok result ∧ result.value = value

theorem ExecutedIn.append {es : List Entry} {client request value : UInt64}
    (h : ExecutedIn es client request value) (more : List Entry) :
    ExecutedIn (es ++ more) client request value := by
  obtain ⟨before, e, later, rfl, hrest⟩ := h
  exact ⟨before, e, later ++ more, by simp, hrest⟩

theorem ExecutedIn.executed {ℓ : List Entry} {client request value : UInt64}
    (h : ExecutedIn (commandsOf ℓ) client request value) : Executed ℓ client request value := by
  obtain ⟨before, e, later, hes, hc, hq, hf, result, hr, hv⟩ := h
  obtain ⟨ℓ₁, ℓ₂, hℓ, hb, hk⟩ := commandsOf_split hes
  exact ⟨ℓ₁, e, ℓ₂, hℓ, hk, hc, hq, hb ▸ hf, result, by rw [replay, hb, hr], hv⟩

/-- The record of a client is that of a request that was executed. -/
theorem record_executed {es : List Entry} (hs : ∀ e ∈ es, Supported e) {client : UInt64}
    {record : ClientRecord} (h : (applyAll es).clients[client]? = some record) :
    ExecutedIn es client record.requestID record.value := by
  induction es using List.reverseRecOn with
  | nil => simp [applyAll] at h
  | append_singleton es e ih =>
    have hs' := fun e' he' => hs e' (List.mem_append_left [e] he')
    have hw := highWater_applyAll hs'
    rw [applyAll_snoc] at h
    by_cases hf : Fresh es e
    · obtain ⟨value, found, hexec⟩ := execute_eq (m := applyAll es) (hs e (by simp)) hf.1
      rw [hw.apply_fresh hf, hexec] at h
      by_cases hc : e.clientID = client
      · subst hc
        simp only [Machine.finish, Std.ExtTreeMap.getElem?_insert_self, Option.some.injEq] at h
        subst h
        exact ⟨es, e, [], rfl, rfl, rfl, hf, _, by rw [hw.apply_fresh hf, hexec]; rfl, rfl⟩
      · refine (ih hs' ?_).append [e]
        simpa [Machine.finish, Std.ExtTreeMap.getElem?_insert, hc] using h
    · refine (ih hs' ?_).append [e]
      by_cases hl : e.operation = .legacy
      · rwa [apply_legacy hl] at h
      · rwa [hw.apply_stale hl hf] at h

section

variable {ℓ : List Entry} (hs : ∀ e ∈ commandsOf ℓ, Supported e)
include hs

/-- An entry that is applied without an error is an execution of its request, or repeats it. -/
theorem executed_of_apply {before later : List Entry} {e : Entry} {result : Result}
    (h : commandsOf ℓ = before ++ e :: later) (hl : e.operation ≠ .legacy)
    (hr : ((applyAll before).apply e).2 = .ok result) :
    Executed ℓ e.clientID e.requestID result.value := by
  by_cases hf : Fresh before e
  · exact ExecutedIn.executed ⟨before, e, later, h, rfl, rfl, hf, result, hr, rfl⟩
  · have hs' : ∀ e' ∈ before, Supported e' := fun e' he' => hs e' (h ▸ List.mem_append_left _ he')
    have hw := highWater_applyAll hs'
    have hc := hw e.clientID
    rw [Machine.apply, if_neg hl] at hr
    cases hrec : (applyAll before).clients[e.clientID]? with
    | none =>
      rw [hrec] at hc
      exact absurd ⟨hl, fun e' he' hreq => absurd hreq (hc e' he')⟩ hf
    | some record =>
      rw [hrec] at hr hc
      dsimp only at hr
      split at hr
      · rename_i hid
        cases hr
        refine ExecutedIn.executed ?_
        rw [h, ← hid]
        exact (record_executed hs' hrec).append _
      · rename_i hne
        split at hr
        · cases hr
        · rename_i hlt
          -- a request above the record would be fresh
          refine absurd ⟨hl, fun e' he' hreq => ?_⟩ hf
          exact UInt64.lt_of_le_of_lt (hc.2 e' he' hreq)
            (UInt64.lt_of_le_of_ne (UInt64.not_lt.mp hlt) hne)

theorem executed_of_cached {client request : UInt64} {result : Result}
    (h : (replay ℓ).cached client request = .ok (some result)) :
    Executed ℓ client request result.value := by
  unfold Machine.cached at h
  cases hrec : (replay ℓ).clients[client]? with
  | none => rw [hrec] at h; cases h
  | some record =>
    rw [hrec] at h
    dsimp only at h
    split at h
    · cases h
    · rename_i hge
      split at h
      · cases h
      · rename_i hle
        cases h
        have heq : record.requestID = request :=
          UInt64.le_antisymm (UInt64.not_lt.mp hle) (UInt64.not_lt.mp hge)
        exact heq ▸ (record_executed hs hrec).executed

end

/-! ## Snapshots -/

theorem restore_replay {ℓ : List Entry} (h : ℓ.length < 2 ^ 32) :
    Machine.restore (replay ℓ).snapshot = .ok (replay ℓ) := by
  have hlen : (commandsOf ℓ).length ≤ ℓ.length := List.length_filter_le ..
  have hsize := size_applyAll_le (commandsOf ℓ)
  refine Machine.restore_snapshot ?_ ?_
  · rw [Std.ExtTreeMap.length_toList]
    exact Nat.lt_of_le_of_lt (hsize.1.trans hlen) h
  · rw [Std.ExtTreeMap.length_toList]
    exact Nat.lt_of_le_of_lt (hsize.2.trans hlen) h

theorem snapshot_ne_nil (m : Machine) : m.snapshot ≠ [] := by
  refine List.ne_nil_of_length_pos ?_
  rw [Machine.length_snapshot]
  omega

end Promtact.Service
