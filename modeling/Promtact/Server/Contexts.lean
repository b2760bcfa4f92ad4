import Promtact.Server.Linear

/-!
# Reads with the same context

A server names a read by the context `(ClientID << 32) ^ RequestID`, and a leader counts the
acknowledgements for the context of the read that it waits for. A read that is asked for again has
the context of the first one, and so may a read of another client, as the upper half of its number is
shifted out. An acknowledgement that is still under way then counts for the later read.

* `stale_read`: a leader that has been replaced answers such a read with an old value, after the new
  leader has acknowledged a write.
* `linearizable_of_distinct_contexts`: where no server is asked for two reads with the same context,
  and no server compacts its log, what the clients see is what a map would do.
-/

namespace Promtact.Service

open Raft Protocol StateMachine Refine Network Linearizability

/-! ## Distinct contexts -/

/-- What the clients see is what a map would do, if snapshots are disabled and a server does not get
two reads with the same context. -/
theorem linearizable_of_distinct_contexts (S : Setup Disk) {snapshotEntries : Nat → Nat} {c : Servers}
    (hdisabled : ∀ i, snapshotEntries i = 0)
    (hr : Net.Runs (act S snapshotEntries) (fun _ _ _ => True) (start S) c)
    (hreads : (readsOn c.sent).Nodup) : Linearizable kv (history c.sent) := by
  obtain ⟨g, hg, hc, hd⟩ := follows_of_runs false true (fun _ => hdisabled)
    (not_installs_of_runs hdisabled hr) fun _ => hreads
  refine hg.linearizable (orderly_of_runs hr).2 hd fun _ _ _ hcompacts => ?_
  cases hc.symm.trans hcompacts

/-- A client has written 7 and reads it. -/
theorem linearizable_of_distinct_contexts_trio : ∃ c,
    Net.Runs (act trio fun _ => 0) (fun _ _ _ => True) (start trio) c ∧ (readsOn c.sent).Nodup ∧
      history c.sent = [.call (.write 5 1) (.put 3 7), .ret (.write 5 1) (some 7),
        .call (.read 1) (.get 3), .ret (.read 1) (some 7)] ∧
      Linearizable kv (history c.sent) := by
  have h : ((start trio).play (act trio fun _ => 0) (fun _ _ _ => True) served).any (fun c =>
      decide ((readsOn c.sent).Nodup ∧
        history c.sent = [.call (.write 5 1) (.put 3 7), .ret (.write 5 1) (some 7),
          .call (.read 1) (.get 3), .ret (.read 1) (some 7)])) = true := by
    decide +kernel
  simp only [Option.any_eq_true, decide_eq_true_eq] at h
  obtain ⟨c, hc, hreads, hhistory⟩ := h
  exact ⟨c, .of_play hc, hreads, hhistory,
    linearizable_of_distinct_contexts trio (fun _ => rfl) (.of_play hc) hreads⟩

/-! ## A context that is used twice -/

/-- Key 3 is read as missing, then 9 is written to it, then it is read as missing again. -/
def staleHistory : List (Ev Name MapOp (Option UInt64)) :=
  [.call (.read 0) (.get 3), .ret (.read 0) none, .call (.write 7 1) (.put 3 9),
    .ret (.write 7 1) (some 9), .call (.read 2) (.get 3), .ret (.read 2) none]

/-- Where nothing else is written, the value that was written stays. -/
theorem run_put {s : List (Name × MapOp)} {key value : UInt64} {a : Name}
    (hs : ∀ x ∈ s, x.2 = .put key value ∨ ∃ k, x.2 = .get k) (ha : (a, .put key value) ∈ s) :
    kv.run s key = some value := by
  induction s using List.reverseRecOn with
  | nil => cases ha
  | append_singleton s x ih =>
    rw [Object.run_append]
    show (kv.step (kv.run s) x.2).1 key = some value
    rcases hs x (by simp) with hx | ⟨k, hx⟩
    · rw [hx]
      exact Function.update_self ..
    · rw [hx]
      refine ih (fun y hy => hs y (List.mem_append_left _ hy)) ?_
      refine (List.mem_append.mp ha).resolve_right fun hlast => ?_
      rw [← List.mem_singleton.mp hlast] at hx
      cases hx

theorem not_linearizable_staleHistory : ¬ Linearizable kv staleHistory := by
  rintro ⟨s, hs⟩
  obtain ⟨s₁, op, s₂, heq, hresult⟩ := hs.results (.read 2) none (by decide)
  obtain ⟨t₁, op', t₂, heq', -⟩ := hs.results (.write 7 1) (some 9) (by decide)
  have hwrite : (.write 7 1, op') ∈ s := by rw [heq']; simp
  have hread : (.read 2, op) ∈ s := by rw [heq]; simp
  have hput : op' = .put 3 9 := by simpa [staleHistory] using hs.called _ hwrite
  have hget : op = .get 3 := by simpa [staleHistory] using hs.called _ hread
  subst hput hget
  -- the write was answered before the second read was asked for
  have hbefore := hs.before heq hwrite nofun ⟨staleHistory.take 3, some 9, staleHistory.drop 4, rfl,
    by simp [staleHistory]⟩
  have hrun : kv.run s₁ 3 = some 9 := by
    refine run_put (fun x hx => ?_) hbefore
    have hcalled := hs.called x (by rw [heq]; exact List.mem_append_left _ hx)
    simp only [staleHistory, List.mem_cons, List.not_mem_nil, or_false, reduceCtorEq, false_or,
      Ev.call.injEq] at hcalled
    rcases hcalled with ⟨-, hx⟩ | ⟨-, hx⟩ | ⟨-, hx⟩ <;> rw [hx]
    · exact .inr ⟨3, rfl⟩
    · exact .inl rfl
    · exact .inr ⟨3, rfl⟩
  cases hrun.symm.trans hresult

/-- Request number 5 of a client, which reads key 3. -/
def readOf (client : UInt64) (reply : Nat) : Request :=
  ⟨{ operation := .get, clientID := client, requestID := 5, key := 3 }, reply⟩

/-- Server 1 is elected and answers a read of client 1. Item 19, the acknowledgement of server 3 for
it, stays under way. -/
def answeredRead : List Move :=
  [.restart 3] ++ opened ++ [7, 14].map Move.deliver ++ [.pass 1 (.request (readOf 1 0))] ++
  [18, 17, 20].map Move.deliver

/-- Server 2 is elected with the vote of server 3. -/
def replaced : List Move :=
  [.pass 3 .tick, .pass 3 .tick, .pass 3 .tick, .pass 2 .tick, .pass 2 .tick] ++
  [25, 26, 28, 29, 31, 32, 33, 34].map Move.deliver

/-- A client writes 9 to key 3, and server 2 acknowledges it. -/
def overwritten : List Move :=
  .pass 2 (.request ⟨{ operation := .put, clientID := 7, requestID := 1, key := 3, value := 9 }, 1⟩) ::
  [39, 40].map Move.deliver

/-- Server 1 does not know of the write when `client` reads from it, and gets the old
acknowledgement. -/
def staleRead (client : UInt64) : List Move :=
  answeredRead ++ replaced ++ overwritten ++ [.pass 1 (.request (readOf client 2)), .deliver 19]

/-- Server 1 is asked by client 1 and then by `client`, and what the clients see is not what a map
would do. -/
structure StaleAnswer (client : UInt64) (c : Servers) : Prop where
  run : Net.Runs (act trio fun _ => 0) (fun _ _ _ => True) (start trio) c
  first : .asked 1 (readOf 1 0) ∈ c.sent
  second : .asked 1 (readOf client 2) ∈ c.sent
  history : history c.sent = staleHistory
  refuted : ¬ Linearizable kv (Service.history c.sent)

theorem exists_staleAnswer {client : UInt64}
    (h : ((start trio).play (act trio fun _ => 0) (fun _ _ _ => True) (staleRead client)).any (fun c =>
      decide (.asked 1 (readOf 1 0) ∈ c.sent ∧ .asked 1 (readOf client 2) ∈ c.sent ∧
        history c.sent = staleHistory)) = true) : ∃ c, StaleAnswer client c := by
  simp only [Option.any_eq_true, decide_eq_true_eq] at h
  obtain ⟨c, hc, hfirst, hsecond, hhistory⟩ := h
  exact ⟨c, .of_play hc, hfirst, hsecond, hhistory, hhistory ▸ not_linearizable_staleHistory⟩

/-- The second read is that of client 1 again, or that of client `2 ^ 32 + 1`. -/
theorem stale_read : (∃ c, StaleAnswer 1 c) ∧ ∃ c, StaleAnswer 4294967297 c := by
  constructor
  · apply exists_staleAnswer
    decide +kernel
  · apply exists_staleAnswer
    decide +kernel

end Promtact.Service
