import Promtact.Lib.Linearizable
import Promtact.Server.Channels
import Promtact.Server.Follow

/-!
# The servers are a map

`servers_linearizable`: what the clients of the servers see is what they would see if they took
turns with a single map. A write is named by its client and its number, so one that is sent again is
the same write; a read is named by its channel. Requests that are answered with `busy`, `invalid` or
`notLeader`, or not at all, may have been executed or not.

The order is that of the log. The entries that were executed are its slots (`slots`), and a read
comes after as many of them as its response says are committed (`readPoints`).
-/

namespace Promtact.Service

open Raft Protocol StateMachine Refine Network Consensus Linearizability

/-! ## The history of a run -/

/-- What a client calls its operation by: a write by its client and number, a read by its channel.
-/
inductive Name where
  | write (client request : UInt64)
  | read (reply : Nat)
  deriving DecidableEq, Repr

/-- The operations of a map. -/
inductive MapOp where
  | put (key value : UInt64)
  | delete (key : UInt64)
  | get (key : UInt64)
  deriving DecidableEq, Repr

/-- A map. A write returns the value it wrote, and a deletion the one it deleted, or 0. -/
def kv : Object (UInt64 → Option UInt64) MapOp (Option UInt64) where
  init _ := none
  step map
    | .put key value => (Function.update map key (some value), some value)
    | .delete key => (Function.update map key none, some ((map key).getD 0))
    | .get key => (map, map key)

/-- The request for which the channel was made. -/
def requestOn (items : List Item) (reply : Nat) : Option ClientRequest :=
  items.findSome? fun
    | .asked _ r => if r.reply = reply then some r.value else none
    | _ => none

/-- The call of an operation that a request stands for. -/
def callOf (r : Request) : Option (Ev Name MapOp (Option UInt64)) :=
  match r.value.operation with
  | .put => some (.call (.write r.value.clientID r.value.requestID) (.put r.value.key r.value.value))
  | .delete => some (.call (.write r.value.clientID r.value.requestID) (.delete r.value.key))
  | .get => some (.call (.read r.reply) (.get r.value.key))
  | _ => none

/-- A response that says how the request ended. -/
def returnOf (reply : Nat) (req : ClientRequest) (response : ClientResponse) :
    Option (Ev Name MapOp (Option UInt64)) :=
  match req.operation, response.status with
  | .status, _ => none
  | .get, .ok => some (.ret (.read reply) (some response.value))
  | .get, .notFound => some (.ret (.read reply) none)
  | .get, _ => none
  | _, .ok => some (.ret (.write req.clientID req.requestID) (some response.value))
  | _, _ => none

/-- What an item is in the history of the clients. -/
def eventOf (items : List Item) : Item → Option (Ev Name MapOp (Option UInt64))
  | .peer _ => none
  | .asked _ r => callOf r
  | .answered reply response => (requestOn items reply).bind fun req => returnOf reply req response

/-- The history of the clients: calls and returns in the order of the items. -/
def history (items : List Item) : List (Ev Name MapOp (Option UInt64)) :=
  items.filterMap (eventOf items)

theorem requestOn_eq {items : List Item} (h : (askedOn items).Nodup) {id : Nat} {r : Request}
    (hr : .asked id r ∈ items) : requestOn items r.reply = some r.value := by
  have hsome : (requestOn items r.reply).isSome := by
    refine List.findSome?_isSome_iff.mpr ⟨_, hr, ?_⟩
    dsimp only
    rw [if_pos rfl]
    rfl
  obtain ⟨req, hreq⟩ := Option.isSome_iff_exists.mp hsome
  obtain ⟨x, hx, heq⟩ := List.exists_of_findSome?_eq_some hreq
  cases x with
  | peer m => cases heq
  | answered reply response => cases heq
  | asked id' r' =>
    dsimp only at heq
    split at heq
    · obtain ⟨-, rfl⟩ := Orderly.unique h hx hr ‹_›
      rw [hreq, ← heq]
    · cases heq

theorem history_split {items : List Item} {pre post : List (Ev Name MapOp (Option UInt64))}
    {ev : Ev Name MapOp (Option UInt64)} (h : history items = pre ++ ev :: post) :
    ∃ p x q, items = p ++ x :: q ∧ p.filterMap (eventOf items) = pre ∧ eventOf items x = some ev := by
  obtain ⟨l₁, l₂, hitems, h₁, h₂⟩ := List.filterMap_eq_append_iff.mp h
  obtain ⟨l₃, x, q, rfl, hnone, hx, -⟩ := List.filterMap_eq_cons_iff.mp h₂
  refine ⟨l₁ ++ l₃, x, q, by rw [hitems, List.append_assoc], ?_, hx⟩
  have hnil : l₃.filterMap (eventOf items) = [] := List.filterMap_eq_nil_iff.mpr hnone
  rw [List.filterMap_append, h₁, hnil, List.append_nil]

/-- A response in the history. -/
theorem returnOf_some {reply : Nat} {req : ClientRequest} {response : ClientResponse}
    {ev : Ev Name MapOp (Option UInt64)} (h : returnOf reply req response = some ev) :
    Settles req response ∧
      ((req.operation = .get ∧ ((response.status = .ok ∧ ev = .ret (.read reply) (some response.value)) ∨
        (response.status = .notFound ∧ ev = .ret (.read reply) none))) ∨
      (req.operation ≠ .get ∧ ev = .ret (.write req.clientID req.requestID) (some response.value))) := by
  unfold returnOf at h
  split at h
  · cases h
  · rename_i hop hst
    cases h
    exact ⟨by rw [Settles, hop]; exact .inl hst, .inl ⟨hop, .inl ⟨hst, rfl⟩⟩⟩
  · rename_i hop hst
    cases h
    exact ⟨by rw [Settles, hop]; exact .inr hst, .inl ⟨hop, .inr ⟨hst, rfl⟩⟩⟩
  · cases h
  · rename_i hst hstatus hget
    cases h
    refine ⟨?_, .inr ⟨hget, rfl⟩⟩
    unfold Settles
    split
    · exact absurd ‹_› hget
    · exact absurd ‹_› hstatus
    · exact hst
  · cases h

/-! ## The slots of a log -/

/-- The operation of an entry. -/
def mapOp (e : Entry) : Option MapOp :=
  match e.operation with
  | .put => some (.put e.key e.value)
  | .delete => some (.delete e.key)
  | _ => none

/-- The operation of the entry, if it is executed after the log `before`. -/
def slot (before : List Entry) (e : Entry) : Option (Name × MapOp) :=
  if e.kind = .normal ∧ Fresh (commandsOf before) e then
    (mapOp e).map (Name.write e.clientID e.requestID, ·)
  else none

/-- The operations of the entries after `before`, with a hole where an entry executes none. -/
def slotsFrom (before : List Entry) : List Entry → List (Option (Name × MapOp))
  | [] => []
  | e :: ℓ => slot before e :: slotsFrom (before ++ [e]) ℓ

/-- The operations of a log. -/
def slots (ℓ : List Entry) : List (Option (Name × MapOp)) := slotsFrom [] ℓ

theorem length_slotsFrom (before ℓ : List Entry) : (slotsFrom before ℓ).length = ℓ.length := by
  induction ℓ generalizing before with
  | nil => rfl
  | cons e ℓ ih => exact congrArg (· + 1) (ih _)

theorem length_slots (ℓ : List Entry) : (slots ℓ).length = ℓ.length := length_slotsFrom ..

theorem slotsFrom_append (before ℓ ℓ' : List Entry) :
    slotsFrom before (ℓ ++ ℓ') = slotsFrom before ℓ ++ slotsFrom (before ++ ℓ) ℓ' := by
  induction ℓ generalizing before with
  | nil => rw [List.append_nil]; rfl
  | cons e ℓ ih =>
    rw [List.cons_append, slotsFrom, ih, slotsFrom, List.append_assoc]
    rfl

theorem slots_append (ℓ ℓ' : List Entry) : slots (ℓ ++ ℓ') = slots ℓ ++ slotsFrom ℓ ℓ' :=
  slotsFrom_append ..

theorem slots_take (ℓ : List Entry) (k : Nat) : (slots ℓ).take k = slots (ℓ.take k) := by
  conv_lhs => rw [← List.take_append_drop k ℓ, slots_append]
  by_cases hk : k ≤ ℓ.length
  · have hlen : (ℓ.take k).length = k := List.length_take_of_le hk
    rw [List.take_left' (by rw [length_slots, hlen])]
  · rw [List.drop_eq_nil_of_le (by omega), slotsFrom, List.append_nil]
    refine List.take_of_length_le ?_
    rw [length_slots, List.length_take]
    omega

/-- The slot of an entry. -/
theorem getElem?_slots (before : List Entry) (e : Entry) (later : List Entry) :
    (slots (before ++ e :: later))[before.length]? = some (slot before e) := by
  rw [slots_append, List.getElem?_append_right (by rw [length_slots]), length_slots, Nat.sub_self]
  rfl

theorem slots_some {ℓ : List Entry} {k : Nat} {x : Name × MapOp} (h : (slots ℓ)[k]? = some (some x)) :
    ∃ before e later, ℓ = before ++ e :: later ∧ before.length = k ∧ e.kind = .normal ∧
      Fresh (commandsOf before) e ∧ mapOp e = some x.2 ∧ x.1 = .write e.clientID e.requestID := by
  have hk : k < ℓ.length := by
    rw [← length_slots]
    exact (List.getElem?_eq_some_iff.mp h).1
  have hsplit : ℓ = ℓ.take k ++ ℓ[k] :: ℓ.drop (k + 1) := by
    rw [List.getElem_cons_drop, List.take_append_drop]
  have hlen : (ℓ.take k).length = k := List.length_take_of_le hk.le
  refine ⟨_, _, _, hsplit, hlen, ?_⟩
  rw [hsplit] at h
  have hget := getElem?_slots (ℓ.take k) ℓ[k] (ℓ.drop (k + 1))
  rw [hlen, h] at hget
  have hslot := (Option.some.inj hget).symm
  unfold slot at hslot
  split at hslot
  · rename_i hc
    obtain ⟨op, hop, rfl⟩ := Option.map_eq_some_iff.mp hslot
    exact ⟨hc.1, hc.2, hop, rfl⟩
  · cases hslot

/-- A command that is executed is an operation on the map. -/
theorem step_fresh {es : List Entry} {e : Entry} (hs : ∀ e' ∈ es, Supported e') (he : Supported e)
    (hf : Fresh es e) : ∃ op result, mapOp e = some op ∧ ((applyAll es).apply e).2 = .ok result ∧
      kv.step (applyAll es).get op = (((applyAll es).apply e).1.get, some result.value) := by
  rw [(highWater_applyAll hs).apply_fresh hf, Machine.execute, mapOp]
  rcases he with hop | hop | hop
  · exact absurd hop hf.1
  · rw [hop]
    refine ⟨_, _, rfl, rfl, Prod.ext (funext fun key => ?_) rfl⟩
    by_cases hkey : key = e.key
    · subst hkey
      simp [kv, Machine.finish, Machine.get]
    · simp [kv, Machine.finish, Machine.get, Std.ExtTreeMap.getElem?_insert, hkey, Ne.symm hkey]
  · rw [hop]
    refine ⟨_, _, rfl, rfl, Prod.ext (funext fun key => ?_) rfl⟩
    by_cases hkey : key = e.key
    · subst hkey
      simp [kv, Machine.finish, Machine.get]
    · simp [kv, Machine.finish, Machine.get, Std.ExtTreeMap.getElem?_erase, hkey, Ne.symm hkey]

/-- One that is not executed changes nothing. -/
theorem apply_not_fresh {es : List Entry} {e : Entry} (hs : ∀ e' ∈ es, Supported e')
    (hf : ¬ Fresh es e) : ((applyAll es).apply e).1 = applyAll es := by
  by_cases hl : e.operation = .legacy
  · exact apply_legacy hl
  · exact (highWater_applyAll hs).apply_stale hl hf

/-- A map that is written as the log says is that of the machine. -/
theorem run_slots {ℓ : List Entry} (hs : ∀ e ∈ commandsOf ℓ, Supported e) :
    kv.run (slots ℓ).reduceOption = (replay ℓ).get := by
  induction ℓ using List.reverseRecOn with
  | nil =>
    funext key
    exact (Std.ExtTreeMap.getElem?_empty).symm
  | append_singleton ℓ e ih =>
    have hs' : ∀ e' ∈ commandsOf ℓ, Supported e' := fun e' he' =>
      hs e' (by rw [commandsOf_append]; exact List.mem_append_left _ he')
    have hw := highWater_applyAll hs'
    rw [slots_append, List.reduceOption_append, Object.run_append, ih hs', replay, replay,
      commandsOf_append]
    by_cases hk : e.kind = .normal
    · have hone : commandsOf [e] = [e] := List.filter_eq_self.mpr fun e' he' => by
        rw [List.mem_singleton.mp he']
        exact decide_eq_true hk
      have hsup : Supported e := hs e (mem_commandsOf.mpr ⟨by simp, hk⟩)
      rw [hone, applyAll_snoc]
      by_cases hf : Fresh (commandsOf ℓ) e
      · obtain ⟨op, result, hop, -, hstep⟩ := step_fresh hs' hsup hf
        have hslot : slotsFrom ℓ [e] = [some (.write e.clientID e.requestID, op)] := by
          rw [slotsFrom, slot, if_pos ⟨hk, hf⟩, hop]
          rfl
        rw [hslot]
        exact congrArg Prod.fst hstep
      · have hslot : slotsFrom ℓ [e] = [none] := by
          rw [slotsFrom, slot, if_neg fun h => hf h.2]
          rfl
        rw [hslot, apply_not_fresh hs' hf]
        rfl
    · have hnone : commandsOf [e] = [] := List.filter_eq_nil_iff.mpr fun e' he' => by
        rw [List.mem_singleton.mp he']
        exact fun h => hk (of_decide_eq_true h)
      have hslot : slotsFrom ℓ [e] = [none] := by
        rw [slotsFrom, slot, if_neg fun h => hk h.1]
        rfl
      rw [hnone, List.append_nil, hslot]
      rfl

/-! ## The log of all responses -/

/-- The place of a read that was answered. -/
def readPoint (items : List Item) : Item → Option (Name × MapOp × Nat)
  | .answered reply response => (requestOn items reply).bind fun req =>
    if req.operation = .get ∧ (response.status = .ok ∨ response.status = .notFound) then
      some (.read reply, .get req.key, response.commit)
    else none
  | _ => none

/-- In the order of their responses. -/
def readPoints (items : List Item) : List (Name × MapOp × Nat) := items.filterMap (readPoint items)

variable {S : Setup Disk} {items : List Item} {g : Shadow} {ℓ : List Entry}

/-- What is known about a response in a run. -/
theorem Accounted.answer (h : Accounted S items g) (ho : Orderly items) {p q : List Item} {reply : Nat}
    {response : ClientResponse} (heq : items = p ++ .answered reply response :: q) :
    ∃ id r pre post, p = pre ++ .asked id r :: post ∧ r.reply = reply ∧
      requestOn items reply = some r.value ∧ Right p g pre r.value response := by
  obtain ⟨⟨id, r, pre, post, hp, hr, hright⟩, -⟩ := h p _ q heq
  refine ⟨id, r, pre, post, hp, hr, ?_, hright⟩
  have hmem : .asked id r ∈ items := by rw [heq, hp]; simp
  exact hr ▸ requestOn_eq ho.asked hmem

variable (S) in
/-- A log that explains all responses of the run. -/
structure Ledger (items : List Item) (g : Shadow) (ℓ : List Entry) : Prop where
  sound : g.Sound S
  orderly : Orderly items
  accounted : Accounted S items g
  distinct : g.distinct = true
  short : ∀ reply response, .answered reply response ∈ items → g.Short response.commit
  committed : Committed g.world ℓ
  asked : ∀ e ∈ ℓ, Asked items e
  covers : ∀ reply response req, .answered reply response ∈ items → requestOn items reply = some req →
    Settles req response → response.commit ≤ ℓ.length

/-- The log of one response. -/
theorem log_of_answer (hacc : Accounted S items g) (ho : Orderly items)
    (hshort : ∀ reply response, .answered reply response ∈ items → g.Short response.commit)
    {reply : Nat} {response : ClientResponse} {req : ClientRequest}
    (hmem : .answered reply response ∈ items) (hreq : requestOn items reply = some req)
    (hs : Settles req response) :
    ∃ ℓ, Committed g.world ℓ ∧ ℓ.length = response.commit ∧ ∀ e ∈ ℓ, Asked items e := by
  obtain ⟨p, q, heq⟩ := List.append_of_mem hmem
  obtain ⟨id, r, pre, post, hp, -, hreq', hright⟩ := hacc.answer ho heq
  rw [hreq] at hreq'
  cases hreq'
  obtain ⟨ℓ, hc, hlen, hask, -⟩ := hright.explained (hshort _ _ hmem) hs
  exact ⟨ℓ, hc, hlen, fun e he => (hask e he).mono (heq ▸ List.subset_append_left _ _)⟩

theorem exists_ledger (hg : g.Sound S) (hacc : Accounted S items g) (ho : Orderly items)
    (hd : g.distinct = true)
    (hshort : ∀ reply response, .answered reply response ∈ items → g.Short response.commit) :
    ∃ ℓ, Ledger S items g ℓ := by
  suffices ∀ l : List Item, l ⊆ items → ∃ ℓ, Committed g.world ℓ ∧ (∀ e ∈ ℓ, Asked items e) ∧
      ∀ reply response req, .answered reply response ∈ l → requestOn items reply = some req →
        Settles req response → response.commit ≤ ℓ.length by
    obtain ⟨ℓ, hc, hask, hcov⟩ := this items fun _ => id
    exact ⟨ℓ, hg, ho, hacc, hd, hshort, hc, hask, hcov⟩
  intro l
  induction l with
  | nil =>
    exact fun _ => ⟨[], ⟨0, le_rfl, .inl rfl⟩, fun _ h => absurd h List.not_mem_nil,
      fun _ _ _ h => absurd h List.not_mem_nil⟩
  | cons x l ih =>
    intro hsub
    obtain ⟨ℓ, hc, hask, hcov⟩ := ih fun y hy => hsub (List.mem_cons_of_mem _ hy)
    by_cases hx : ∃ reply response req, x = .answered reply response ∧
        requestOn items reply = some req ∧ Settles req response ∧ ℓ.length < response.commit
    · -- the response needs a longer log
      obtain ⟨reply, response, req, rfl, hreq, hs, hlt⟩ := hx
      obtain ⟨ℓ', hc', hlen, hask'⟩ := log_of_answer hacc ho hshort (hsub List.mem_cons_self) hreq hs
      refine ⟨ℓ', hc', hask', fun reply' response' req' hmem hreq' hs' => ?_⟩
      rcases List.mem_cons.mp hmem with heq | hmem
      · cases heq
        exact hlen.ge
      · exact (hcov reply' response' req' hmem hreq' hs').trans (by omega)
    · refine ⟨ℓ, hc, hask, fun reply response req hmem hreq hs => ?_⟩
      rcases List.mem_cons.mp hmem with heq | hmem
      · exact Nat.not_lt.mp fun hlt => hx ⟨reply, response, req, heq.symm, hreq, hs, hlt⟩
      · exact hcov reply response req hmem hreq hs

namespace Ledger

variable (h : Ledger S items g ℓ)
include h

/-- A response is explained by the beginning of the log. -/
theorem answer {p q : List Item} {reply : Nat} {response : ClientResponse} {req : ClientRequest}
    (heq : items = p ++ .answered reply response :: q) (hreq : requestOn items reply = some req)
    (hs : Settles req response) :
    (∀ e ∈ ℓ.take response.commit, Asked p e) ∧ Explains (ℓ.take response.commit) req response ∧
      ∃ id r pre post, p = pre ++ .asked id r :: post ∧ r.reply = reply ∧ r.value = req ∧
        (req.operation = .get → ∀ reply' response', .answered reply' response' ∈ pre →
          response'.commit ≤ response.commit) := by
  have hmem : .answered reply response ∈ items := by rw [heq]; simp
  have hle := h.covers _ _ _ hmem hreq hs
  obtain ⟨id, r, pre, post, hp, hr, hreq', hright⟩ := h.accounted.answer h.orderly heq
  rw [hreq] at hreq'
  cases hreq'
  obtain ⟨ℓ', hc, hlen, hask, hex⟩ := hright.explained (h.short _ _ hmem) hs
  have htake := hc.take h.sound h.committed (hlen.trans_le hle)
  rw [hlen] at htake
  rw [htake]
  exact ⟨hask, hex, id, r, pre, post, hp, hr, rfl, fun hget => hright.inTime h.distinct hget hs⟩

theorem supported : ∀ e ∈ commandsOf ℓ, Supported e := supported_commandsOf h.asked

theorem run_take (k : Nat) : kv.run ((slots ℓ).take k).reduceOption = (replay (ℓ.take k)).get := by
  rw [slots_take]
  exact run_slots (supported_commandsOf fun e he => h.asked e (List.mem_of_mem_take he))

end Ledger

/-! ## Points -/

theorem callOf_issues {r : Request} {e : Entry} {op : MapOp} (hi : Issues r.value e)
    (hop : mapOp e = some op) : callOf r = some (.call (.write e.clientID e.requestID) op) := by
  have hc := hi.operation
  unfold commandOp at hc
  unfold callOf
  split at hc
  · rename_i hput
    rw [mapOp, ← Option.some.inj hc] at hop
    cases hop
    rw [hput, hi.clientID, hi.requestID, hi.key, hi.value]
  · rename_i hdelete
    rw [mapOp, ← Option.some.inj hc] at hop
    cases hop
    rw [hdelete, hi.clientID, hi.requestID, hi.key]
  · cases hc

/-- A command that is in the log was called before. -/
theorem Asked.called {p : List Item} {before : List Entry} {e : Entry} {op : MapOp} (h : Asked p e)
    (hk : e.kind = .normal) (hf : Fresh before e) (hop : mapOp e = some op) (items : List Item) :
    .call (.write e.clientID e.requestID) op ∈ p.filterMap (eventOf items) := by
  rcases h hk with ⟨hl, -⟩ | ⟨id, r, hmem, hi⟩
  · exact absurd hl hf.1
  · exact List.mem_filterMap.mpr ⟨_, hmem, callOf_issues hi hop⟩

theorem slots_names {j k : Nat} {x y : Name × MapOp} (hj : (slots ℓ)[j]? = some (some x))
    (hk : (slots ℓ)[k]? = some (some y)) (hlt : j < k) : x.1 ≠ y.1 := by
  obtain ⟨before, e, later, hℓ, hlen, hkind, hf, -, hx⟩ := slots_some hj
  obtain ⟨before', e', later', hℓ', hlen', -, hf', -, hy⟩ := slots_some hk
  have hmem : e ∈ before' := by
    have hget : ℓ[j]? = some e := by
      rw [hℓ, ← hlen]
      simp
    rw [hℓ', List.getElem?_append_left (by omega)] at hget
    exact List.mem_of_getElem? hget
  rw [hx, hy]
  intro heq
  obtain ⟨hclient, hrequest⟩ := Name.write.inj heq
  -- the later one is above all earlier requests of its client
  refine absurd (hf'.2 e (mem_commandsOf.mpr ⟨hmem, hkind⟩) ⟨hf.1, hclient⟩) ?_
  rw [hrequest]
  exact UInt64.lt_irrefl _

theorem readPoint_some {item : Item} {x : Name × MapOp × Nat} (h : readPoint items item = some x) :
    ∃ reply response req, item = .answered reply response ∧ requestOn items reply = some req ∧
      req.operation = .get ∧ (response.status = .ok ∨ response.status = .notFound) ∧
      x = (.read reply, .get req.key, response.commit) := by
  cases item with
  | peer m => cases h
  | asked id r => cases h
  | answered reply response =>
    obtain ⟨req, hreq, h⟩ := Option.bind_eq_some_iff.mp h
    split at h
    · rename_i hc
      exact ⟨reply, response, req, rfl, hreq, hc.1, hc.2, (Option.some.inj h).symm⟩
    · cases h

/-- A read that was answered. -/
theorem mem_readPoints {x : Name × MapOp × Nat} (h : x ∈ readPoints items) : ∃ reply response req,
    .answered reply response ∈ items ∧ requestOn items reply = some req ∧ req.operation = .get ∧
      (response.status = .ok ∨ response.status = .notFound) ∧
      x = (.read reply, .get req.key, response.commit) := by
  obtain ⟨item, hmem, hitem⟩ := List.mem_filterMap.mp h
  obtain ⟨reply, response, req, rfl, hrest⟩ := readPoint_some hitem
  exact ⟨reply, response, req, hmem, hrest⟩

/-- A response in the history. -/
theorem eventOf_ret {item : Item} {a : Name} {result : Option UInt64}
    (h : eventOf items item = some (.ret a result)) : ∃ reply response req,
      item = .answered reply response ∧ requestOn items reply = some req ∧
      returnOf reply req response = some (.ret a result) := by
  cases item with
  | peer m => cases h
  | asked id r =>
    change callOf r = _ at h
    unfold callOf at h
    split at h <;> cases h
  | answered reply response =>
    obtain ⟨req, hreq, h⟩ := Option.bind_eq_some_iff.mp h
    exact ⟨reply, response, req, rfl, hreq, h⟩

theorem readPoints_names (ho : Orderly items) : ((readPoints items).map Prod.fst).Nodup := by
  have hsub : ∀ l : List Item,
      ((l.filterMap (readPoint items)).map Prod.fst).Sublist ((answeredOn l).map Name.read) := by
    intro l
    induction l with
    | nil => exact .slnil
    | cons item l ih =>
      cases hp : readPoint items item with
      | none =>
        rw [List.filterMap_cons_none hp]
        cases item with
        | answered reply response => exact ih.cons _
        | _ => exact ih
      | some x =>
        obtain ⟨reply, response, req, rfl, -, -, -, rfl⟩ := readPoint_some hp
        rw [List.filterMap_cons_some hp]
        exact ih.cons_cons _
  exact (ho.answered.map fun _ _ h => Name.read.inj h).sublist (hsub items)

/-- Two items of a list. -/
theorem split_cases {α : Type} {p q p' q' : List α} {x y : α} (h : p ++ x :: q = p' ++ y :: q') :
    (∃ mid, p' = p ++ x :: mid ∧ q = mid ++ y :: q') ∨ (p = p' ∧ x = y ∧ q = q') ∨
      ∃ mid, p = p' ++ y :: mid ∧ q' = mid ++ x :: q := by
  rcases List.append_eq_append_iff.mp h with ⟨mid, rfl, hx⟩ | ⟨mid, rfl, hy⟩
  · cases mid with
    | nil =>
      cases hx
      exact .inr (.inl ⟨(List.append_nil _).symm, rfl, rfl⟩)
    | cons z mid =>
      cases hx
      exact .inl ⟨mid, rfl, rfl⟩
  · cases mid with
    | nil =>
      cases hy
      exact .inr (.inl ⟨List.append_nil _, rfl, rfl⟩)
    | cons z mid =>
      cases hy
      exact .inr (.inr ⟨mid, rfl, rfl⟩)

theorem settles_get {req : ClientRequest} {response : ClientResponse} (hget : req.operation = .get)
    (hst : response.status = .ok ∨ response.status = .notFound) : Settles req response := by
  rw [Settles, hget]
  exact hst

/-- A channel is not answered twice. -/
theorem Orderly.not_again {p q : List Item} {reply : Nat} {response response' : ClientResponse}
    (ho : Orderly (p ++ .answered reply response :: q)) : .answered reply response' ∉ q := by
  intro hmem
  have hnodup := ho.answered
  rw [answeredOn_append] at hnodup
  have htail := (List.nodup_append.mp hnodup).2.1
  exact (List.nodup_cons.mp htail).1 (mem_answeredOn.mpr ⟨response', hmem⟩)

namespace Ledger

variable (h : Ledger S items g ℓ)
include h

/-- A read was called before it was answered. -/
theorem read_called {p q : List Item} {reply : Nat} {response : ClientResponse} {req : ClientRequest}
    (heq : items = p ++ .answered reply response :: q) (hreq : requestOn items reply = some req)
    (hget : req.operation = .get) :
    .call (.read reply) (.get req.key) ∈ p.filterMap (eventOf items) := by
  obtain ⟨id, r, pre, post, hp, hr, hreq', -⟩ := h.accounted.answer h.orderly heq
  rw [hreq] at hreq'
  cases hreq'
  refine List.mem_filterMap.mpr ⟨.asked id r, by rw [hp]; simp, ?_⟩
  show callOf r = _
  rw [callOf, hget, hr]

theorem read_order : (readPoints items).Pairwise fun x y => ¬ Precedes (history items) y.1 x.1 := by
  refine List.pairwise_filterMap.mpr (List.pairwise_iff_getElem.mpr fun i j hi hj hij => ?_)
  rintro x hx y hy ⟨pre, result, post, heq, hnot⟩
  obtain ⟨reply, response, req, hitem, hreq, hget, -, rfl⟩ := readPoint_some hx
  obtain ⟨reply', response', req', hitem', -, -, -, rfl⟩ := readPoint_some hy
  have hsplit : items = items.take i ++ .answered reply response :: items.drop (i + 1) := by
    rw [← hitem, List.getElem_cons_drop, List.take_append_drop]
  have hlater : .answered reply' response' ∈ items.drop (i + 1) := by
    rw [← hitem']
    exact List.mem_drop_iff_getElem.mpr ⟨j - (i + 1), by omega, by congr 1; omega⟩
  -- where the second read is answered in the history
  obtain ⟨p, z, q, hz, rfl, hev⟩ := history_split heq
  obtain ⟨reply'', response'', req'', rfl, -, hret⟩ := eventOf_ret hev
  have hreply : reply'' = reply' := by
    rcases (returnOf_some hret).2 with ⟨-, ⟨-, heq⟩ | ⟨-, heq⟩⟩ | ⟨-, heq⟩
    · cases heq; rfl
    · cases heq; rfl
    · cases heq
  subst hreply
  have hagain : .answered reply'' response' ∉ q := Orderly.not_again (hz ▸ h.orderly)
  rcases split_cases (hsplit.symm.trans hz) with ⟨mid, hp, -⟩ | ⟨-, -, rfl⟩ | ⟨mid, -, rfl⟩
  · refine hnot (.get req.key) ?_
    rw [hp, List.filterMap_append]
    exact List.mem_append_left _ (h.read_called hsplit hreq hget)
  · exact hagain hlater
  · exact hagain (List.mem_append_right _ (List.mem_cons_of_mem _ hlater))

/-- A read that is called after an answer comes after the slots of that answer. -/
theorem read_after {p q : List Item} {reply : Nat} {response : ClientResponse}
    (heq : items = p ++ .answered reply response :: q) {x : Name × MapOp × Nat}
    (hx : x ∈ readPoints items) (hnot : ∀ op, .call x.1 op ∉ p.filterMap (eventOf items)) :
    response.commit ≤ x.2.2 := by
  obtain ⟨reply', response', req', hmem, hreq, hget, hst, rfl⟩ := mem_readPoints hx
  obtain ⟨p', q', heq'⟩ := List.append_of_mem hmem
  obtain ⟨-, -, id, r, pre, post, hp', hr, rfl, htime⟩ := h.answer heq' hreq (settles_get hget hst)
  have hcall : .asked id r ∉ p := fun hmem => by
    refine hnot (.get r.value.key) (List.mem_filterMap.mpr ⟨_, hmem, ?_⟩)
    show callOf r = _
    rw [callOf, hget, hr]
  have hask : items = pre ++ .asked id r :: (post ++ .answered reply' response' :: q') := by
    rw [heq', hp', List.append_assoc, List.cons_append]
  -- the answer stands before the read is asked for
  refine htime hget reply response ?_
  rcases split_cases (heq.symm.trans hask) with ⟨mid, hpre, -⟩ | ⟨-, hno, -⟩ | ⟨mid, hp, -⟩
  · rw [hpre]
    simp
  · cases hno
  · exact absurd (by rw [hp]; simp) hcall

/-- A request that was executed has a slot with its result. -/
theorem executed_slot {c : Nat} {client request value : UInt64}
    (hex : Executed (ℓ.take c) client request value) :
    ∃ k op, k < c ∧ (slots ℓ)[k]? = some (some (.write client request, op)) ∧
      (kv.step (kv.run ((slots ℓ).take k).reduceOption) op).2 = some value := by
  obtain ⟨before, e, later, hℓ, hkind, rfl, rfl, hf, result, hres, rfl⟩ := hex
  have hsplit : ℓ = before ++ e :: (later ++ ℓ.drop c) := by
    conv_lhs => rw [← List.take_append_drop c ℓ, hℓ, List.append_assoc, List.cons_append]
  have hs : ∀ e' ∈ commandsOf before, Supported e' := fun e' he' => by
    refine h.supported e' ?_
    rw [hsplit, commandsOf_append]
    exact List.mem_append_left _ he'
  have hsup : Supported e := h.supported e (mem_commandsOf.mpr ⟨by rw [hsplit]; simp, hkind⟩)
  obtain ⟨op, result', hop, hres', hstep⟩ := step_fresh hs hsup hf
  have hsame : result' = result := Except.ok.inj (hres'.symm.trans hres)
  refine ⟨before.length, op, ?_, ?_, ?_⟩
  · have hlen := congrArg List.length hℓ
    rw [List.length_append, List.length_cons, List.length_take] at hlen
    omega
  · conv_lhs => rw [hsplit]
    rw [getElem?_slots, slot, if_pos ⟨hkind, hf⟩, hop]
    rfl
  · have htake : ℓ.take before.length = before := by
      conv_lhs => rw [hsplit]
      exact List.take_left
    rw [h.run_take, htake, ← hsame]
    exact congrArg Prod.snd hstep

/-- An answer sees the slots that it says are committed, and what is called later comes after them.
-/
theorem ret {pre post : List (Ev Name MapOp (Option UInt64))} {a : Name} {result : Option UInt64}
    (heq : history items = pre ++ .ret a result :: post) : ∃ c,
    ((∃ k op, k < c ∧ (slots ℓ)[k]? = some (some (a, op)) ∧
        (kv.step (kv.run ((slots ℓ).take k).reduceOption) op).2 = result) ∨
      ∃ op, (a, op, c) ∈ readPoints items ∧
        (kv.step (kv.run ((slots ℓ).take c).reduceOption) op).2 = result) ∧
    (∀ k x, (slots ℓ)[k]? = some (some x) → (∀ op, .call x.1 op ∉ pre) → c ≤ k) ∧
    ∀ x ∈ readPoints items, (∀ op, .call x.1 op ∉ pre) → c ≤ x.2.2 := by
  obtain ⟨p, z, q, hz, rfl, hev⟩ := history_split heq
  obtain ⟨reply, response, req, rfl, hreq, hret⟩ := eventOf_ret hev
  obtain ⟨hs, hcases⟩ := returnOf_some hret
  obtain ⟨hask, hex, -⟩ := h.answer hz hreq hs
  have hmem : .answered reply response ∈ items := by rw [hz]; simp
  refine ⟨response.commit, ?_, fun k x hk hnot => ?_, fun x hx => h.read_after hz hx⟩
  · have hpoint : req.operation = .get → response.status = .ok ∨ response.status = .notFound →
        (.read reply, .get req.key, response.commit) ∈ readPoints items := fun hget hst => by
      refine List.mem_filterMap.mpr ⟨_, hmem, ?_⟩
      show (requestOn items reply).bind _ = _
      rw [hreq, Option.bind_some, if_pos ⟨hget, hst⟩]
    rcases hcases with ⟨hget, ⟨hst, heq⟩ | ⟨hst, heq⟩⟩ | ⟨hget, heq⟩
    · cases heq
      refine .inr ⟨.get req.key, hpoint hget (.inl hst), ?_⟩
      rw [h.run_take]
      exact hex.found hget hst
    · cases heq
      refine .inr ⟨.get req.key, hpoint hget (.inr hst), ?_⟩
      rw [h.run_take]
      exact hex.missing hget hst
    · cases heq
      exact .inl (h.executed_slot (hex.executed hget))
  · refine Nat.not_lt.mp fun hlt => ?_
    obtain ⟨before, e, later, hℓ, hlen, hkind, hf, hop, hname⟩ := slots_some hk
    have he : e ∈ ℓ.take response.commit := by
      rw [hℓ, List.take_append, List.mem_append]
      refine .inr ?_
      rw [show response.commit - before.length = (response.commit - before.length - 1) + 1 by omega]
      exact List.mem_cons_self
    exact hnot x.2 (hname ▸ (hask e he).called hkind hf hop items)

theorem points : Points kv (history items) (slots ℓ) (readPoints items) where
  unique {j k x y} hj hk hxy := by
    rcases Nat.lt_trichotomy j k with hlt | heq | hlt
    · exact absurd hxy (slots_names hj hk hlt)
    · exact heq
    · exact absurd hxy.symm (slots_names hk hj hlt)
  apart hr hk := by
    obtain ⟨reply, response, req, -, -, -, -, rfl⟩ := mem_readPoints hr
    obtain ⟨-, e, -, -, -, -, -, -, hx⟩ := slots_some hk
    rw [hx]
    exact nofun
  names := readPoints_names h.orderly
  called hk := by
    obtain ⟨before, e, later, hℓ, -, hkind, hf, hop, hx⟩ := slots_some hk
    rw [hx]
    exact (h.asked e (by rw [hℓ]; simp)).called hkind hf hop items
  asked hr := by
    obtain ⟨reply, response, req, hmem, hreq, hget, -, rfl⟩ := mem_readPoints hr
    obtain ⟨p, q, heq⟩ := List.append_of_mem hmem
    have hcall := h.read_called heq hreq hget
    obtain ⟨x, hx, hev⟩ := List.mem_filterMap.mp hcall
    exact List.mem_filterMap.mpr ⟨x, by rw [heq]; exact List.mem_append_left _ hx, hev⟩
  inside hr := by
    obtain ⟨reply, response, req, hmem, hreq, hget, hst, rfl⟩ := mem_readPoints hr
    rw [length_slots]
    exact h.covers _ _ _ hmem hreq (settles_get hget hst)
  still hr _ := by
    obtain ⟨reply, response, req, -, -, -, -, rfl⟩ := mem_readPoints hr
    rfl
  order := h.read_order
  ret := h.ret

end Ledger

variable {c : Servers} {snapshotEntries : Nat → Nat}

/-- What the clients see is what a map would do, if the shadow accounts for their reads. -/
theorem Follows.linearizable (h : Follows S c g) (ho : Orderly c.sent) (hd : g.distinct = true)
    (hshort : ∀ reply response, .answered reply response ∈ c.sent → g.Short response.commit) :
    Linearizable kv (history c.sent) := by
  obtain ⟨ℓ, hledger⟩ := exists_ledger h.along.sound h.accounted ho hd hshort
  exact hledger.points.linearizable

theorem Event.not_installs_of_plain {event : Event} {p : Proc} (h : event.plain = true) :
    ¬ event.Installs p := by
  unfold Event.Installs
  split
  · exact fun ht => bne_iff_ne.mp h ht.1
  · exact id

/-- What the clients see is what a map would do. It needs that no server gets a snapshot from a
leader while it runs, that a server does not get two reads with the same context, and that the log
is not so long that its counts do not fit into a snapshot. -/
theorem servers_linearizable (S : Setup Disk) (snapshotEntries : Nat → Nat) {c : Servers}
    (hr : Net.Runs (act S snapshotEntries) (fun _ event _ => event.plain = true) (start S) c)
    (hreads : (readsOn c.sent).Nodup)
    (hshort : ∀ reply response, .answered reply response ∈ c.sent → response.commit < 2 ^ 32) :
    Linearizable kv (history c.sent) := by
  obtain ⟨g, hg, -, hd⟩ := follows_of_runs true true nofun
    (hr.mono fun _ _ _ => Event.not_installs_of_plain) fun _ => hreads
  exact hg.linearizable (orderly_of_runs hr).2 hd fun reply response hmem _ => hshort _ _ hmem

/-- Server 1 has compacted its log after each request. -/
theorem servers_linearizable_trio : ∃ c,
    Net.Runs (act trio fun _ => 1) (fun _ event _ => event.plain = true) (start trio) c ∧
      history c.sent = [.call (.write 5 1) (.put 3 7), .ret (.write 5 1) (some 7),
        .call (.read 1) (.get 3), .ret (.read 1) (some 7)] ∧
      Linearizable kv (history c.sent) := by
  have h : ((start trio).play (act trio fun _ => 1) (fun _ event _ => event.plain = true) served).any
      (fun c => decide (history c.sent = [.call (.write 5 1) (.put 3 7), .ret (.write 5 1) (some 7),
        .call (.read 1) (.get 3), .ret (.read 1) (some 7)] ∧ (readsOn c.sent).Nodup) &&
        c.sent.all fun
          | .answered _ response => decide (response.commit < 2 ^ 32)
          | _ => true) = true := by
    decide +kernel
  simp only [Option.any_eq_true, Bool.and_eq_true, decide_eq_true_eq, List.all_eq_true] at h
  obtain ⟨c, hc, ⟨hhistory, hreads⟩, hshort⟩ := h
  refine ⟨c, .of_play hc, hhistory, servers_linearizable trio _ (.of_play hc) hreads ?_⟩
  exact fun reply response hmem => of_decide_eq_true (hshort _ hmem)

end Promtact.Service
