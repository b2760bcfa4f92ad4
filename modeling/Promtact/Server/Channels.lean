import Promtact.Server.Loop

/-!
# Every request is answered at most once

The channel of a request takes one response. A second one would block the loop for ever, as nobody
reads it. So it matters that the servers answer a request once: `answered_once`.

A channel is in one place. It waits for a mutation, it waits for a read, or it was answered
(`Balanced`); the parts of the loop only move channels from one place to the next.
-/

namespace Promtact.Service

open Raft Protocol StateMachine Refine Network

/-- The channels that wait for a response. -/
def Server.waiting (s : Server) : List Nat :=
  s.pending.flatMap (·.2) ++ s.reads.map (·.request.reply)

/-- The channels of the responses so far. -/
def answeredOn (items : List Item) : List Nat :=
  items.filterMap fun
    | .answered reply _ => some reply
    | _ => none

theorem answeredOn_append (items items' : List Item) :
    answeredOn (items ++ items') = answeredOn items ++ answeredOn items' := List.filterMap_append

theorem askedOn_append (items items' : List Item) :
    askedOn (items ++ items') = askedOn items ++ askedOn items' := List.filterMap_append

/-! ## Waiters of mutations -/

section

variable {pending : List (PendingKey × List Nat)} {key : PendingKey} {waiters : List Nat}

theorem lookup_none (h : pending.lookup key = none) : key ∉ pending.map Prod.fst := by
  intro hmem
  obtain ⟨p, hp, rfl⟩ := List.mem_map.mp hmem
  exact bne_iff_ne.mp (List.lookup_eq_none_iff.mp h p hp) rfl

theorem lookup_cons_ne {k : PendingKey} {w : List Nat} (hk : k ≠ key) :
    List.lookup key ((k, w) :: pending) = pending.lookup key := by
  rw [List.lookup_cons, beq_eq_false_iff_ne.mpr hk.symm]

/-- A channel is added to those that wait for the mutation. -/
theorem perm_join (reply : Nat) (hk : (pending.map Prod.fst).Nodup)
    (h : pending.lookup key = some waiters) :
    ((pending.map fun (k, w) => (k, if k = key then w ++ [reply] else w)).flatMap (·.2)).Perm
      (reply :: pending.flatMap (·.2)) := by
  induction pending with
  | nil => cases h
  | cons p pending ih =>
    obtain ⟨k, w⟩ := p
    obtain ⟨hnot, hk⟩ := List.nodup_cons.mp hk
    rw [List.map_cons, List.flatMap_cons, List.flatMap_cons]
    by_cases heq : k = key
    · subst heq
      have hrest : (pending.map fun (k', w) => (k', if k' = k then w ++ [reply] else w)) = pending := by
        refine List.map_congr_left (fun p hp => ?_) |>.trans (List.map_id _)
        exact Prod.ext rfl (if_neg fun hp' => hnot (List.mem_map.mpr ⟨p, hp, hp'⟩))
      dsimp only
      rw [if_pos rfl, hrest, List.append_assoc]
      exact List.perm_middle
    · rw [lookup_cons_ne heq] at h
      dsimp only
      rw [if_neg heq]
      exact ((ih hk h).append_left w).trans List.perm_middle

/-- Those that wait for a mutation, and the others. -/
theorem perm_split (hk : (pending.map Prod.fst).Nodup) (h : pending.lookup key = some waiters) :
    (waiters ++ (pending.filter fun p => p.1 ≠ key).flatMap (·.2)).Perm (pending.flatMap (·.2)) := by
  induction pending with
  | nil => cases h
  | cons p pending ih =>
    obtain ⟨k, w⟩ := p
    obtain ⟨hnot, hk⟩ := List.nodup_cons.mp hk
    by_cases heq : k = key
    · subst heq
      have hrest : (pending.filter fun p => p.1 ≠ k) = pending := by
        refine List.filter_eq_self.mpr fun p hp => ?_
        exact decide_eq_true fun hp' => hnot (List.mem_map.mpr ⟨p, hp, hp'⟩)
      rw [List.lookup_cons_self] at h
      cases h
      rw [List.filter_cons_of_neg (by simp), hrest, List.flatMap_cons]
    · rw [lookup_cons_ne heq] at h
      rw [List.filter_cons_of_pos (by simpa using heq), List.flatMap_cons, List.flatMap_cons]
      refine List.Perm.trans ?_ ((ih hk h).append_left w)
      exact List.perm_append_comm_assoc waiters w _

end

/-- The channels `channels` are those that wait and those that this pass has answered. -/
structure Balanced (channels : List Nat) (s : Server) : Prop where
  keys : (s.pending.map Prod.fst).Nodup
  asks : askedOn s.out = []
  perm : (answeredOn s.out ++ s.waiting).Perm channels

namespace Balanced

variable {s : Server} {channels : List Nat}

/-- A change that leaves the channels alone. -/
theorem same {s' : Server} (h : Balanced channels s) (hp : s'.pending = s.pending)
    (hr : s'.reads = s.reads) (ho : s'.out = s.out) : Balanced channels s' := by
  refine ⟨hp ▸ h.keys, ho ▸ h.asks, ?_⟩
  rw [Server.waiting, hp, hr, ho]
  exact h.perm

/-- What is given out asks nothing. -/
theorem asks_peers (h : Balanced channels s) (ms : List Message) :
    askedOn (s.out ++ ms.map .peer) = [] := by
  rw [askedOn_append, h.asks, askedOn, List.filterMap_map]
  exact List.filterMap_eq_nil_iff.mpr fun _ _ => rfl

theorem asks_answers (h : Balanced channels s) {α : Type} {l : List α} (reply : α → Nat)
    (response : α → ClientResponse) :
    askedOn (s.out ++ l.map fun a => .answered (reply a) (response a)) = [] := by
  rw [askedOn_append, h.asks, askedOn, List.filterMap_map]
  exact List.filterMap_eq_nil_iff.mpr fun _ _ => rfl

/-- A new channel is answered at once. -/
theorem respond (h : Balanced channels s) (incoming : Request) (status : Status) (value : UInt64)
    {B : Server → Prop} :
    Triple B (Service.respond incoming status value) s fun _ =>
      Balanced (incoming.reply :: channels) := by
  unfold Service.respond emit
  refine Sim.seq_get (Sim.update ⟨h.keys, h.asks_answers (l := [()])
    (fun _ => incoming.reply) fun _ => s.response status incoming.value value, ?_⟩)
  show (answeredOn (s.out ++ [_]) ++ s.waiting).Perm _
  rw [answeredOn_append, List.append_assoc]
  exact List.perm_middle.trans (h.perm.cons _)

theorem handleGet (h : Balanced channels s) (incoming : Request) :
    Triple (Balanced channels) (Service.handleGet incoming) s fun _ =>
      Balanced (incoming.reply :: channels) := by
  unfold Service.handleGet
  refine Sim.seq_get (Sim.ite (fun _ => h.respond _ _ _) fun _ => ?_)
  refine Sim.ite (fun _ => h.respond _ _ _) fun _ => ?_
  refine Sim.seq (onNode_triple (Q := fun _ => Balanced channels) (fun _ => h.same rfl rfl rfl)
    fun _ _ => h.same rfl rfl rfl) fun started _ s' _ h' => ?_
  refine Sim.ite (fun _ => Sim.update ⟨h'.keys, h'.asks, ?_⟩) fun _ => h'.respond _ _ _
  show (_ ++ (_ ++ (s'.reads ++ [_]).map _)).Perm _
  rw [List.map_append, ← List.append_assoc, ← List.append_assoc]
  refine List.perm_append_comm.trans (List.Perm.cons _ ?_)
  rw [List.append_assoc]
  exact h'.perm

theorem handleMutation (h : Balanced channels s) (incoming : Request) :
    Triple (Balanced channels) (Service.handleMutation incoming) s fun _ =>
      Balanced (incoming.reply :: channels) := by
  unfold Service.handleMutation
  refine Sim.seq_get (Sim.ite (fun _ => h.respond _ _ _) fun _ => ?_)
  split
  · exact h.respond _ _ _
  · exact h.respond _ _ _
  split
  · -- the channel joins those that wait already
    rename_i waiters hlookup
    refine Sim.update ⟨?_, h.asks, ?_⟩
    · show (List.map Prod.fst (List.map _ s.pending)).Nodup
      rw [List.map_map]
      exact h.keys
    · refine List.Perm.trans ?_ (h.perm.cons _)
      refine List.Perm.trans ?_ List.perm_middle
      exact (((perm_join incoming.reply h.keys hlookup).append_right _)).append_left _
  · rename_i hlookup
    split
    · exact h.respond _ _ _
    refine Sim.seq (onNode_triple (Q := fun _ s' => Balanced channels s' ∧ s'.pending = s.pending)
      (fun _ => h.same rfl rfl rfl) fun _ _ => ⟨h.same rfl rfl rfl, rfl⟩) fun proposed _ s' _ h' => ?_
    refine Sim.ite (fun _ => Sim.update ⟨?_, h'.1.asks, ?_⟩) fun _ => h'.1.respond _ _ _
    · exact List.nodup_cons.mpr ⟨h'.2 ▸ lookup_none hlookup, h'.1.keys⟩
    · exact List.perm_middle.trans (h'.1.perm.cons _)

theorem handleRequest (h : Balanced channels s) (incoming : Request) :
    Triple (Balanced channels) (Service.handleRequest incoming) s fun _ =>
      Balanced (incoming.reply :: channels) := by
  unfold Service.handleRequest
  refine Sim.seq_get (Sim.ite (fun _ => h.respond _ _ _) fun _ => ?_)
  refine Sim.ite (fun _ => h.respond _ _ _) fun _ => ?_
  exact Sim.ite (fun _ => h.handleGet incoming) fun _ => h.handleMutation incoming

/-- What is given out that answers nobody. -/
theorem answeredOn_peers (ms : List Message) : answeredOn (ms.map .peer) = [] := by
  rw [answeredOn, List.filterMap_map]
  exact List.filterMap_eq_nil_iff.mpr fun _ _ => rfl

theorem answeredOn_map {α : Type} (l : List α) (reply : α → Nat) (response : α → ClientResponse) :
    answeredOn (l.map fun a => .answered (reply a) (response a)) = l.map reply := by
  rw [answeredOn, List.filterMap_map]
  exact congrFun (List.filterMap_eq_map (f := reply)) l

theorem sendPeers (h : Balanced channels s) :
    Triple (Balanced channels) Service.sendPeers s fun _ => Balanced channels := by
  unfold Service.sendPeers emit
  refine Sim.seq (onNode_triple (Q := fun _ => Balanced channels) (fun _ => h.same rfl rfl rfl)
    fun _ _ => h.same rfl rfl rfl) fun outbound _ s' _ h' => ?_
  refine Sim.update ⟨h'.keys, h'.asks_peers outbound, ?_⟩
  show (answeredOn (_ ++ _) ++ _).Perm _
  rw [answeredOn_append, answeredOn_peers, List.append_nil]
  exact h'.perm

theorem applyEntry (h : Balanced channels s) (entry : Entry) :
    Triple (Balanced channels) (Service.applyEntry entry) s fun _ => Balanced channels := by
  unfold Service.applyEntry
  refine Sim.seq_get (Sim.seq_update ?_)
  split
  · exact Sim.ret (h.same rfl rfl rfl)
  · rename_i waiters hlookup
    refine Sim.seq_update (Sim.update ⟨?_, h.asks_answers _ _, ?_⟩)
    · exact h.keys.sublist (List.filter_sublist.map _)
    · show (answeredOn (_ ++ List.map _ waiters) ++ (_ ++ _)).Perm _
      rw [answeredOn_append, answeredOn_map, List.map_id', List.append_assoc]
      refine List.Perm.trans (List.Perm.append_left _ ?_) h.perm
      rw [← List.append_assoc]
      exact (perm_split h.keys hlookup).append_right _

theorem apply (h : Balanced channels s) :
    Triple (Balanced channels) Service.apply s fun _ => Balanced channels := by
  unfold Service.apply
  refine Sim.seq (onNode_triple (Q := fun _ => Balanced channels) (fun _ => h.same rfl rfl rfl)
    fun _ _ => h.same rfl rfl rfl) fun entries _ s₁ _ h₁ => ?_
  refine Sim.seq (Sim.each (I := fun _ => Balanced channels) h₁ fun entry _ _ s₂ h₂ =>
    h₂.applyEntry entry) fun _ _ s₃ _ h₃ => ?_
  refine Sim.seq_get (Sim.ite (fun _ => Sim.discard ?_) fun _ => Sim.ret h₃)
  exact onNode_triple (fun _ => h₃.same rfl rfl rfl) fun _ _ => h₃.same rfl rfl rfl

theorem completeReads (h : Balanced channels s) {B : Server → Prop} :
    Triple B Service.completeReads s fun _ => Balanced channels := by
  unfold Service.completeReads
  refine Sim.seq_get (Sim.seq_update (Sim.update ⟨h.keys, h.asks_answers _ _, ?_⟩))
  show (answeredOn (_ ++ List.map _ _) ++ (_ ++ List.map _ _)).Perm _
  rw [answeredOn_append, answeredOn_map _ fun read : PendingRead => read.request.reply,
    List.append_assoc]
  refine List.Perm.trans (List.Perm.append_left _ ?_) h.perm
  refine (List.perm_append_comm_assoc _ _ _).trans (List.Perm.append_left _ ?_)
  rw [← List.map_append]
  exact (List.filter_append_perm s.completes s.reads).map _

end Balanced

/-- The channel that the loop takes. -/
def Input.channels : Input → List Nat
  | .request r => [r.reply]
  | _ => []

theorem Balanced.take {s : Server} {channels : List Nat} (h : Balanced channels s) (input : Input) :
    Triple (Balanced channels) (Service.take input) s fun _ =>
      Balanced (input.channels ++ channels) := by
  cases input with
  | message m => exact onNode_triple (fun _ => h.same rfl rfl rfl) fun _ _ => h.same rfl rfl rfl
  | request r => exact h.handleRequest r
  | tick => exact onNode_triple (fun _ => h.same rfl rfl rfl) fun _ _ => h.same rfl rfl rfl

/-- A pass moves the channels, and the new one. -/
theorem Balanced.iterate {s : Server} {channels : List Nat} (h : Balanced channels s)
    (input : Input) :
    Triple (fun s' => Balanced channels s' ∨ Balanced (input.channels ++ channels) s')
      (Service.iterate input) s fun _ => Balanced (input.channels ++ channels) := by
  unfold Service.iterate
  refine Sim.seq ((h.take input).weaken fun _ _ _ => .inl) fun _ _ s₁ _ h₁ => Sim.seq_get ?_
  split
  · exact Sim.fail (.inr h₁)
  · refine Sim.weaken (B := fun _ => Balanced (input.channels ++ channels)) ?_ fun _ _ _ => .inr
    refine Sim.seq h₁.sendPeers fun _ _ s₂ _ h₂ => ?_
    exact Sim.seq h₂.apply fun _ _ s₃ _ h₃ => h₃.completeReads

/-! ## Runs -/

/-- Every channel is asked on once and answered on once, and only if it was asked on. -/
structure Orderly (items : List Item) : Prop where
  asked : (askedOn items).Nodup
  answered : (answeredOn items).Nodup
  origin : ∀ ch ∈ answeredOn items, ch ∈ askedOn items

/-- The channel is that of a request to server `i`. -/
def AskedAt (items : List Item) (i ch : Nat) : Prop := ∃ r, .asked i r ∈ items ∧ r.reply = ch

/-- What waits at server `i` was asked there, and was not answered. -/
def Awaits (items : List Item) (i : Nat) : Proc → Prop
  | .up s => s.out = [] ∧ (s.pending.map Prod.fst).Nodup ∧ (answeredOn items ++ s.waiting).Nodup ∧
      ∀ ch ∈ s.waiting, AskedAt items i ch
  | .down _ => True

theorem mem_askedOn {items : List Item} {ch : Nat} :
    ch ∈ askedOn items ↔ ∃ i r, .asked i r ∈ items ∧ r.reply = ch := by
  rw [askedOn, List.mem_filterMap]
  constructor
  · rintro ⟨item, hmem, hitem⟩
    cases item with
    | asked i r => exact ⟨i, r, hmem, Option.some.inj hitem⟩
    | peer m => cases hitem
    | answered reply response => cases hitem
  · rintro ⟨i, r, hmem, rfl⟩
    exact ⟨_, hmem, rfl⟩

theorem mem_answeredOn {items : List Item} {ch : Nat} :
    ch ∈ answeredOn items ↔ ∃ response, .answered ch response ∈ items := by
  rw [answeredOn, List.mem_filterMap]
  constructor
  · rintro ⟨item, hmem, hitem⟩
    cases item with
    | answered reply response =>
      cases hitem
      exact ⟨response, hmem⟩
    | asked i r => cases hitem
    | peer m => cases hitem
  · rintro ⟨response, hmem⟩
    exact ⟨_, hmem, rfl⟩

theorem AskedAt.mono {items items' : List Item} {i ch : Nat} (h : AskedAt items i ch) :
    AskedAt (items ++ items') i ch := by
  obtain ⟨r, hr, hch⟩ := h
  exact ⟨r, List.mem_append_left _ hr, hch⟩

/-- A channel is for one request. -/
theorem Orderly.unique {items : List Item} (h : (askedOn items).Nodup) {i j : Nat} {r r' : Request}
    (hr : .asked i r ∈ items) (hr' : .asked j r' ∈ items) (heq : r.reply = r'.reply) :
    i = j ∧ r = r' := by
  induction items with
  | nil => cases hr
  | cons item items ih =>
    have htail : (askedOn items).Nodup := by
      refine h.sublist ?_
      exact (List.sublist_cons_self item items).filterMap _
    -- the first item is not asked on a channel of the others
    have hhead : ∀ {k : Nat} {q : Request}, item = .asked k q → ∀ {k' q'}, .asked k' q' ∈ items →
        q.reply ≠ q'.reply := by
      rintro k q rfl k' q' hmem hreply
      exact (List.nodup_cons.mp h).1 (mem_askedOn.mpr ⟨k', q', hmem, hreply.symm⟩)
    rcases List.mem_cons.mp hr with hr | hr <;> rcases List.mem_cons.mp hr' with hr' | hr'
    · rw [← hr] at hr'
      cases hr'
      exact ⟨rfl, rfl⟩
    · exact absurd heq (hhead hr.symm hr')
    · exact absurd heq.symm (hhead hr'.symm hr)
    · exact ih htail hr hr'

theorem Input.askedOn_items (i : Nat) (input : Input) : askedOn (input.items i) = input.channels := by
  cases input <;> rfl

theorem Input.answeredOn_items (i : Nat) (input : Input) : answeredOn (input.items i) = [] := by
  cases input <;> rfl

theorem Input.mem_channels {input : Input} {ch : Nat} (h : ch ∈ input.channels) (i : Nat) :
    AskedAt (input.items i) i ch := by
  cases input with
  | request r => exact ⟨r, List.mem_singleton_self _, (List.mem_singleton.mp h).symm⟩
  | message m => cases h
  | tick => cases h

section

variable {items : List Item} {i : Nat} {s : Server} {input : Input}

/-- What a pass leaves of the channels, wherever it stops. -/
theorem pass_channels (hg : Orderly items) (hp : Awaits items i (.up s))
    (hfresh : ∀ ch ∈ input.channels, ch ∉ askedOn items) {s' : Server}
    (hs : Balanced s.waiting s' ∨ Balanced (input.channels ++ s.waiting) s') :
    (answeredOn (items ++ (input.items i ++ s'.out)) ++ s'.waiting).Nodup ∧
      ∀ ch ∈ answeredOn s'.out ++ s'.waiting, AskedAt (items ++ input.items i) i ch := by
  obtain ⟨-, -, hnodup, hasked⟩ := hp
  have hold : ∀ ch ∈ s.waiting, ch ∈ askedOn items := fun ch hch => by
    obtain ⟨r, hr, hreply⟩ := hasked ch hch
    exact mem_askedOn.mpr ⟨i, r, hr, hreply⟩
  -- the new channel is nowhere yet
  have hnew : (answeredOn items ++ (input.channels ++ s.waiting)).Nodup := by
    cases input with
    | request r =>
      refine List.Perm.nodup_iff (List.perm_middle : (answeredOn items ++ _).Perm _) |>.mpr ?_
      refine List.nodup_cons.mpr ⟨fun hmem => ?_, hnodup⟩
      refine hfresh r.reply (List.mem_singleton_self _) ?_
      exact (List.mem_append.mp hmem).elim (hg.origin _) (hold _)
    | message m => exact hnodup
    | tick => exact hnodup
  have hsub : ∀ ch ∈ answeredOn s'.out ++ s'.waiting, ch ∈ input.channels ++ s.waiting := by
    intro ch hch
    rcases hs with hs | hs
    · exact List.mem_append_right _ (hs.perm.subset hch)
    · exact hs.perm.subset hch
  refine ⟨?_, fun ch hch => ?_⟩
  · rw [answeredOn_append, answeredOn_append, Input.answeredOn_items, List.nil_append,
      List.append_assoc]
    rcases hs with hs | hs
    · exact (hs.perm.append_left _).nodup_iff.mpr hnodup
    · exact (hs.perm.append_left _).nodup_iff.mpr hnew
  · rcases List.mem_append.mp (hsub ch hch) with hch | hch
    · obtain ⟨r, hr, hreply⟩ := Input.mem_channels hch i
      exact ⟨r, List.mem_append_right _ hr, hreply⟩
    · exact (hasked ch hch).mono

theorem pass_orderly (hg : Orderly items) (hp : Awaits items i (.up s))
    (hfresh : ∀ ch ∈ input.channels, ch ∉ askedOn items) {s' : Server}
    (hs : Balanced s.waiting s' ∨ Balanced (input.channels ++ s.waiting) s') :
    Orderly (items ++ (input.items i ++ s'.out)) := by
  have hasks : askedOn s'.out = [] := hs.elim (·.asks) (·.asks)
  obtain ⟨hnodup, hat⟩ := pass_channels hg hp hfresh hs
  have haskedOn : askedOn (items ++ (input.items i ++ s'.out)) = askedOn items ++ input.channels := by
    rw [askedOn_append, askedOn_append, Input.askedOn_items, hasks, List.append_nil]
  refine ⟨?_, (List.nodup_append.mp hnodup).1, fun ch hch => ?_⟩
  · rw [haskedOn]
    refine List.nodup_append.mpr ⟨hg.asked, ?_, ?_⟩
    · cases input with
      | request r => exact List.nodup_singleton _
      | message m => exact List.nodup_nil
      | tick => exact List.nodup_nil
    · rintro ch hch ch' hch' rfl
      exact hfresh ch hch' hch
  · rw [haskedOn]
    rw [answeredOn_append, answeredOn_append, Input.answeredOn_items, List.nil_append] at hch
    rcases List.mem_append.mp hch with hch | hch
    · exact List.mem_append_left _ (hg.origin ch hch)
    · obtain ⟨r, hr, hreply⟩ := hat ch (List.mem_append_left _ hch)
      rw [← Input.askedOn_items i, ← askedOn_append]
      exact mem_askedOn.mpr ⟨i, r, hr, hreply⟩

/-- A pass of server `i` keeps the channels in order, and does not touch those of the others. -/
theorem pass_keeps (hg : Orderly items) (hp : Awaits items i (.up s))
    (hfresh : ∀ ch ∈ input.channels, ch ∉ askedOn items) {p' : Proc} {out : List Item}
    (hpass : after (input.items i) (iterate input s) = (p', out)) :
    Orderly (items ++ out) ∧ Awaits (items ++ out) i p' ∧
      ∀ j q, j ≠ i → Awaits items j q → Awaits (items ++ out) j q := by
  have hstart : Balanced s.waiting s := by
    refine ⟨hp.2.1, ?_, ?_⟩ <;> rw [hp.1]
    · rfl
    · exact List.Perm.refl _
  have htriple := hstart.iterate input
  have hframe : ∀ {s' : Server}, Balanced s.waiting s' ∨ Balanced (input.channels ++ s.waiting) s' →
      ∀ j q, j ≠ i → Awaits items j q → Awaits (items ++ (input.items i ++ s'.out)) j q := by
    intro s' hs j q hj hq
    cases q with
    | down store => trivial
    | up t =>
      obtain ⟨hout, hkeys, hnodup, hasked⟩ := hq
      obtain ⟨hnodup', hat⟩ := pass_channels hg hp hfresh hs
      have horder := pass_orderly hg hp hfresh hs
      refine ⟨hout, hkeys, ?_, fun ch hch => (hasked ch hch).mono⟩
      refine List.nodup_append.mpr ⟨horder.answered, (List.nodup_append.mp hnodup).2.1, ?_⟩
      rintro ch hch ch' hch' rfl
      rw [answeredOn_append, answeredOn_append, Input.answeredOn_items, List.nil_append] at hch
      rcases List.mem_append.mp hch with hch | hch
      · exact (List.nodup_append.mp hnodup).2.2 ch hch ch hch' rfl
      · -- it would have been asked on at both servers
        obtain ⟨r, hr, hreply⟩ := hat ch (List.mem_append_left _ hch)
        obtain ⟨r', hr', hreply'⟩ := hasked ch hch'
        rw [← List.append_assoc] at horder
        exact hj (Orderly.unique horder.asked (List.mem_append_left _ hr)
          (List.mem_append_left _ (List.mem_append_left _ hr')) (hreply.trans hreply'.symm)).1.symm
  cases hx : iterate input s with
  | ok u s' =>
    rw [hx] at hpass
    cases hpass
    have hs : Balanced s.waiting s' ∨ Balanced (input.channels ++ s.waiting) s' := .inr (htriple.ok hx)
    obtain ⟨hnodup, hat⟩ := pass_channels hg hp hfresh hs
    refine ⟨pass_orderly hg hp hfresh hs, ⟨rfl, (htriple.ok hx).keys, hnodup, fun ch hch => ?_⟩,
      hframe hs⟩
    rw [← List.append_assoc]
    exact (hat ch (List.mem_append_right _ hch)).mono
  | error e s' =>
    rw [hx] at hpass
    cases hpass
    have hs := htriple.error hx
    exact ⟨pass_orderly hg hp hfresh hs, trivial, hframe hs⟩

end

/-- In every run the channels are in order. -/
theorem orderly_of_runs {S : Setup Disk} {snapshotEntries : Nat → Nat}
    {A : Nat → Event → Proc → Prop} {c : Servers}
    (hr : Net.Runs (act S snapshotEntries) A (start S) c) :
    (∀ i p, c.procs i = some p → Awaits c.sent i p) ∧ Orderly c.sent := by
  refine hr.keepsHistory (G := Orderly) (R := Awaits) ?_ ?_ ⟨.nil, .nil, fun _ h => h⟩
  · intro i e p items p' out hg hp _ hact
    rcases act_some hact with ⟨input, s, -, rfl, havail, hpass⟩ | ⟨s, rfl, rfl, rfl⟩ |
      ⟨store, s, rfl, hopen, rfl, rfl⟩
    · refine pass_keeps hg hp (fun ch hch => ?_) hpass
      cases input with
      | request r => exact List.mem_singleton.mp hch ▸ havail
      | message m => cases hch
      | tick => cases hch
    · rw [List.append_nil]
      exact ⟨hg, trivial, fun _ _ _ h => h⟩
    · rw [List.append_nil]
      obtain ⟨hpending, hreads, hout⟩ := openServer_idle hopen
      have hnone : s.waiting = [] := by rw [Server.waiting, hpending, hreads]; rfl
      refine ⟨hg, ⟨hout, by rw [hpending]; exact .nil, ?_, ?_⟩, fun _ _ _ h => h⟩
      · rw [hnone, List.append_nil]
        exact hg.answered
      · rw [hnone]
        exact fun _ h => absurd h List.not_mem_nil
  · intro i p hp
    dsimp only [start] at hp
    split at hp
    · cases hp
      trivial
    · cases hp

/-- In every run, a request is answered at most once, and nothing is answered that was not asked. -/
theorem answered_once (S : Setup Disk) (snapshotEntries : Nat → Nat) {c : Servers}
    (hr : Net.Runs (act S snapshotEntries) (fun _ _ _ => True) (start S) c) :
    (answeredOn c.sent).Nodup ∧ ∀ ch ∈ answeredOn c.sent, ch ∈ askedOn c.sent := by
  obtain ⟨-, horder⟩ := orderly_of_runs hr
  exact ⟨horder.answered, horder.origin⟩

theorem answered_once_trio : ∃ c,
    Net.Runs (act trio fun _ => 0) (fun _ _ _ => True) (start trio) c ∧
      answeredOn c.sent = [0, 1] ∧ (answeredOn c.sent).Nodup := by
  have h : ((start trio).play (act trio fun _ => 0) (fun _ _ _ => True) served).any (fun c =>
      decide (answeredOn c.sent = [0, 1])) = true := by
    decide +kernel
  simp only [Option.any_eq_true, decide_eq_true_eq] at h
  obtain ⟨c, hc, hanswered⟩ := h
  exact ⟨c, .of_play hc, hanswered, (answered_once trio _ (.of_play hc)).1⟩

end Promtact.Service
