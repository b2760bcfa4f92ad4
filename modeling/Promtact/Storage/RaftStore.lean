import Promtact.Raft.Store
import Promtact.Storage.RaftWal

/-!
# The store of a compacting node (`storage/raftstore`, `storage/snapshot`)

A snapshot file beside the log of `RaftWal`. `SaveSnapshot` replaces the file, `CompactLog` then
appends the fence that releases the log below the snapshot; `Open` completes a compaction that a
crash interrupted between the two.

The file and the WAL do not fail here: what a call accepted is there when the store is opened
again.

* `instLawfulStore`: the store keeps what it accepted. Between the two calls it already holds the
  new snapshot, but `Open` may refuse it (`Clean` excludes this).
-/

namespace Promtact.Storage

open Raft

/-- `snapshot.Store`, with the image that the file has. -/
structure SnapshotStore where
  image : Snapshot := {}
  last : Nat := 0
  deriving DecidableEq, Repr

/-- `Save`: the index never goes back. -/
def SnapshotStore.save (image : Snapshot) (s : SnapshotStore) :
    Except StorageError SnapshotStore :=
  if image.lastIndex < s.last then .error ⟨"snapshot: index regression"⟩
  else .ok { image, last := image.lastIndex }

/-- `OpenStore`. Without a file the image is the empty one. -/
def SnapshotStore.openStore (image : Snapshot) : SnapshotStore :=
  { image, last := image.lastIndex }

namespace RaftStore

/-- `Store`: the log, the snapshot, and a snapshot the log is not yet compacted to. -/
structure Store where
  wal : RaftWal.Store := {}
  snapshot : SnapshotStore := {}
  pending : Snapshot := {}
  deriving DecidableEq, Repr

/-- A call of the WAL. -/
def onWal (x : EStateM StorageError RaftWal.Store Unit) : EStateM StorageError Store Unit :=
  fun s =>
    match x s.wal with
    | .ok _ wal => .ok () { s with wal }
    | .error e wal => .error e { s with wal }

/-- The compaction to a snapshot, by a fence if the log goes on after it. -/
def release (index term : Nat) : EStateM StorageError RaftWal.Store Unit := fun wal =>
  if wal.term index = some term then RaftWal.Store.compactLog index wal
  else RaftWal.Store.resetBase index term wal

/-- `SaveHardState`. -/
def saveHardState (h : HardState) : EStateM StorageError Store Unit :=
  onWal (RaftWal.Store.saveHardState h)

/-- `Append`. -/
def append (index : Nat) (entry : Entry) : EStateM StorageError Store Unit :=
  onWal (RaftWal.Store.append index entry)

/-- `SaveSnapshot`: the log is left alone. -/
def saveSnapshot (snap : Snapshot) : EStateM StorageError Store Unit := fun s =>
  match s.snapshot.save snap with
  | .ok snapshot => .ok () { s with snapshot, pending := snap }
  | .error e => .error e s

/-- `CompactLog`: only up to the snapshot that was just saved. -/
def compactLog (index : Nat) : EStateM StorageError Store Unit := fun s =>
  if s.pending.lastIndex ≠ index then
    .error ⟨"raftstore: no durable snapshot for compaction index " ++ toString index⟩ s
  else
    match release index s.pending.lastTerm s.wal with
    | .ok _ wal => .ok () { s with wal, pending := {} }
    | .error e wal => .error e { s with wal }

/-- What `Open` does after both parts are open: it completes an interrupted compaction. -/
def complete (image : Snapshot) (wal : RaftWal.Store) : Except StorageError RaftWal.Store :=
  if image.lastIndex < wal.base then
    .error ⟨"raftstore: WAL base " ++ toString wal.base ++ " exceeds snapshot " ++
      toString image.lastIndex⟩
  else if wal.base < image.lastIndex then
    if wal.lastIndex < image.lastIndex then
      .error ⟨"raftstore: snapshot " ++ toString image.lastIndex ++ " exceeds WAL last index"⟩
    else
      match release image.lastIndex image.lastTerm wal with
      | .ok _ wal => .ok wal
      | .error e _ => .error e
  else .ok wal

/-- `Open`, for the records of the WAL and the image of the snapshot file. -/
def openStore (records : List Record) (image : Snapshot) :
    Except StorageError (Store × Recovery) := do
  let wal ← complete image (← RaftWal.openLog records)
  if wal.base ≠ image.lastIndex then
    throw ⟨"raftstore: snapshot/WAL base mismatch " ++ toString image.lastIndex ++ " != " ++
      toString wal.base⟩
  pure ({ wal, snapshot := .openStore image },
    { hard := wal.hard, snapshot := image, suffix := wal.data.tail })

instance : DurableStore Store where
  saveHardState := saveHardState
  append := append
  isSnapshotStore := true
  saveSnapshot := saveSnapshot
  compactLog := compactLog
  reopen s := openStore s.wal.log s.snapshot.image

/-! ## What the WAL holds -/

/-- The WAL as the record of a snapshot at its base and the log above it. -/
def ofWal (wal : RaftWal.State) : Recovery where
  hard := wal.hard
  snapshot := { lastIndex := wal.base, lastTerm := (wal.data.head?.map (·.term)).getD 0 }
  suffix := wal.data.tail

theorem term_eq_termAt {wal : RaftWal.State} (hd : wal.data ≠ []) (index : Nat) :
    wal.term index = (ofWal wal).termAt index := by
  obtain ⟨e, t, he⟩ := List.exists_cons_of_ne_nil hd
  simp only [RaftWal.State.term, RaftWal.State.lastIndex, Recovery.termAt, Recovery.base, ofWal, he,
    List.length_cons, List.head?_cons, List.tail_cons, Option.map_some, Option.getD_some]
  rcases Nat.lt_trichotomy index wal.base with hlt | rfl | hgt
  · rw [if_pos (.inl hlt), if_pos hlt]
  · rw [if_neg (by omega), if_neg (by omega), if_pos rfl, Nat.sub_self]; rfl
  · rw [if_neg (by omega : ¬ index < wal.base), if_neg (by omega : ¬ index = wal.base)]
    obtain ⟨k, rfl⟩ : ∃ k, index = wal.base + (k + 1) := ⟨index - wal.base - 1, by omega⟩
    rw [Nat.add_sub_cancel_left, List.getElem?_cons_succ, Nat.add_sub_cancel]
    split
    · rw [List.getElem?_eq_none (by omega)]; rfl
    · rfl

/-- After a release the log starts at the index, with the term. -/
theorem release_ok {index term : Nat} {wal wal' : RaftWal.Store}
    (hx : release index term wal = .ok () wal') :
    wal'.base = index ∧ wal'.hard = wal.hard ∧ wal'.inRange = wal.inRange ∧
      (wal.Exact → wal'.Exact) ∧ ∃ e t, wal'.data = e :: t ∧ e.term = term := by
  unfold release at hx
  split at hx
  · rename_i ht
    have he := fun h => RaftWal.Store.compactLog_exact h hx
    unfold RaftWal.Store.compactLog at hx
    split at hx
    · cases hx
    rw [RaftWal.State.term, if_neg (by omega), Option.map_eq_some_iff] at ht
    obtain ⟨e, hk, het⟩ := ht
    obtain ⟨hlt, rfl⟩ := List.getElem?_eq_some_iff.mp hk
    cases hx
    exact ⟨rfl, rfl, rfl, he, _, _, List.drop_eq_getElem_cons hlt, het⟩
  · have he := (RaftWal.Store.resetBase_logs hx).exact
    unfold RaftWal.Store.resetBase at hx
    split at hx
    · cases hx
    cases hx
    exact ⟨rfl, rfl, rfl, he, _, _, rfl, rfl⟩

/-- The log above the snapshot stays as in `Recovery.install`. -/
theorem release_above {wal : RaftWal.Store} (image : Snapshot) (hd : wal.data ≠ [])
    (hb : wal.base < image.lastIndex) :
    ∃ wal', release image.lastIndex image.lastTerm wal = .ok () wal' ∧
      wal'.data.tail = ((ofWal wal.toState).install image).suffix := by
  rw [release, Recovery.install, ← term_eq_termAt hd]
  split
  · rename_i ht
    have hrange : ¬ (image.lastIndex ≤ wal.base ∨ wal.lastIndex < image.lastIndex) := by
      rw [RaftWal.State.term] at ht
      split at ht
      · cases ht
      · omega
    refine ⟨_, if_neg hrange, ?_⟩
    show (wal.data.drop (image.lastIndex - wal.base)).tail = wal.data.tail.drop _
    rw [List.drop_tail, List.tail_drop]; rfl
  · exact ⟨_, if_neg (by omega), rfl⟩

/-! ## Invariant -/

/-- What the calls keep, whatever their order. -/
structure Valid (s : Store) : Prop where
  data : s.wal.data ≠ []
  base_le : s.wal.base ≤ s.snapshot.image.lastIndex
  baseTerm : s.wal.base = s.snapshot.image.lastIndex →
    (ofWal s.wal.toState).snapshot.lastTerm = s.snapshot.image.lastTerm
  last : s.snapshot.last = s.snapshot.image.lastIndex
  exact : s.wal.inRange = true → s.wal.Exact

/-- The log below the snapshot is released. -/
def Clean (s : Store) : Prop := s.wal.base = s.snapshot.image.lastIndex

/-- What the store accepted: its log, under its last snapshot. -/
def content (s : Store) : Recovery := (ofWal s.wal.toState).install s.snapshot.image

variable {s s' : Store}

theorem Valid.content_clean (hv : Valid s) (hc : Clean s) :
    content s = ⟨s.wal.hard, s.snapshot.image, s.wal.data.tail⟩ := by
  have ht : (ofWal s.wal.toState).termAt s.snapshot.image.lastIndex =
      some s.snapshot.image.lastTerm := by
    have hb : s.snapshot.image.lastIndex = (ofWal s.wal.toState).base := hc.symm
    rw [Recovery.termAt, if_neg (by omega), if_pos hb, hv.baseTerm hc]
  rw [content, Recovery.install, if_pos ht]
  show Recovery.mk _ _ (s.wal.data.tail.drop (_ - s.wal.base)) = _
  rw [← hc, Nat.sub_self]; rfl

theorem Valid.openStore_eq (hv : Valid s) :
    SnapshotStore.openStore s.snapshot.image = s.snapshot := by
  rw [SnapshotStore.openStore, ← hv.last]

/-- The log is released up to the snapshot in the file. -/
theorem Valid.of_release {wal : RaftWal.Store} {snap : Snapshot} (hv : Valid s)
    (hx : release snap.lastIndex snap.lastTerm s.wal = .ok () wal) (pending : Snapshot) :
    Valid { wal, snapshot := .openStore snap, pending } := by
  obtain ⟨h1, -, h3, h4, e, t, h5, h6⟩ := release_ok hx
  refine ⟨?_, Nat.le_of_eq h1, fun _ => ?_, rfl, fun h => h4 (hv.exact (h3 ▸ h))⟩
  · show wal.data ≠ []
    rw [h5]; exact List.cons_ne_nil _ _
  · show (wal.data.head?.map (·.term)).getD 0 = _
    rw [h5]; exact h6

/-- A released log under a valid snapshot. -/
theorem Valid.released {wal : RaftWal.Store} (hv : Valid s)
    (hx : release s.snapshot.image.lastIndex s.snapshot.image.lastTerm s.wal = .ok () wal)
    (hb : s.wal.base < s.snapshot.image.lastIndex) (pending : Snapshot) :
    Valid { s with wal, pending } ∧ Clean { s with wal, pending } ∧
      content { s with wal, pending } = content s := by
  obtain ⟨wal', hx', htail⟩ := release_above _ hv.data hb
  rw [hx'] at hx
  cases hx
  obtain ⟨h1, h2, -, -⟩ := release_ok hx'
  have hv' := hv.of_release hx' pending
  rw [hv.openStore_eq] at hv'
  have hc' : Clean { s with wal := wal, pending } := h1
  refine ⟨hv', hc', ?_⟩
  rw [hv'.content_clean hc']
  show Recovery.mk wal.hard _ wal.data.tail = _
  rw [h2, htail]; rfl

/-! ## Opening -/

theorem openLog_eq {wal : RaftWal.Store} (hx : wal.Exact) (hr : wal.inRange = true) :
    RaftWal.openLog wal.log = .ok wal := by
  rw [RaftWal.openLog, show RaftWal.replay wal.log = .ok wal.toState from hx]
  cases wal
  cases hr
  rfl

theorem Valid.reopen_of_complete {wal : RaftWal.Store} (hv : Valid s) (hr : s.wal.inRange = true)
    (hx : complete s.snapshot.image s.wal = .ok wal)
    (hb : wal.base = s.snapshot.image.lastIndex) :
    DurableStore.reopen s = .ok ({ wal, snapshot := s.snapshot, pending := {} },
      ⟨wal.hard, s.snapshot.image, wal.data.tail⟩) := by
  show openStore s.wal.log s.snapshot.image = _
  rw [openStore, openLog_eq (hv.exact hr) hr]
  show (complete s.snapshot.image s.wal >>= _) = _
  rw [hx, hv.openStore_eq]
  exact if_neg (not_not.mpr hb)

theorem Valid.reopen_of_error {e : StorageError} (hv : Valid s) (hr : s.wal.inRange = true)
    (hx : complete s.snapshot.image s.wal = .error e) : DurableStore.reopen s = .error e := by
  show openStore s.wal.log s.snapshot.image = _
  rw [openStore, openLog_eq (hv.exact hr) hr]
  show (complete s.snapshot.image s.wal >>= _) = _
  rw [hx]; rfl

/-- A store in which nothing is pending is opened as it is. -/
theorem Valid.reopen_clean (hv : Valid s) (hr : s.wal.inRange = true) (hc : Clean s) :
    DurableStore.reopen s = .ok ({ s with pending := {} }, content s) := by
  have hc' : s.wal.base = s.snapshot.image.lastIndex := hc
  rw [hv.content_clean hc]
  refine hv.reopen_of_complete hr ?_ hc'
  rw [complete, if_neg (by omega), if_neg (by omega)]

/-- A store whose log does not reach the snapshot is not opened. -/
theorem Valid.reopen_beyond (hv : Valid s) (hr : s.wal.inRange = true)
    (hb : s.wal.base < s.snapshot.image.lastIndex)
    (hl : s.wal.lastIndex < s.snapshot.image.lastIndex) :
    DurableStore.reopen s = .error ⟨"raftstore: snapshot " ++
      toString s.snapshot.image.lastIndex ++ " exceeds WAL last index"⟩ := by
  refine hv.reopen_of_error hr ?_
  rw [complete, if_neg (by omega), if_pos hb, if_pos hl]

/-- A store whose log reaches the snapshot is opened, and the log below it released. -/
theorem Valid.reopen_pending (hv : Valid s) (hr : s.wal.inRange = true)
    (hb : s.wal.base < s.snapshot.image.lastIndex)
    (hl : s.snapshot.image.lastIndex ≤ s.wal.lastIndex) :
    ∃ s', DurableStore.reopen s = .ok (s', content s) ∧ Valid s' ∧ Clean s' ∧
      content s' = content s ∧ s'.pending = {} := by
  obtain ⟨wal, hx, -⟩ := release_above _ hv.data hb
  obtain ⟨h3, h4, h5⟩ := hv.released hx hb {}
  refine ⟨{ s with wal, pending := {} }, ?_, h3, h4, h5, rfl⟩
  rw [← h5, h3.content_clean h4]
  refine hv.reopen_of_complete hr ?_ h4
  rw [complete, if_neg (by omega), if_pos hb, if_neg (by omega), hx]

/-! ## The calls -/

theorem onWal_ok {x : EStateM StorageError RaftWal.Store Unit} (h : onWal x s = .ok () s') :
    ∃ wal, x s.wal = .ok () wal ∧ s' = { s with wal } := by
  unfold onWal at h
  split at h
  · cases h; exact ⟨_, ‹_›, rfl⟩
  · cases h

theorem onWal_error {x : EStateM StorageError RaftWal.Store Unit} {e : StorageError}
    (hx : ∀ {wal wal' : RaftWal.Store} {e}, x wal = .error e wal' → wal' = wal)
    (h : onWal x s = .error e s') : s' = s := by
  unfold onWal at h
  split at h
  · cases h
  · rename_i hw
    cases h; rw [hx hw]

theorem saveHardState_ok {h : HardState} (hv : Valid s) (hx : saveHardState h s = .ok () s') :
    Valid s' ∧ content s' = { content s with hard := h } ∧ (Clean s → Clean s') ∧
      s'.pending = s.pending ∧ s'.snapshot = s.snapshot ∧ ofWal s'.wal.toState =
        { ofWal s.wal.toState with hard := h } := by
  obtain ⟨wal, hw, rfl⟩ := onWal_ok hx
  have he := (RaftWal.Store.saveHardState_logs hw).exact
  unfold RaftWal.Store.saveHardState at hw
  split at hw
  · cases hw
  cases hw
  exact ⟨⟨hv.data, hv.base_le, hv.baseTerm, hv.last, fun hr => he (hv.exact hr)⟩, rfl, id, rfl, rfl,
    rfl⟩

theorem saveHardState_error {h : HardState} {e : StorageError}
    (hx : saveHardState h s = .error e s') : s' = s := by
  refine onWal_error (fun hw => ?_) hx
  unfold RaftWal.Store.saveHardState at hw
  split at hw <;> cases hw
  rfl

theorem append_ok {k : Nat} {entry : Entry} (hv : Valid s) (hx : append k entry s = .ok () s') :
    Valid s' ∧ s'.pending = s.pending ∧ s'.snapshot = s.snapshot ∧
      s'.wal.base = s.wal.base ∧ s'.wal.hard = s.wal.hard ∧ s.wal.base < k ∧
      s'.wal.data = s.wal.data.take (k - s.wal.base) ++ [entry] := by
  obtain ⟨wal, hw, rfl⟩ := onWal_ok hx
  have he := fun h hk => (RaftWal.Store.append_logs hk hw).exact h
  unfold RaftWal.Store.append at hw
  split at hw
  · cases hw
  rename_i hk
  cases hw
  refine ⟨⟨?_, hv.base_le, fun hb => ?_, hv.last, fun hr => ?_⟩, rfl, rfl, rfl, rfl, by omega, rfl⟩
  · exact List.append_ne_nil_of_right_ne_nil _ (List.cons_ne_nil _ _)
  · rw [← hv.baseTerm hb]
    obtain ⟨e0, t, he0⟩ := List.exists_cons_of_ne_nil hv.data
    show ((List.head? (s.wal.data.take (k - s.wal.base) ++ _)).map _).getD 0 =
      (s.wal.data.head?.map _).getD 0
    rw [he0, show k - s.wal.base = k - s.wal.base - 1 + 1 by omega]; rfl
  · obtain ⟨h1, h2⟩ := Bool.and_eq_true_iff.mp hr
    exact he (hv.exact h1) (of_decide_eq_true h2)

theorem append_error {k : Nat} {entry : Entry} {e : StorageError}
    (hx : append k entry s = .error e s') : s' = s := by
  refine onWal_error (fun hw => ?_) hx
  unfold RaftWal.Store.append at hw
  split at hw <;> cases hw
  rfl

theorem saveSnapshot_ok {snap : Snapshot} (hx : saveSnapshot snap s = .ok () s') :
    s.snapshot.last ≤ snap.lastIndex ∧
      s' = { s with snapshot := .openStore snap, pending := snap } := by
  unfold saveSnapshot SnapshotStore.save at hx
  split at hx
  · rename_i hs
    split at hs
    · cases hs
    · cases hs; cases hx
      exact ⟨Nat.le_of_not_lt ‹_›, rfl⟩
  · cases hx

theorem saveSnapshot_error {snap : Snapshot} {e : StorageError}
    (hx : saveSnapshot snap s = .error e s') : s' = s := by
  unfold saveSnapshot at hx
  split at hx <;> cases hx
  rfl

theorem release_error {index term : Nat} {wal wal' : RaftWal.Store} {e : StorageError}
    (hx : release index term wal = .error e wal') : wal' = wal := by
  unfold release RaftWal.Store.compactLog RaftWal.Store.resetBase at hx
  split at hx <;> split at hx <;> cases hx <;> rfl

theorem compactLog_ok {index : Nat} (hx : compactLog index s = .ok () s') :
    s.pending.lastIndex = index ∧ ∃ wal, release index s.pending.lastTerm s.wal = .ok () wal ∧
      s' = { s with wal, pending := {} } := by
  unfold compactLog at hx
  split at hx
  · cases hx
  · split at hx
    · cases hx; exact ⟨not_not.mp ‹_›, _, ‹_›, rfl⟩
    · cases hx

theorem compactLog_error {index : Nat} {e : StorageError} (hx : compactLog index s = .error e s') :
    s' = s := by
  unfold compactLog at hx
  split at hx
  · cases hx; rfl
  · split at hx
    · cases hx
    · rename_i hw
      cases hx; rw [release_error hw]

/-- There is nothing to release at the base. -/
theorem not_release {index term : Nat} {wal wal' : RaftWal.Store} (hd : wal.data ≠ [])
    (hb : index ≤ wal.base) (ht : wal.base = index → (ofWal wal.toState).snapshot.lastTerm = term) :
    release index term wal ≠ .ok () wal' := by
  intro hx
  unfold release at hx
  split at hx
  · rw [RaftWal.Store.compactLog, if_pos (.inl hb)] at hx
    cases hx
  · rename_i hne
    rw [RaftWal.Store.resetBase] at hx
    split at hx
    · cases hx
    · have heq : index = (ofWal wal.toState).base := by
        show index = wal.base
        omega
      refine hne ?_
      rw [term_eq_termAt hd, Recovery.termAt, if_neg (by omega), if_pos heq, ht heq.symm]

/-! ## The store keeps what it accepted -/

/-- The store holds `d`. A snapshot that is not released yet is the one in the file. -/
structure Holds (s : Store) (d : Recovery) : Prop extends Valid s where
  pending : s.pending = {} ∨ s.pending = s.snapshot.image
  zero : s.wal.base = 0 → (ofWal s.wal.toState).snapshot.lastTerm = 0
  content_eq : content s = d

theorem holds_empty : Holds {} {} where
  data := List.cons_ne_nil _ _
  base_le := Nat.le_refl _
  baseTerm _ := rfl
  last := rfl
  exact _ := rfl
  pending := .inl rfl
  zero _ := rfl
  content_eq := rfl

/-- A snapshot in the log that another one left replaces that one. -/
theorem install_install {d : Recovery} {image snap : Snapshot} (hb : d.base ≤ image.lastIndex)
    (h : (d.install image).termAt snap.lastIndex = some snap.lastTerm) :
    (d.install image).install snap = d.install snap := by
  have hbase : (d.install image).base = image.lastIndex := rfl
  rw [Recovery.install, if_pos h, Recovery.install_hard, hbase]
  rw [Recovery.termAt, hbase] at h
  split at h
  · cases h
  split at h
  · rename_i heq
    have ht : image.lastTerm = snap.lastTerm := Option.some.inj h
    rw [heq, Nat.sub_self, List.drop_zero, Recovery.install, Recovery.install, heq, ht]
  · by_cases hk : d.termAt image.lastIndex = some image.lastTerm
    · have hsuf : (d.install image).suffix = d.suffix.drop (image.lastIndex - d.base) := if_pos hk
      rw [hsuf, List.getElem?_drop] at h
      have hd : d.termAt snap.lastIndex = some snap.lastTerm := by
        rw [Recovery.termAt, if_neg (by omega), if_neg (by omega), ← h]
        congr 2; omega
      rw [hsuf, List.drop_drop, Recovery.install, if_pos hd]
      congr 2; omega
    · have hsuf : (d.install image).suffix = [] := if_neg hk
      rw [hsuf] at h
      cases h

/-- A snapshot above a released log. -/
theorem Valid.install_clean {snap : Snapshot} (hv : Valid s) (hc : Clean s)
    (hb : s.wal.base < snap.lastIndex) :
    (content s).install snap = (ofWal s.wal.toState).install snap := by
  have hbase : (content s).base = (ofWal s.wal.toState).base := hc.symm
  have hsuf : (content s).suffix = (ofWal s.wal.toState).suffix := by rw [hv.content_clean hc]; rfl
  have ht : (content s).termAt snap.lastIndex = (ofWal s.wal.toState).termAt snap.lastIndex := by
    have hlt : ¬ snap.lastIndex < (ofWal s.wal.toState).base := Nat.lt_asymm hb
    have hne : ¬ snap.lastIndex = (ofWal s.wal.toState).base := Nat.ne_of_gt hb
    simp only [Recovery.termAt, hbase, hsuf, if_neg hlt, if_neg hne]
  rw [Recovery.install, Recovery.install, ht, hbase, hsuf]; rfl

theorem Holds.saveSnapshot {d : Recovery} {snap : Snapshot} (h : Holds s d)
    (hpre : Clean s ∧ d.base < snap.lastIndex ∨ d.termAt snap.lastIndex = some snap.lastTerm)
    (hx : saveSnapshot snap s = .ok () s') : Holds s' (d.install snap) := by
  obtain ⟨hle, rfl⟩ := saveSnapshot_ok hx
  obtain rfl := h.content_eq
  have hb : (content s).base = s.snapshot.image.lastIndex := rfl
  have hbase := h.base_le
  rw [h.last, ← hb] at hle
  refine ⟨⟨h.data, ?_, ?_, rfl, h.exact⟩, .inr rfl, h.zero, ?_⟩
  · show s.wal.base ≤ snap.lastIndex
    omega
  · intro heq
    have heq : s.wal.base = snap.lastIndex := heq
    have hclean : s.wal.base = s.snapshot.image.lastIndex := by omega
    -- the snapshot is at the base again, so it is the same point of the log
    have ht : (content s).termAt snap.lastIndex = some snap.lastTerm := by
      rcases hpre with ⟨-, hlt⟩ | ht
      · omega
      · exact ht
    rw [Recovery.termAt, hb, if_neg (by omega), if_pos (by omega)] at ht
    exact (h.baseTerm hclean).trans (Option.some.inj ht)
  · show (ofWal s.wal.toState).install snap = _
    rcases hpre with ⟨hc, hlt⟩ | ht
    · exact (h.install_clean hc (by rw [show s.wal.base = _ from hc]; exact hlt)).symm
    · exact (install_install (show (ofWal s.wal.toState).base ≤ _ from h.base_le) ht).symm

theorem Holds.compactLog {d : Recovery} {index : Nat} (h : Holds s d)
    (hx : compactLog index s = .ok () s') : Holds s' d ∧ Clean s' := by
  obtain ⟨rfl, wal, hw, rfl⟩ := compactLog_ok hx
  rcases Nat.lt_or_ge s.wal.base s.pending.lastIndex with hb | hb
  · have hp : s.pending = s.snapshot.image := by
      rcases h.pending with hp | hp
      · rw [hp] at hb; cases hb
      · exact hp
    rw [hp] at hw hb
    obtain ⟨h1, h2, h3⟩ := h.released hw hb {}
    refine ⟨⟨h1, .inl rfl, fun h0 => ?_, h3.trans h.content_eq⟩, h2⟩
    rw [show wal.base = s.snapshot.image.lastIndex from h2] at h0
    omega
  · refine absurd hw (not_release h.data hb fun heq => ?_)
    rcases h.pending with hp | hp
    · rw [hp] at heq ⊢; exact h.zero heq
    · rw [hp] at heq ⊢; exact h.baseTerm heq

theorem Holds.append {d : Recovery} {k : Nat} {entry : Entry} (h : Holds s d) (hc : Clean s)
    (hx : append k entry s = .ok () s') : Holds s' (d.append k entry) ∧ Clean s' := by
  obtain ⟨hv, h1, h2, h3, h4, h5, h6⟩ := append_ok h.toValid hx
  have hc' : Clean s' := by rw [Clean, h3, h2]; exact hc
  obtain ⟨e0, t, he0⟩ := List.exists_cons_of_ne_nil h.data
  have hk : k - s.wal.base = k - s.wal.base - 1 + 1 := by omega
  rw [he0, hk, List.take_succ_cons, List.cons_append] at h6
  refine ⟨⟨hv, by rw [h1, h2]; exact h.pending, fun h0 => ?_, ?_⟩, hc'⟩
  · rw [← h.zero (h3 ▸ h0)]
    show (s'.wal.data.head?.map _).getD 0 = (s.wal.data.head?.map _).getD 0
    rw [h6, he0]; rfl
  · have hbase : (content s).base = s.wal.base := hc.symm
    rw [hv.content_clean hc', ← h.content_eq, Recovery.append, hbase, h.content_clean hc, h2, h4, h6,
      he0]
    rfl

theorem Holds.reopen {d d' : Recovery} (h : Holds s d) (hr : s.wal.inRange = true)
    (hx : DurableStore.reopen s = .ok (s', d')) : d' = d ∧ Holds s' d ∧ Clean s' := by
  obtain rfl := h.content_eq
  rcases Nat.lt_or_eq_of_le h.base_le with hb | hc
  · rcases Nat.lt_or_ge s.wal.lastIndex s.snapshot.image.lastIndex with hl | hl
    · rw [h.reopen_beyond hr hb hl] at hx; cases hx
    · obtain ⟨s1, h1, h2, h3, h4, h5⟩ := h.reopen_pending hr hb hl
      rw [h1] at hx
      cases hx
      refine ⟨rfl, ⟨h2, .inl h5, fun h0 => ?_, h4⟩, h3⟩
      have h6 : s'.snapshot.image.lastIndex = s.snapshot.image.lastIndex := congrArg Recovery.base h4
      rw [show s'.wal.base = _ from h3] at h0
      omega
  · rw [h.reopen_clean hr hc] at hx
    cases hx
    exact ⟨rfl, ⟨⟨h.data, h.base_le, h.baseTerm, h.last, h.exact⟩, .inl rfl, h.zero, rfl⟩, hc⟩

instance : LawfulStore Store where
  Holds := Holds
  Clean := Clean
  Sound s := s.wal.inRange = true
  saveHardState_ok h hx := by
    obtain ⟨hv, h1, h2, h3, h4, h5⟩ := saveHardState_ok h.toValid hx
    refine ⟨⟨hv, by rw [h3, h4]; exact h.pending, fun h0 => ?_, by rw [h1, h.content_eq]⟩, h2⟩
    rw [h5]
    refine h.zero ?_
    rw [← h0]; exact (congrArg Recovery.base h5).symm
  saveHardState_error h hx := by rw [saveHardState_error hx]; exact h
  append_ok h hc _ _ hx := h.append hc hx
  append_error h hx := by rw [append_error hx]; exact h
  saveSnapshot_ok h hpre hx := h.saveSnapshot hpre hx
  saveSnapshot_below h hb hx := by
    -- it is refused
    have hbase := congrArg Recovery.base h.content_eq
    have hle := h.last ▸ (saveSnapshot_ok hx).1
    exact absurd (Nat.lt_of_lt_of_le hb (hbase ▸ hle)) (Nat.lt_irrefl _)
  saveSnapshot_error h hx := by rw [saveSnapshot_error hx]; exact h
  compactLog_ok h hx := (h.compactLog hx).1
  compactLog_error h hx := by rw [compactLog_error hx]; exact h
  compactLog_clean _ hx hx' := by
    obtain ⟨-, rfl⟩ := saveSnapshot_ok hx
    obtain ⟨-, wal, hw, rfl⟩ := compactLog_ok hx'
    exact (release_ok hw).1
  reopen_ok h hr hx := h.reopen hr hx
  reopen_clean h hr hc := ⟨_, h.content_eq ▸ h.toValid.reopen_clean hr hc⟩

/-! ## A crash between the two calls of a snapshot -/

/-- The stores that completed calls lead to. A snapshot is saved and its log released. -/
inductive Reached : Store → Prop
  | empty : Reached {}
  | saveHardState {s s' : Store} {h : HardState} :
      Reached s → saveHardState h s = .ok () s' → Reached s'
  | append {s s' : Store} {index : Nat} {entry : Entry} :
      Reached s → append index entry s = .ok () s' → Reached s'
  | snapshot {s s₁ s' : Store} {snap : Snapshot} :
      Reached s → saveSnapshot snap s = .ok () s₁ → compactLog snap.lastIndex s₁ = .ok () s' →
      Reached s'

theorem Reached.valid_clean (h : Reached s) : Valid s ∧ Clean s := by
  induction h with
  | empty => exact ⟨holds_empty.toValid, rfl⟩
  | saveHardState _ hx ih =>
    obtain ⟨hv, -, hc, -⟩ := saveHardState_ok ih.1 hx
    exact ⟨hv, hc ih.2⟩
  | append _ hx ih =>
    obtain ⟨hv, -, h1, h2, -⟩ := append_ok ih.1 hx
    exact ⟨hv, by rw [Clean, h2, h1]; exact ih.2⟩
  | snapshot _ hx hx' ih =>
    obtain ⟨-, rfl⟩ := saveSnapshot_ok hx
    obtain ⟨-, wal, hw, rfl⟩ := compactLog_ok hx'
    exact ⟨ih.1.of_release hw {}, (release_ok hw).1⟩

/-- After a crash between `SaveSnapshot` and `CompactLog`, `Open` gives what the two calls would
have left exactly when the log reaches the snapshot. -/
theorem open_completes_compaction_iff {s : Store} {snap : Snapshot} (hs : Reached s)
    (hr : s.wal.inRange = true) (hb : s.wal.base < snap.lastIndex) :
    ∃ s₁ s₂, saveSnapshot snap s = .ok () s₁ ∧ compactLog snap.lastIndex s₁ = .ok () s₂ ∧
      ((∃ s₃, DurableStore.reopen s₁ = .ok (s₃, ⟨s.wal.hard, snap, s₂.wal.data.tail⟩)) ↔
        snap.lastIndex ≤ s.wal.lastIndex) ∧
      (s.wal.lastIndex < snap.lastIndex → DurableStore.reopen s₁ = .error
        ⟨"raftstore: snapshot " ++ toString snap.lastIndex ++ " exceeds WAL last index"⟩) := by
  obtain ⟨hv, hc⟩ := hs.valid_clean
  have hlast : ¬ snap.lastIndex < s.snapshot.last := by
    rw [hv.last, ← show s.wal.base = s.snapshot.image.lastIndex from hc]; omega
  have hsave : saveSnapshot snap s =
      .ok () { s with snapshot := .openStore snap, pending := snap } := by
    rw [saveSnapshot, SnapshotStore.save, if_neg hlast]; rfl
  obtain ⟨wal, hw, htail⟩ := release_above _ hv.data hb
  have hcompact : compactLog snap.lastIndex
      { s with snapshot := .openStore snap, pending := snap } =
      .ok () { s with wal, snapshot := .openStore snap, pending := {} } := by
    rw [compactLog, if_neg (not_not.mpr rfl)]
    show (match release snap.lastIndex snap.lastTerm s.wal with | .ok _ wal => _ | .error e wal => _) = _
    rw [hw]
  have hv₁ : Valid { s with snapshot := .openStore snap, pending := snap } :=
    ⟨hv.data, Nat.le_of_lt hb, fun h => absurd h (Nat.ne_of_lt hb), rfl, hv.exact⟩
  refine ⟨_, _, hsave, hcompact, ⟨fun ⟨s₃, h₃⟩ => ?_, fun hl => ?_⟩, hv₁.reopen_beyond hr hb⟩
  · by_contra hl
    rw [hv₁.reopen_beyond hr hb (Nat.lt_of_not_le hl)] at h₃
    cases h₃
  · obtain ⟨s₃, h₃, -⟩ := hv₁.reopen_pending hr hb hl
    refine ⟨s₃, ?_⟩
    rw [h₃, htail]
    rfl

/-- A snapshot inside a log of two entries. -/
theorem open_completes_compaction_two :
    ∃ s snap, s.wal.lastIndex = 2 ∧ snap.lastIndex = 1 ∧ ∃ s₁ s₂,
      saveSnapshot snap s = .ok () s₁ ∧ compactLog snap.lastIndex s₁ = .ok () s₂ ∧
      ((∃ s₃, DurableStore.reopen s₁ = .ok (s₃, ⟨s.wal.hard, snap, s₂.wal.data.tail⟩)) ↔
        snap.lastIndex ≤ s.wal.lastIndex) ∧
      (s.wal.lastIndex < snap.lastIndex → DurableStore.reopen s₁ = .error
        ⟨"raftstore: snapshot " ++ toString snap.lastIndex ++ " exceeds WAL last index"⟩) := by
  have h₁ : Reached _ := .append .empty (show append 1 { term := 1 } {} = .ok () _ from rfl)
  have h₂ : Reached _ := .append h₁ (show append 2 { term := 1 } _ = .ok () _ from rfl)
  exact ⟨_, { lastIndex := 1, lastTerm := 1, oldVoters := 1#64 }, rfl, rfl,
    open_completes_compaction_iff h₂ rfl (by decide)⟩

/-- A follower without a log takes a snapshot at index 100 and crashes before the fence. -/
theorem open_refuses_snapshot_beyond_log :
    ∃ s₁ : Store, Reached {} ∧
      saveSnapshot { lastIndex := 100, lastTerm := 4, oldVoters := 7#64 } {} = .ok () s₁ ∧
      DurableStore.reopen s₁ =
        .error ⟨"raftstore: snapshot 100 exceeds WAL last index"⟩ :=
  ⟨_, .empty, rfl, by decide +kernel⟩

end RaftStore

end Promtact.Storage
