import Promtact.Lib.Sim
import Promtact.Raft.Types

/-!
# Durable stores

What a store gives back after a crash, and what a node may expect of it.

* `DurableStore`: the methods of a store, and how it is opened again after a crash.
* `LawfulStore`: the store keeps what it accepted. `Holds s d` says that the store `s`, if it can
  be opened again, gives back `d`; a method that returns an error does not change that. `Clean s`
  says that no snapshot waits for the log below it to be released; a clean store can be opened.
  `Sound s` says that the store was not asked to keep an index that its format cannot represent.
* `Disk`: the store that keeps exactly what it accepts. It refuses a call when its `faults` say
  so, and a snapshot that is older than the one it has.
* `MemoryStore`: the store of a node that was made without one.
-/

namespace Promtact.Raft

open Refine

namespace Recovery

/-- The index that the snapshot covers, `0` without one. -/
def base (d : Recovery) : Nat := d.snapshot.lastIndex

/-- The index of the last entry in the store. -/
def lastIndex (d : Recovery) : Nat := d.base + d.suffix.length

/-- The term at an index from the base on. -/
def termAt (d : Recovery) (index : Nat) : Option Nat :=
  if index < d.base then none
  else if index = d.base then some d.snapshot.lastTerm
  else (d.suffix[index - d.base - 1]?).map (·.term)

/-- The entry at `index` and nothing after it. -/
def append (d : Recovery) (index : Nat) (entry : Entry) : Recovery :=
  { d with suffix := d.suffix.take (index - d.base - 1) ++ [entry] }

/-- The snapshot replaces the log below it. The log above it stays if it continues the snapshot. -/
def install (d : Recovery) (snapshot : Snapshot) : Recovery :=
  { d with
    snapshot
    suffix :=
      if d.termAt snapshot.lastIndex = some snapshot.lastTerm then
        d.suffix.drop (snapshot.lastIndex - d.base)
      else [] }

@[simp] theorem install_hard (d : Recovery) (snapshot : Snapshot) :
    (d.install snapshot).hard = d.hard := rfl

@[simp] theorem install_base (d : Recovery) (snapshot : Snapshot) :
    (d.install snapshot).base = snapshot.lastIndex := rfl

end Recovery

/-- A store with what opening it after a crash does. -/
class DurableStore (σ : Type) extends StableStore σ where
  reopen : σ → Except StorageError (σ × Recovery)

/-- The store gives back what it accepted. -/
class LawfulStore (σ : Type) [DurableStore σ] where
  Holds : σ → Recovery → Prop
  Clean : σ → Prop
  Sound : σ → Prop
  saveHardState_ok : ∀ {s s' : σ} {d h}, Holds s d → StableStore.saveHardState h s = .ok () s' →
    Holds s' { d with hard := h } ∧ (Clean s → Clean s')
  saveHardState_error : ∀ {s s' : σ} {d h e}, Holds s d → StableStore.saveHardState h s = .error e s' →
    Holds s' d
  append_ok : ∀ {s s' : σ} {d k e}, Holds s d → Clean s → d.base < k → k ≤ d.lastIndex + 1 →
    StableStore.append k e s = .ok () s' → Holds s' (d.append k e) ∧ Clean s'
  append_error : ∀ {s s' : σ} {d k e err}, Holds s d → StableStore.append k e s = .error err s' → Holds s' d
  saveSnapshot_ok : ∀ {s s' : σ} {d snap}, Holds s d →
    (Clean s ∧ d.base < snap.lastIndex ∨ d.termAt snap.lastIndex = some snap.lastTerm) →
    StableStore.saveSnapshot snap s = .ok () s' → Holds s' (d.install snap)
  saveSnapshot_below : ∀ {s s' : σ} {d snap}, Holds s d → snap.lastIndex < d.base →
    StableStore.saveSnapshot snap s = .ok () s' → Holds s' d
  saveSnapshot_error : ∀ {s s' : σ} {d snap e}, Holds s d → StableStore.saveSnapshot snap s = .error e s' →
    Holds s' d
  compactLog_ok : ∀ {s s' : σ} {d k}, Holds s d → StableStore.compactLog k s = .ok () s' → Holds s' d
  compactLog_error : ∀ {s s' : σ} {d k e}, Holds s d → StableStore.compactLog k s = .error e s' → Holds s' d
  compactLog_clean : ∀ {s s' s'' : σ} {snap}, Clean s → StableStore.saveSnapshot snap s = .ok () s' →
    StableStore.compactLog snap.lastIndex s' = .ok () s'' → Clean s''
  reopen_ok : ∀ {s s' : σ} {d d'}, Holds s d → Sound s → DurableStore.reopen s = .ok (s', d') →
    d' = d ∧ Holds s' d ∧ Clean s'
  reopen_clean : ∀ {s : σ} {d}, Holds s d → Sound s → Clean s → ∃ s', DurableStore.reopen s = .ok (s', d)

/-- The store that keeps exactly what it accepts. The calls are refused as `faults` says, one
after the other. -/
structure Disk where
  data : Recovery := {}
  faults : List Bool := []
  deriving DecidableEq, Repr

namespace Disk

/-- The error of a disk that refuses a call. -/
def refused : StorageError := ⟨"disk: refused"⟩

/-- The next fault refuses a call. -/
def refuse (s : Disk) : Option (StorageError × Disk) :=
  match s.faults with
  | true :: faults => some (refused, { s with faults })
  | _ => none

/-- One call: `f` on the data, unless it is refused. -/
def call (f : Recovery → Except StorageError Recovery) : EStateM StorageError Disk Unit :=
  within Disk.data (fun data s => { data, faults := s.faults.tail }) refuse fun data =>
    match f data with
    | .ok data' => .ok () data'
    | .error e => .error e data

instance : DurableStore Disk where
  saveHardState h := call fun d => .ok { d with hard := h }
  append index entry := call fun d => .ok (d.append index entry)
  isSnapshotStore := true
  saveSnapshot snapshot := call fun d =>
    if snapshot.lastIndex < d.base then .error ⟨"snapshot: index regression"⟩
    else .ok (d.install snapshot)
  compactLog _ := call .ok
  reopen s := .ok (s, s.data)

theorem refuse_data {s s' : Disk} {e : StorageError} (h : s.refuse = some (e, s')) :
    s'.data = s.data := by
  unfold refuse at h
  split at h
  · cases h
    rfl
  · cases h

theorem call_ok {f : Recovery → Except StorageError Recovery} {s s' : Disk}
    (h : call f s = .ok () s') : f s.data = .ok s'.data := by
  have hx := within_ok (fun _ _ => rfl) h
  split at hx
  · injection hx with _ hdata
    rw [← hdata]
    assumption
  · cases hx

theorem call_error {f : Recovery → Except StorageError Recovery} {s s' : Disk} {e : StorageError}
    (h : call f s = .error e s') : s'.data = s.data := by
  obtain hsame | ⟨e', hx⟩ := within_error (fun _ _ => rfl) (fun _ _ _ => refuse_data) h
  · exact hsame
  · split at hx
    · cases hx
    · injection hx with _ hdata
      exact hdata.symm

instance : LawfulStore Disk where
  Holds s d := s.data = d
  Clean _ := True
  Sound _ := True
  saveHardState_ok hs h := by
    have := call_ok h
    subst hs; exact ⟨(Except.ok.inj this).symm, fun _ => trivial⟩
  saveHardState_error hs h := (call_error h).trans hs
  append_ok hs _ _ _ h := by
    have := call_ok h
    subst hs; exact ⟨(Except.ok.inj this).symm, trivial⟩
  append_error hs h := (call_error h).trans hs
  saveSnapshot_ok hs _ h := by
    have := call_ok h
    subst hs
    split at this
    · cases this
    · exact (Except.ok.inj this).symm
  saveSnapshot_below hs hb h := by
    have := call_ok h
    subst hs
    rw [if_pos hb] at this
    cases this
  saveSnapshot_error hs h := (call_error h).trans hs
  compactLog_ok hs h := (Except.ok.inj (call_ok h)).symm.trans hs
  compactLog_error hs h := (call_error h).trans hs
  compactLog_clean _ _ _ := trivial
  reopen_ok hs _ h := by cases h; exact ⟨hs, hs, trivial⟩
  reopen_clean hs _ _ := by cases hs; exact ⟨_, rfl⟩

end Disk

/-- `memoryStore`, the store of `NewNode`. -/
structure MemoryStore where
  hard : HardState := {}
  log : List Entry := []
  snapshot : Snapshot := {}
  base : Nat := 0
  deriving DecidableEq, Repr

instance : StableStore MemoryStore where
  saveHardState hard := modify fun s => { s with hard }
  append _ entry := modify fun s => { s with log := s.log ++ [entry] }
  isSnapshotStore := true
  saveSnapshot snapshot := modify fun s => { s with snapshot }
  compactLog index := do
    let s ← get
    if index < s.base then throw errStorage else set { s with base := index }

end Promtact.Raft
