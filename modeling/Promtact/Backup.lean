import Mathlib.Data.List.Forall2
import Mathlib.Data.List.Nodup

/-!
# Restoring a backup (`backup/backup.go`)

`Restore` copies each file that the manifest lists to its final name in the data directory, and
compares size and hash after the copy. `restore_all_or_nothing_iff` says exactly when that is all or
nothing: when the first entry creates no file, or when every entry verifies. A copy that fails after
it has created its file leaves the file behind, and the next `Restore` finds a directory that is not
empty (`restore_leaves_unverified`).

Every system call may fail: `Faults` says which do. SHA-256 (in hex) and the parser of the manifest
are parameters.
-/

namespace Promtact.Backup

/-- A file of the backup as the manifest lists it. -/
structure File where
  name : String
  size : Int
  sha256 : String
  deriving DecidableEq, Repr

/-- `Manifest`. -/
structure Manifest where
  version : Int
  files : List File
  deriving DecidableEq, Repr

/-- The version of the manifest format. -/
def formatVersion : Int := 1

/-- What a name of a directory stands for. A directory can be opened, and the first read of it
fails. -/
inductive Node where
  | file (data : List UInt8)
  | directory
  deriving DecidableEq, Repr

/-- The entries of a directory. -/
abbrev Dir := List (String × Node)

/-- `errors.New` with its text, or the error of a system call. -/
inductive Error where
  | new (text : String)
  | os
  deriving DecidableEq, Repr

/-- The system calls of one `copyVerified` that fail. Before `io.Copy` fails it has written
`copy` bytes. -/
structure CopyFaults where
  openInput : Bool := false
  openOutput : Bool := false
  copy : Option Nat := none
  sync : Bool := false
  close : Bool := false
  deriving DecidableEq, Repr

/-- Which calls of the operating system fail in one run. -/
structure Faults where
  readDir : Bool := false
  readFile : Bool := false
  mkdirAll : Bool := false
  /-- Those of the `copyVerified` for the file at this place of the manifest. -/
  copies : Nat → CopyFaults := fun _ => {}

/-- The state is the data directory, if there is one. -/
abbrev M := EStateM Error (Option Dir)

variable (sha : List UInt8 → String) (parse : List UInt8 → Option Manifest)

/-- `copyVerified`: the copy, its size and its digest. The destination must not exist. -/
def copyVerified (faults : CopyFaults) (source : Dir) (name : String) : M File := do
  let some input := source.lookup name | throw .os
  if faults.openInput then throw .os
  let some dir ← get | throw .os
  -- `O_CREATE|O_EXCL`
  if faults.openOutput ∨ name ∈ dir.map (·.1) then throw .os
  match input with
  | .directory =>
    set (some (dir ++ [(name, .file [])]))
    throw .os
  | .file data =>
    match faults.copy with
    | some written =>
      set (some (dir ++ [(name, .file (data.take written))]))
      throw .os
    | none =>
      set (some (dir ++ [(name, .file data)]))
      if faults.sync then throw .os
      if faults.close then throw .os
      return { name := "", size := data.length, sha256 := sha data }

/-- The body of the loop of `Restore`. -/
def restoreFile (faults : CopyFaults) (source : Dir) (entry : File) : M Unit := do
  if entry.name ≠ "raft.wal" ∧ entry.name ≠ "snapshot.bin" then
    throw (.new "backup: invalid file name")
  let copied ← copyVerified sha faults source entry.name
  if copied.size ≠ entry.size ∨ copied.sha256 ≠ entry.sha256 then
    throw (.new "backup: checksum mismatch")

/-- The loop of `Restore` over the manifest. -/
def restoreFiles (faults : Nat → CopyFaults) (source : Dir) : List File → M Unit
  | [] => pure ()
  | entry :: rest => do
    restoreFile sha (faults 0) source entry
    restoreFiles (fun i => faults (i + 1)) source rest

/-- `Restore`: into an empty directory, and only what the manifest lists. -/
def restore (faults : Faults) (source : Dir) : M Unit := do
  if faults.readDir then throw .os
  if ((← get).getD []).length ≠ 0 then
    throw (.new "backup: restore destination is not empty")
  if faults.readFile then throw .os
  let some (.file data) := source.lookup "manifest.json" | throw .os
  let some manifest := parse data | throw (.new "backup: unsupported manifest")
  if manifest.version ≠ formatVersion then throw (.new "backup: unsupported manifest")
  if faults.mkdirAll then throw .os
  modify fun dir => some (dir.getD [])
  restoreFiles sha faults.copies source manifest.files

/-! ## One entry -/

/-- The copy for an entry gets as far as creating its file. -/
structure Creates (faults : CopyFaults) (source : Dir) (entry : File) : Prop where
  name : entry.name = "raft.wal" ∨ entry.name = "snapshot.bin"
  found : (source.lookup entry.name).isSome
  openInput : faults.openInput = false
  openOutput : faults.openOutput = false

/-- The copy for an entry ends well, and `data` has the size and the hash of the entry. -/
structure Verifies (faults : CopyFaults) (source : Dir) (entry : File) (data : List UInt8) : Prop
    extends Creates faults source entry where
  copy : faults.copy = none
  sync : faults.sync = false
  close : faults.close = false
  file : source.lookup entry.name = some (.file data)
  size : (data.length : Int) = entry.size
  sha256 : sha data = entry.sha256

variable {sha} {source : Dir} {faults : CopyFaults} {entry : File} {dir : Dir}

/-- What `copyVerified` does once both files are open. -/
theorem copyVerified_opened {name : String} {input : Node} (hin : source.lookup name = some input)
    (hopen : faults.openInput = false) (hcreate : faults.openOutput = false)
    (hnew : name ∉ dir.map (·.1)) : copyVerified sha faults source name (some dir) =
      match input, faults.copy with
      | .directory, _ => .error .os (some (dir ++ [(name, .file [])]))
      | .file data, some written => .error .os (some (dir ++ [(name, .file (data.take written))]))
      | .file data, none =>
        if faults.sync ∨ faults.close then .error .os (some (dir ++ [(name, .file data)]))
        else .ok ⟨"", data.length, sha data⟩ (some (dir ++ [(name, .file data)])) := by
  have hopens : ¬(faults.openOutput = true ∨ name ∈ dir.map (·.1)) := by
    rw [hcreate]
    exact fun h => h.elim Bool.false_ne_true hnew
  unfold copyVerified
  simp only [hin, hopen, Bool.false_eq_true, if_false]
  show (ite _ _ _ : M File) (some dir) = _
  rw [if_neg hopens]
  cases input with
  | directory => rfl
  | file data =>
    cases faults.copy with
    | some written => rfl
    | none =>
      cases faults.sync with
      | true => rfl
      | false => cases faults.close <;> rfl

/-- And where one of them is not opened. -/
theorem copyVerified_refused {name : String} (h : source.lookup name = none ∨
      faults.openInput = true ∨ faults.openOutput = true ∨ name ∈ dir.map (·.1)) :
    copyVerified sha faults source name (some dir) = .error .os (some dir) := by
  unfold copyVerified
  cases hin : source.lookup name with
  | none => rfl
  | some input =>
    cases hopen : faults.openInput with
    | true => rfl
    | false =>
      have hfails : faults.openOutput = true ∨ name ∈ dir.map (·.1) := by
        simpa only [hin, hopen, reduceCtorEq, Bool.false_eq_true, false_or] using h
      simp only [Bool.false_eq_true, if_false]
      show (ite _ _ _ : M File) (some dir) = _
      rw [if_pos hfails]
      rfl

/-- `Restore`'s check of the name, then the copy, then the comparison. -/
theorem restoreFile_run (hname : entry.name = "raft.wal" ∨ entry.name = "snapshot.bin") :
    restoreFile sha faults source entry (some dir) =
      match copyVerified sha faults source entry.name (some dir) with
      | .error e d => .error e d
      | .ok copied d =>
        if copied.size ≠ entry.size ∨ copied.sha256 ≠ entry.sha256 then
          .error (.new "backup: checksum mismatch") d
        else .ok () d := by
  have hvalid : ¬(entry.name ≠ "raft.wal" ∧ entry.name ≠ "snapshot.bin") := by
    rw [not_and_or, not_not, not_not]
    exact hname
  unfold restoreFile
  rw [if_neg hvalid]
  show EStateM.bind _ _ _ = _
  unfold EStateM.bind
  cases copyVerified sha faults source entry.name (some dir) with
  | error e d => rfl
  | ok copied d =>
    show (ite _ _ _ : M Unit) d = ite _ _ _
    split <;> rfl

theorem restoreFile_ok {data : List UInt8} (h : Verifies sha faults source entry data)
    (hnew : entry.name ∉ dir.map (·.1)) : restoreFile sha faults source entry (some dir) =
      .ok () (some (dir ++ [(entry.name, .file data)])) := by
  have hsum : ¬((data.length : Int) ≠ entry.size ∨ sha data ≠ entry.sha256) := by
    rw [not_or, not_not, not_not]
    exact ⟨h.size, h.sha256⟩
  rw [restoreFile_run h.name, copyVerified_opened h.file h.openInput h.openOutput hnew, h.copy,
    h.sync, h.close]
  exact if_neg hsum

/-- An entry whose file is not created leaves the directory as it is. -/
theorem restoreFile_refused (h : ¬Creates faults source entry ∨ entry.name ∈ dir.map (·.1)) :
    ∃ e, restoreFile sha faults source entry (some dir) = .error e (some dir) := by
  by_cases hname : entry.name = "raft.wal" ∨ entry.name = "snapshot.bin"
  · have hrefused : source.lookup entry.name = none ∨ faults.openInput = true ∨
        faults.openOutput = true ∨ entry.name ∈ dir.map (·.1) := by
      by_contra hno
      simp only [not_or, Bool.not_eq_true] at hno
      obtain ⟨hin, hopen, hcreate, hnew⟩ := hno
      exact h.elim (fun hc => hc ⟨hname, Option.isSome_iff_ne_none.mpr hin, hopen, hcreate⟩) hnew
    exact ⟨.os, by rw [restoreFile_run hname, copyVerified_refused hrefused]⟩
  · rw [not_or] at hname
    exact ⟨.new "backup: invalid file name", by unfold restoreFile; rw [if_pos hname]; rfl⟩

/-- One whose file is created and does not verify leaves it there. -/
theorem restoreFile_spoiled (h : Creates faults source entry) (hnew : entry.name ∉ dir.map (·.1))
    (hbad : ∀ data, ¬Verifies sha faults source entry data) :
    ∃ e node, restoreFile sha faults source entry (some dir) =
      .error e (some (dir ++ [(entry.name, node)])) := by
  obtain ⟨input, hin⟩ := Option.isSome_iff_exists.mp h.found
  rw [restoreFile_run h.name, copyVerified_opened hin h.openInput h.openOutput hnew]
  cases input with
  | directory => exact ⟨_, _, rfl⟩
  | file data =>
    cases hcopy : faults.copy with
    | some written => exact ⟨_, _, rfl⟩
    | none =>
      by_cases hfails : faults.sync = true ∨ faults.close = true
      · exact ⟨.os, .file data, by simp only [if_pos hfails]⟩
      · rw [not_or, Bool.not_eq_true, Bool.not_eq_true] at hfails
        have hsum : (data.length : Int) ≠ entry.size ∨ sha data ≠ entry.sha256 := by
          rw [← not_and_or]
          exact fun hs => hbad data ⟨h, hcopy, hfails.1, hfails.2, hin, hs.1, hs.2⟩
        refine ⟨.new "backup: checksum mismatch", .file data, ?_⟩
        simp only [hfails, Bool.false_eq_true, or_self, if_false]
        exact if_pos hsum

/-! ## The loop -/

/-- Every file is copied and verified, under names that are all different. -/
def AllVerify (sha : List UInt8 → String) (faults : Nat → CopyFaults) (source : Dir)
    (files : List File) : Prop :=
  (files.map (·.name)).Nodup ∧
    ∀ i entry, files[i]? = some entry → ∃ data, Verifies sha (faults i) source entry data

/-- The directory holds exactly the files listed, each with its size and its hash. -/
def Holds (sha : List UInt8 → String) (files : List File) (dir : Dir) : Prop :=
  (dir.map (·.1)).Nodup ∧ List.Forall₂ (fun p entry => p.1 = entry.name ∧
    ∃ data, p.2 = .file data ∧ (data.length : Int) = entry.size ∧ sha data = entry.sha256) dir files

/-- The same where the directory holds some files already. -/
def Ready (sha : List UInt8 → String) (faults : Nat → CopyFaults) (source dir : Dir)
    (files : List File) : Prop :=
  AllVerify sha faults source files ∧ ∀ e ∈ files, e.name ∉ dir.map (·.1)

theorem ready_cons {faults : Nat → CopyFaults} {files : List File} (node : Node) :
    Ready sha faults source dir (entry :: files) ↔
      (∃ data, Verifies sha (faults 0) source entry data) ∧ entry.name ∉ dir.map (·.1) ∧
        Ready sha (fun i => faults (i + 1)) source (dir ++ [(entry.name, node)]) files := by
  simp only [Ready, AllVerify, List.map_cons, List.nodup_cons, List.forall_mem_cons, List.map_append,
    List.map_nil, List.mem_append, List.mem_singleton, not_or]
  constructor
  · rintro ⟨⟨⟨hname, hnodup⟩, hall⟩, hnew, hrest⟩
    refine ⟨hall 0 entry rfl, hnew, ⟨hnodup, fun i => hall (i + 1)⟩, fun e he => ⟨hrest e he, ?_⟩⟩
    rintro heq
    exact hname (heq ▸ List.mem_map_of_mem he)
  · rintro ⟨hfirst, hnew, ⟨hnodup, hall⟩, hrest⟩
    refine ⟨⟨⟨fun hin => ?_, hnodup⟩, fun i => ?_⟩, hnew, fun e he => (hrest e he).1⟩
    · obtain ⟨e, he, heq⟩ := List.mem_map.mp hin
      exact (hrest e he).2 heq
    · cases i with
      | zero => rintro e ⟨⟩; exact hfirst
      | succ i => exact hall i

theorem restoreFiles_step {faults : Nat → CopyFaults} {files : List File} {dir' : Option Dir}
    (h : restoreFile sha (faults 0) source entry (some dir) = .ok () dir') :
    restoreFiles sha faults source (entry :: files) (some dir) =
      restoreFiles sha (fun i => faults (i + 1)) source files dir' := by
  show EStateM.bind _ _ _ = _
  rw [EStateM.bind, h]

theorem restoreFiles_stop {faults : Nat → CopyFaults} {files : List File} {e : Error}
    {dir' : Option Dir} (h : restoreFile sha (faults 0) source entry (some dir) = .error e dir') :
    restoreFiles sha faults source (entry :: files) (some dir) = .error e dir' := by
  show EStateM.bind _ _ _ = _
  rw [EStateM.bind, h]

theorem restoreFiles_ok {faults : Nat → CopyFaults} {files : List File}
    (h : Ready sha faults source dir files) : ∃ copies, Holds sha files copies ∧
      restoreFiles sha faults source files (some dir) = .ok () (some (dir ++ copies)) := by
  induction files generalizing faults dir with
  | nil => exact ⟨[], ⟨List.nodup_nil, .nil⟩, by rw [List.append_nil]; rfl⟩
  | cons entry files ih =>
    obtain ⟨data, hv⟩ := h.1.2 0 entry rfl
    obtain ⟨-, hfresh, hrest⟩ := (ready_cons (.file data)).mp h
    obtain ⟨copies, hholds, hrun⟩ := ih hrest
    have hnames : copies.map (·.1) = files.map (·.name) := by
      rw [← List.forall₂_eq_eq_eq, List.forall₂_map_left_iff, List.forall₂_map_right_iff]
      exact hholds.2.imp fun _ _ hp => hp.1
    refine ⟨(entry.name, .file data) :: copies, ⟨?_, ?_⟩, ?_⟩
    · rw [List.map_cons, hnames]
      exact h.1.1
    · exact .cons ⟨rfl, data, rfl, hv.size, hv.sha256⟩ hholds.2
    · rw [restoreFiles_step (restoreFile_ok hv hfresh), hrun, List.append_assoc,
        List.singleton_append]

/-- A restore that fails keeps the files it has created. Where the first entry creates one there is
at least that. -/
theorem restoreFiles_error {faults : Nat → CopyFaults} {files : List File}
    (h : ¬Ready sha faults source dir files) :
    ∃ e more, restoreFiles sha faults source files (some dir) = .error e (some (dir ++ more)) ∧
      (more = [] → ∃ first rest, files = first :: rest ∧
        (Creates (faults 0) source first → first.name ∈ dir.map (·.1))) := by
  induction files generalizing faults dir with
  | nil =>
    refine absurd ⟨⟨List.nodup_nil, fun i e he => ?_⟩, fun e he => ?_⟩ h
    · cases he
    · cases he
  | cons entry files ih =>
    by_cases hmade : Creates (faults 0) source entry → entry.name ∈ dir.map (·.1)
    · obtain ⟨e, hrun⟩ : ∃ e, restoreFile sha (faults 0) source entry (some dir) =
        .error e (some dir) := restoreFile_refused (imp_iff_not_or.mp hmade)
      exact ⟨e, [], by rw [List.append_nil]; exact restoreFiles_stop hrun,
        fun _ => ⟨entry, files, rfl, hmade⟩⟩
    obtain ⟨hcreates, hfresh⟩ := Classical.not_imp.mp hmade
    by_cases hv : ∃ data, Verifies sha (faults 0) source entry data
    · obtain ⟨data, hdata⟩ := hv
      have hrest := fun hr => h ((ready_cons (.file data)).mpr ⟨⟨data, hdata⟩, hfresh, hr⟩)
      obtain ⟨e, more, hrun, -⟩ := ih hrest
      refine ⟨e, (entry.name, .file data) :: more, ?_,
        fun hnil => absurd hnil (List.cons_ne_nil _ _)⟩
      rw [restoreFiles_step (restoreFile_ok hdata hfresh), hrun, List.append_assoc,
        List.singleton_append]
    · obtain ⟨e, node, hrun⟩ := restoreFile_spoiled hcreates hfresh (not_exists.mp hv)
      exact ⟨e, [(entry.name, node)], restoreFiles_stop hrun,
        fun hnil => absurd hnil (List.cons_ne_nil _ _)⟩

/-! ## `Restore` -/

/-- `Restore` gets as far as the loop over the files of this manifest. -/
structure Accepts (parse : List UInt8 → Option Manifest) (faults : Faults) (source : Dir)
    (manifest : Manifest) : Prop where
  readDir : faults.readDir = false
  readFile : faults.readFile = false
  mkdirAll : faults.mkdirAll = false
  found : ∃ data, source.lookup "manifest.json" = some (.file data) ∧ parse data = some manifest
  version : manifest.version = formatVersion

/-- Nothing is left to the copies: if the first file of the manifest is created, then every file
verifies. -/
def Sound (sha : List UInt8 → String) (parse : List UInt8 → Option Manifest) (faults : Faults)
    (source : Dir) : Prop :=
  ∀ manifest, Accepts parse faults source manifest →
    ∀ first ∈ manifest.files.head?, Creates (faults.copies 0) source first →
      AllVerify sha faults.copies source manifest.files

/-- The data directory holds exactly the files of the manifest after a restore that returns nil, and
no file after one that returns an error. -/
def AllOrNothing (sha : List UInt8 → String) (parse : List UInt8 → Option Manifest) (source : Dir) :
    EStateM.Result Error (Option Dir) Unit → Prop
  | .ok _ dir => ∃ data manifest copies, source.lookup "manifest.json" = some (.file data) ∧
      parse data = some manifest ∧ dir = some copies ∧ Holds sha manifest.files copies
  | .error _ dir => dir.getD [] = []

variable {parse} {calls : Faults} {data : Option Dir}

theorem restore_accepted {manifest : Manifest} (h : Accepts parse calls source manifest)
    (hempty : data.getD [] = []) : restore sha parse calls source data =
      restoreFiles sha calls.copies source manifest.files (some []) := by
  obtain ⟨bytes, hfound, hparse⟩ := h.found
  have hlength : ¬(data.getD []).length ≠ 0 := by rw [hempty]; exact not_not.mpr rfl
  unfold restore
  simp only [h.readDir, h.readFile, h.mkdirAll, hfound, hparse, h.version, Bool.false_eq_true,
    if_false, ne_eq, not_true_eq_false]
  show (ite _ _ _ : M Unit) data = _
  rw [if_neg hlength]
  show restoreFiles sha calls.copies source manifest.files (some (data.getD [])) = _
  rw [hempty]

theorem restore_refused (h : ∀ manifest, ¬Accepts parse calls source manifest)
    (hempty : data.getD [] = []) : ∃ e, restore sha parse calls source data = .error e data := by
  have hlength : ¬(data.getD []).length ≠ 0 := by rw [hempty]; exact not_not.mpr rfl
  unfold restore
  cases hdir : calls.readDir with
  | true => exact ⟨_, rfl⟩
  | false =>
  simp only [Bool.false_eq_true, if_false]
  show ∃ e, (ite _ _ _ : M Unit) data = _
  rw [if_neg hlength]
  cases hread : calls.readFile with
  | true => exact ⟨_, rfl⟩
  | false =>
  simp only [Bool.false_eq_true, if_false]
  cases hfound : source.lookup "manifest.json" with
  | none => exact ⟨_, rfl⟩
  | some node =>
  cases node with
  | directory => exact ⟨_, rfl⟩
  | file bytes =>
  cases hparse : parse bytes with
  | none => exact ⟨.new "backup: unsupported manifest", by simp only [hparse]; rfl⟩
  | some manifest =>
  simp only [hparse]
  by_cases hversion : manifest.version = formatVersion
  · cases hmkdir : calls.mkdirAll with
    | true => exact ⟨.os, by rw [if_neg (not_not.mpr hversion)]; rfl⟩
    | false => exact absurd ⟨hdir, hread, hmkdir, ⟨bytes, hfound, hparse⟩, hversion⟩ (h manifest)
  · exact ⟨.new "backup: unsupported manifest", by rw [if_pos hversion]; rfl⟩

/-- `Restore` into an empty or missing directory is all or nothing exactly where the first file of
the manifest is not created or every file verifies. -/
theorem restore_all_or_nothing_iff (sha : List UInt8 → String)
    (parse : List UInt8 → Option Manifest) (faults : Faults) (source : Dir) (data : Option Dir)
    (hempty : data.getD [] = []) :
    AllOrNothing sha parse source (restore sha parse faults source data) ↔
      Sound sha parse faults source := by
  by_cases hacc : ∃ manifest, Accepts parse faults source manifest
  · obtain ⟨manifest, hacc⟩ := hacc
    have honly (m : Manifest) (hm : Accepts parse faults source m) : m = manifest := by
      obtain ⟨bytes, hfound, hparse⟩ := hacc.found
      obtain ⟨bytes', hfound', hparse'⟩ := hm.found
      rw [hfound, Option.some_inj, Node.file.injEq] at hfound'
      rw [← hfound', hparse, Option.some_inj] at hparse'
      exact hparse'.symm
    rw [restore_accepted hacc hempty]
    by_cases hready : Ready sha faults.copies source [] manifest.files
    · obtain ⟨copies, hholds, hrun⟩ := restoreFiles_ok hready
      obtain ⟨bytes, hfound, hparse⟩ := hacc.found
      rw [hrun]
      exact ⟨fun _ m hm _ _ _ => honly m hm ▸ hready.1,
        fun _ => ⟨bytes, manifest, copies, hfound, hparse, rfl, hholds⟩⟩
    · obtain ⟨e, more, hrun, hnone⟩ := restoreFiles_error hready
      rw [hrun]
      have hall : ¬AllVerify sha faults.copies source manifest.files := fun hv =>
        hready ⟨hv, fun _ _ => List.not_mem_nil⟩
      constructor
      · intro hnil m hm first hfirst hcreates
        obtain ⟨first', rest, hfiles, hmem⟩ := hnone hnil
        rw [honly m hm, hfiles] at hfirst
        cases hfirst
        exact absurd (hmem hcreates) List.not_mem_nil
      · intro hsound
        cases hfiles : manifest.files with
        | nil => exact absurd (hfiles ▸ ⟨List.nodup_nil, fun i e he => by cases he⟩) hall
        | cons first rest =>
          have hnot : ¬Creates (faults.copies 0) source first := fun hc =>
            hall (hsound manifest hacc first (by rw [hfiles]; rfl) hc)
          obtain ⟨e', hstop⟩ : ∃ e, restoreFile sha (faults.copies 0) source first (some []) =
            .error e (some []) := restoreFile_refused (.inl hnot)
          rw [hfiles, restoreFiles_stop hstop] at hrun
          cases hrun
          rfl
  · rw [not_exists] at hacc
    obtain ⟨e, hrun⟩ := restore_refused hacc hempty
    rw [hrun]
    exact ⟨fun _ m hm => absurd hm (hacc m), fun _ => hempty⟩

section Runs

/-- A hash that tells the file of the backup from the one the manifest was made for. -/
def digest (data : List UInt8) : String := if data = [1] then "4bf5122f" else "dbc1b4c9"

/-- A manifest of one file. -/
def oneFile (_ : List UInt8) : Option Manifest := some ⟨1, [⟨"raft.wal", 1, "4bf5122f"⟩]⟩

theorem restore_one_file : (none : Option Dir).getD [] = [] ∧
    Sound digest oneFile {} [("manifest.json", .file []), ("raft.wal", .file [1])] := by
  refine ⟨rfl, (restore_all_or_nothing_iff digest oneFile {} _ none rfl).mp ?_⟩
  refine ⟨[], _, [("raft.wal", .file [1])], rfl, rfl, rfl, List.nodup_singleton _, ?_⟩
  exact .cons ⟨rfl, [1], rfl, rfl, rfl⟩ .nil

/-- One byte of `raft.wal` has changed in the backup. `Restore` returns an error and leaves the file
in the data directory, where the next `Restore` refuses to start. -/
theorem restore_leaves_unverified :
    let source : Dir := [("manifest.json", .file []), ("raft.wal", .file [2])]
    let left : Option Dir := some [("raft.wal", .file [2])]
    restore digest oneFile {} source none = .error (.new "backup: checksum mismatch") left ∧
      ¬AllOrNothing digest oneFile source (restore digest oneFile {} source none) ∧
      restore digest oneFile {} source left =
        .error (.new "backup: restore destination is not empty") left := by
  refine ⟨rfl, ?_, rfl⟩
  intro h
  exact absurd (show [("raft.wal", Node.file [2])] = [] from h) (List.cons_ne_nil _ _)

end Runs

end Promtact.Backup
