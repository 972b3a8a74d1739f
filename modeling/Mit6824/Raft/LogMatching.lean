import Mit6824.Raft.Simulation

/-!
# Log matching

If two servers have an entry of one term at one index, they have the same entries
at every lower index that both still have. This is a property of the histories of
the protocol, and so of every run that plays it. The code leaves the protocol when
a message replaces an entry and leaves later ones behind it.
-/

namespace Mit6824

open Consensus

variable {n : Nat} {α σ : Type}

namespace Cluster

variable [DecidableEq α] [DecidableEq σ] {c : Cluster n α σ}

/-- Server `0` of three leads term `1` and replicates two commands to server `1`. -/
def twoCommands : List (Action 3 Nat Unit) :=
  firstElection Nat Unit ++
    [.internal 0 .roundOver, .internal 0 (.startCheck 7), .internal 0 (.startAppend 0),
      .internal 0 (.startCheck 8), .internal 0 (.startAppend 0), .internal 0 .heartbeat,
      .internal 0 .distribute, .deliver 5]

end Cluster

end Mit6824
