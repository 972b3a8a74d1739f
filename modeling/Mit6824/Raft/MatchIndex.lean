import Mit6824.Raft.StateMachine

/-!
# Match indices

What a leader takes a follower to have, it has: its log reaches the match index and
has the leader's entry there. The code goes wrong when a snapshot transfer is given
up, because the reply that never came looks like a success.
-/

namespace Mit6824

open Consensus

variable {n : Nat} {α σ : Type}

namespace Cluster

variable [DecidableEq α] [DecidableEq σ] {c : Cluster n α σ}

end Cluster

end Mit6824
