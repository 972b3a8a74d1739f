import Mit6824.Raft.Agreement
import Mit6824.Raft.Restart

/-!
# State machine safety

No two servers deliver different commands for one index. Every command that was
delivered is an entry of a decided log, and decided logs never contradict each
other. The code leaves the protocol when two servers act as leaders of one term.
-/

namespace Mit6824

open Consensus

variable {n : Nat} {α σ : Type}

/-- Two messages that deliver decided entries of one index deliver the same command. -/
theorem ApplyMsg.Settled.command_eq {h : ClusterHistory n α} (inv : ProtocolInv n h)
    {message message' : ApplyMsg α σ} (settled : message.Settled h)
    (settled' : message'.Settled h) (valid : message.commandValid = true)
    (valid' : message'.commandValid = true)
    (sameIndex : message.commandIndex = message'.commandIndex) :
    message.command = message'.command := by
  obtain ⟨t, l, k, e, decided, found, command, index⟩ := settled valid
  obtain ⟨t', l', k', e', decided', found', command', index'⟩ := settled' valid'
  obtain rfl : k = k' := by omega
  rw [command, command']
  rcases decided.compare Majority.meet inv decided' with within | within
  · rw [getElem?_of_isPrefix within found] at found'
    rw [Option.some.inj found']
  · rw [getElem?_of_isPrefix within found'] at found
    rw [Option.some.inj found]

namespace Cluster

variable [DecidableEq α] [DecidableEq σ] {c : Cluster n α σ}

/-- Server `0` commits its first command with server `1`, which hears of it with the next
heartbeat. -/
def firstCommit : List (Action 3 Nat Unit) :=
  firstCommand ++
    [.internal 0 .heartbeat, .internal 0 .distribute, .internal 0 .distribute,
      .internal 0 .distribute, .deliver 5, .entryReply 7 0, .internal 0 .heartbeat,
      .internal 0 .distribute, .deliver 8]

end Cluster

end Mit6824
