import Mit6824.Raft.AppendRule

/-!
# Log repair

The retry loop of one goroutine of `LeaderProcess`, run against the handler of its follower with
no message lost and nothing else going on. Three hints of a rejection may take the search back, and
all of them lead to an earlier slot of the leader's log; slot `0` is always accepted. From the first
success on every message starts at the new match index, up to which the logs agree.
-/

namespace Mit6824

variable {n : Nat} {α σ : Type}

/-- How far the loop got: it returned, with the two peers as they are then, it used up its fuel, or
one of the peers panicked. -/
inductive Retry (α σ : Type) where
  | returned (leader follower : Raft α σ)
  | running
  | panicked

namespace Raft

/-- The loop of the goroutine; `fuel` bounds the round trips. -/
def retryLoop : Nat → Raft α σ → Raft α σ → Sender n α σ → Retry α σ
  | 0, _, _, _ => .running
  | fuel + 1, leader, follower, sender =>
      if leader.leaderNum ≠ leader.me then .returned (leader.notify 2) follower
      else
        match follower.appendEntry sender.appEn with
        | none => .panicked
        | some (follower, reply) =>
            match leader.onReply sender reply with
            | none => .panicked
            | some (leader, .done) => .returned leader follower
            | some (leader, .retry appEn appEnTerm) =>
                retryLoop fuel leader follower
                  { sender with appEn := appEn, appEnTerm := appEnTerm }
            | some (leader, .snapshot) =>
                match follower.installSnapShot leader.snapShotArgs with
                | none => .panicked
                | some (follower, answer) =>
                    let leader := leader.snapShotReply sender.ind leader.snapShotArgs answer
                    match leader.afterSnapShot sender with
                    | some (.retry appEn appEnTerm) =>
                        retryLoop fuel leader follower
                          { sender with appEn := appEn, appEnTerm := appEnTerm }
                    | some _ => .returned leader follower
                    | none => .panicked

/-- What `LeaderProcess` does for a follower that is not behind its snapshot: the first message and
the loop of the goroutine. -/
def serve (fuel : Nat) (leader follower : Raft α σ) (cache : TermCache) (ind : Fin n) :
    Retry α σ :=
  match leader.newEntry ind with
  | none => .panicked
  | some appEn =>
      match leader.fillEntry ind (leader.getLastLogIndex + 1) appEn with
      | none => .panicked
      | some none => .returned leader follower
      | some (some appEn') =>
          retryLoop fuel leader follower
            ⟨ind, appEn.prevLogIndex, appEn.term, appEn', cache, none, 0⟩

variable {leader follower : Raft α σ} {args : AppendEntryArgs α} {sender : Sender n α σ}

/-! ## Peers without a snapshot -/

section

variable {rf : Raft α σ} {p : Nat}

end

/-- What the search in the list of terms relies on: there is an element, and every element leads
to a slot. -/
def Searchable (termList : List TermIndex) : Prop :=
  termList ≠ [] ∧ ∀ index ∈ termList, 0 ≤ index.lastIndexOfTerm

/-- The message starts behind slot `p` of the leader's log. -/
structure Carries (leader : Raft α σ) (args : AppendEntryArgs α) (p : Nat) : Prop where
  term : args.term = leader.currentTerm
  prev : args.prevLogIndex = p
  prevTerm : leader.log[p]?.map CommandTerm.term = some args.prevLogTerm
  nonempty : args.entries ≠ []
  entries : args.entries <+: leader.log.drop (p + 1)

theorem Carries.within {p : Nat} (carries : leader.Carries args p) :
    p + args.entries.length < leader.log.length := by
  have longer := carries.entries.length_le
  have positive := List.length_pos_of_ne_nil carries.nonempty
  rw [List.length_drop] at longer
  omega

variable {leader' follower' : Raft α σ} {reply : AppendEntryReply}

/-- The goroutine is about to send a message that starts behind slot `p`. -/
structure Serving (leader follower : Raft α σ) (sender : Sender n α σ) (p : Nat) : Prop where
  leads : leader.leaderNum = leader.me
  seat : leader.me.toNat < leader.nextIndex.length
  base : leader.lastIndexInSnapshot = 0
  base' : follower.lastIndexInSnapshot = 0
  slots : follower.log ≠ []
  commands : HasCommands leader.log.tail
  searchable : Searchable sender.cache.termList
  carries : leader.Carries sender.appEn p
  next : leader.nextIndex[sender.ind.val]? = some ((p : Int) + 1)
  goal : sender.prevLogIndex + 1 < leader.log.length
  term : sender.appEnTerm = leader.currentTerm
  follows : follower.currentTerm ≤ leader.currentTerm
  nonneg : 0 ≤ follower.commitIndex

/-- The slot where the logs agree is still to be found. -/
structure Searching (leader follower : Raft α σ) (sender : Sender n α σ) (p : Nat) : Prop
    extends Serving leader follower sender p where
  matched : leader.matchIndex[sender.ind.val]? = some 0
  sentinel : follower.log[0]?.map CommandTerm.term = leader.log[0]?.map CommandTerm.term
  matching : Matching follower.log leader.log
  committed : follower.commitIndex < leader.log.length ∧
    follower.log.take (follower.commitIndex.toNat + 1) =
      leader.log.take (follower.commitIndex.toNat + 1)

/-- Slot `0` is never rejected. -/
theorem Searching.positive {p : Nat} (searching : Searching leader follower sender p)
    (missing : follower.log[p]?.map CommandTerm.term ≠ some sender.appEn.prevLogTerm) : 0 < p := by
  refine Nat.pos_of_ne_zero fun zero => missing ?_
  subst zero
  rw [searching.sentinel, searching.carries.prevTerm]

end Raft

end Mit6824
