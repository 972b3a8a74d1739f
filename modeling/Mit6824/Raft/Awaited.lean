import Mit6824.Raft.Delivery

/-!
# A command that a service waits for

A service takes the messages of the apply channel one after the other and keeps the largest index
it has seen. A handler that started a command waits until this number reaches the index that
`Start` gave it. `Awaits` says why the number is still below the index, and `Feeds` what holds
between the peer and the service at any time.
-/

namespace Mit6824

variable {n : Nat} {α σ : Type}

namespace Raft

/-- The messages from position `p` on are commands. -/
def CommandsFrom (rf : Raft α σ) (p : Nat) : Prop :=
  ∀ q message, p ≤ q → rf.applyCh[q]? = some message → message.commandValid = true

/-- The commands that were delivered and not yet taken are below the index `bound`. -/
def QueuedBelow (rf : Raft α σ) (taken stop : Nat) (bound : Int) : Prop :=
  ∀ q message, taken ≤ q → q < stop → rf.applyCh[q]? = some message →
    message.commandValid = true → message.commandIndex < bound

/-- The command stands in the log at the index, above what is committed; or it is on its way to
the service, with nothing before it that would make the number `reached` reach the index. -/
inductive Awaits (rf : Raft α σ) (taken : Nat) (reached : Int) (command : α) (index : Int) :
    Prop where
  | pending {term : Int} (above : rf.commitIndex < index)
      (entry : rf.entryAt index = some ⟨some command, term⟩)
  | queued {p : Nat} (found : rf.applyCh[p]? = some ⟨true, some command, index, none⟩)
      (ahead : taken ≤ p) (below : reached < index) (before : QueuedBelow rf taken p index)
      (after : CommandsFrom rf p)

variable {rf rf' : Raft α σ} {taken : Nat} {reached : Int} {command : α} {index : Int}

/-- What commands have and the messages from position `p` on have, they keep to have. -/
theorem forall_from_advance {P : ApplyMsg α σ → Prop} {l : List (CommandTerm α)} {a count p : Nat}
    (old : ∀ q message, p ≤ q → rf.applyCh[q]? = some message → P message)
    (new : ∀ message : ApplyMsg α σ, message.commandValid = true → P message)
    (channel : rf'.applyCh = rf.applyCh ++ deliveries σ l a count) :
    ∀ q message, p ≤ q → rf'.applyCh[q]? = some message → P message := by
  intro q message from' found
  rw [channel] at found
  rcases lt_or_ge q rf.applyCh.length with inside | behind
  · rw [List.getElem?_append_left inside] at found
    exact old q message from' found
  · rw [List.getElem?_append_right behind] at found
    obtain ⟨_, _, _, _, _, rfl⟩ := mem_deliveries (List.mem_of_getElem? found)
    exact new _ rfl

theorem CommandsFrom.advance {l : List (CommandTerm α)} {a count p : Nat}
    (commands : CommandsFrom rf p)
    (channel : rf'.applyCh = rf.applyCh ++ deliveries σ l a count) : CommandsFrom rf' p :=
  forall_from_advance commands (fun _ valid => valid) channel

/-- What was delivered is not moved by further deliveries. -/
theorem QueuedBelow.advance {messages : List (ApplyMsg α σ)} {stop : Nat} {bound : Int}
    (queue : QueuedBelow rf taken stop bound) (channel : rf'.applyCh = rf.applyCh ++ messages)
    (inside : stop ≤ rf.applyCh.length) : QueuedBelow rf' taken stop bound := by
  intro q message ahead before found
  rw [channel, List.getElem?_append_left (before.trans_le inside)] at found
  exact queue q message ahead before found

/-- The commands a step delivers come one after the other above the commit index. -/
theorem QueuedBelow.deliver {l l' : List (CommandTerm α)} {k' m : Nat}
    (queue : QueuedBelow rf taken rf.applyCh.length (rf.commitIndex + 1)) (stands : rf.Stands l)
    (advances : rf.Advances rf' l l' k') (lower : rf.commitIndex ≤ m) (upper : m ≤ k') :
    QueuedBelow rf' taken (rf.applyCh.length + (m - rf.commitIndex.toNat)) (m + 1) := by
  intro q message ahead before found valid
  have nonneg := stands.commit_nonneg
  rcases lt_or_ge q rf.applyCh.length with old | new
  · have low := queue.advance advances.channel le_rfl q message ahead old found valid
    omega
  · rw [advances.channel, List.getElem?_append_right new,
      getElem?_deliveries _ _ _ _ (by omega)] at found
    obtain ⟨_, _, rfl⟩ := Option.map_eq_some_iff.1 found
    dsimp only
    omega

/-- A step of the peer that delivers commands of its log and keeps the entry. -/
theorem Awaits.advance {l l' : List (CommandTerm α)} {k' : Nat}
    (awaits : rf.Awaits taken reached command index) (stands : rf.Stands l)
    (advances : rf.Advances rf' l l' k') (started : taken ≤ rf.applyCh.length)
    (applied : reached ≤ rf.commitIndex)
    (queue : QueuedBelow rf taken rf.applyCh.length (rf.commitIndex + 1))
    (keeps : rf.commitIndex < index → index ≤ l.length →
      l'.take index.toNat = l.take index.toNat) :
    rf'.Awaits taken reached command index := by
  have nonneg := stands.commit_nonneg
  have base := stands.base
  have lower := advances.lower
  cases awaits with
  | pending above entry =>
      obtain ⟨m, rfl⟩ : ∃ m : Nat, index = m + 1 := ⟨(index - 1).toNat, by omega⟩
      have inLog : ∀ {rf : Raft α σ} {l : List (CommandTerm α)}, rf.Stands l →
          rf.commitIndex < m + 1 → rf.entryAt (m + 1) = l[m]? := fun stands above =>
        stands.holds.entryAt (k := m + 1) (by have := stands.base; push_cast; omega)
      have found := entry
      rw [inLog stands above] at found
      have bound : m < l.length := (List.getElem?_eq_some_iff.1 found).1
      rcases le_or_gt ((m : Int) + 1) k' with passed | beyond
      · -- The commit index passes the entry, and its command is delivered.
        have position : (deliveries σ l rf.commitIndex.toNat
            (k' - rf.commitIndex.toNat))[m - rf.commitIndex.toNat]? =
              some ⟨true, some command, m + 1, none⟩ := by
          have offset : rf.commitIndex.toNat + (m - rf.commitIndex.toNat) = m := by omega
          rw [getElem?_deliveries _ _ _ _ (by omega), offset, found]
          rfl
        refine .queued (p := rf.applyCh.length + (m - rf.commitIndex.toNat)) ?_ (by omega)
          (by omega) ?_ ?_
        · rw [advances.channel, List.getElem?_append_right (Nat.le_add_right _ _),
            Nat.add_sub_cancel_left]
          exact position
        · exact queue.deliver stands advances (by omega) (by omega)
        · refine CommandsFrom.advance (fun q message after old => ?_) advances.channel
          have inside := (List.getElem?_eq_some_iff.1 old).1
          omega
      · have above' : rf'.commitIndex < m + 1 := by
          rw [advances.commit]
          exact beyond
        have same := keeps above (by omega)
        have fits : ((m : Int) + 1).toNat = m + 1 := by omega
        rw [fits] at same
        refine .pending above' ((inLog advances.stands above').trans (Eq.trans ?_ found))
        calc l'[m]? = (l'.take (m + 1))[m]? := (List.getElem?_take_of_lt (Nat.lt_succ_self m)).symm
          _ = l[m]? := by rw [same, List.getElem?_take_of_lt (Nat.lt_succ_self m)]
  | queued found ahead below before after =>
      have inside := (List.getElem?_eq_some_iff.1 found).1
      rw [← List.getElem?_append_left inside, ← advances.channel] at found
      exact .queued found ahead below (before.advance advances.channel inside.le)
        (after.advance advances.channel)

/-- The service takes a message: it is the command that is waited for, or this is still to come. -/
theorem Awaits.take (awaits : rf.Awaits taken reached command index) {message : ApplyMsg α σ}
    (next : rf.applyCh[taken]? = some message) :
    (message = ⟨true, some command, index, none⟩ ∧ rf.CommandsFrom (taken + 1)) ∨
      ∀ reached', (reached' = reached ∨
          message.commandValid = true ∧ reached' = max reached message.commandIndex) →
        rf.Awaits (taken + 1) reached' command index := by
  cases awaits with
  | pending above entry => exact .inr fun _ _ => .pending above entry
  | queued found ahead below before after =>
      rcases ahead.eq_or_lt with here | later
      · subst here
        obtain rfl := Option.some.inj (found.symm.trans next)
        exact .inl ⟨rfl, fun q message from' => after q message (by omega)⟩
      · refine .inr fun reached' moved => .queued found later ?_ ?_ after
        · rcases moved with rfl | ⟨valid, rfl⟩
          · exact below
          · exact max_lt below (before taken message le_rfl later next valid)
        · exact fun q message ahead' => before q message (by omega)

/-- As long as the command is waited for, the number is below its index. -/
theorem Awaits.lt (awaits : rf.Awaits taken reached command index)
    (applied : reached ≤ rf.commitIndex) : reached < index := by
  cases awaits with
  | pending above _ => exact applied.trans_lt above
  | queued _ _ below _ _ => exact below

end Raft

namespace Server

variable {i : Fin n} {server server' : Server n α σ} {taken : Nat} {reached : Int}

/-- Between the steps of a service: the commands on their way are committed, and so is what was
taken. -/
structure Feeds (i : Fin n) (server : Server n α σ) (taken : Nat) (reached : Int) : Prop where
  placed : server.Placed i
  stands : ∃ l, server.rf.Stands l
  delivered : taken ≤ server.rf.applyCh.length
  applied : reached ≤ server.rf.commitIndex
  queue : server.rf.QueuedBelow taken server.rf.applyCh.length (server.rf.commitIndex + 1)

namespace Feeds

theorem boot (i : Fin n) {persister : Persister α σ} {applyCh : List (ApplyMsg α σ)}
    {l : List (CommandTerm α)} (stands : (Raft.make n i persister applyCh).Stands l) :
    Feeds i (Server.boot i persister applyCh) applyCh.length 0 := by
  obtain ⟨_, _, _, _, messages, _, frame, silent⟩ := Raft.make_frame n (i : Nat) persister applyCh
  have channel : (Server.boot i persister applyCh).rf.applyCh = applyCh ++ messages := by
    rw [Server.boot, frame]
  refine ⟨Server.placed_boot i persister applyCh, ⟨l, stands⟩, ?_, stands.commit_nonneg, ?_⟩
  · rw [channel, List.length_append]
    exact Nat.le_add_right _ _
  · -- What is on the channel of a new life is the state of a snapshot.
    intro q message ahead _ found valid
    rw [channel, List.getElem?_append_right ahead] at found
    rw [silent message (List.mem_of_getElem? found)] at valid
    cases valid

/-- The peer moves. -/
theorem advance (feeds : server.Feeds i taken reached) (placed : server'.Placed i)
    {l l' : List (CommandTerm α)} {k' : Nat} (stands : server.rf.Stands l)
    (advances : server.rf.Advances server'.rf l l' k') : server'.Feeds i taken reached where
  placed := placed
  stands := ⟨l', advances.stands⟩
  delivered := by
    rw [advances.channel, List.length_append]
    exact feeds.delivered.trans (Nat.le_add_right _ _)
  applied := by
    rw [advances.commit]
    exact feeds.applied.trans advances.lower
  queue := by
    intro q message ahead before
    rw [advances.channel, List.length_append] at before
    rw [advances.commit]
    have short : (deliveries σ l server.rf.commitIndex.toNat
        (k' - server.rf.commitIndex.toNat)).length ≤ _ := length_deliveries _ _ _
    exact feeds.queue.deliver stands advances advances.lower le_rfl q message ahead (by omega)

/-- A step that is no crash and installs no snapshot. An `AppendEntry` keeps the entries up to its
`PrevLogIndex`. -/
theorem step (feeds : server.Feeds i taken reached) {input : Input n α σ} {output : Output n α σ}
    (stepped : server.step i input = some (server', output)) (up : input ≠ .restart)
    (keeps : ∀ args, input = .request (.installSnapShot args) → server.rf.installs args = false) :
    server'.Feeds i taken reached ∧
      (∃ l a count, server'.rf.applyCh = server.rf.applyCh ++ deliveries σ l a count) ∧
      ∀ command index,
        (server.rf.commitIndex < index → ∀ args, input = .request (.appendEntry args) →
          server.rf.accepts args = true → args.entries ≠ [] → index ≤ args.prevLogIndex) →
        server.rf.Awaits taken reached command index →
          server'.rf.Awaits taken reached command index := by
  have moves := Server.step_moves stepped
  obtain ⟨l, stands⟩ := feeds.stands
  obtain ⟨l', k', advances, same⟩ := moves.log.serves stands up keeps
  refine ⟨feeds.advance (feeds.placed.step moves).1 stands advances, ⟨_, _, _, advances.channel⟩,
    fun command index kept awaits => ?_⟩
  refine awaits.advance stands advances feeds.delivered feeds.applied feeds.queue ?_
  intro above bound
  have nonneg := stands.commit_nonneg
  refine same index.toNat (by omega) fun args request accepts entries => ?_
  have far := kept above args request accepts entries
  omega

/-- `Start` appends the command above everything that is committed. -/
theorem startAppend (feeds : server.Feeds i taken reached) {command : α} {curTerm index : Int}
    {rf' : Raft α σ} (appended : server.rf.startAppend command curTerm = some (rf', index)) :
    { server with rf := rf' }.Feeds i taken reached ∧
      (∃ l a count, rf'.applyCh = server.rf.applyCh ++ deliveries σ l a count) ∧
      rf'.Awaits taken reached command index ∧ ∀ command' index',
        server.rf.Awaits taken reached command' index' →
          rf'.Awaits taken reached command' index' := by
  obtain ⟨l, stands⟩ := feeds.stands
  have stands' := stands.startAppend appended
  obtain ⟨position, frame⟩ := Raft.startAppend_frame appended
  have commit : rf'.commitIndex = server.rf.commitIndex := by
    rw [frame]
    rfl
  have advances : server.rf.Advances rf' l _ _ := stands.idle stands' commit (by rw [frame]; rfl)
  refine ⟨feeds.advance ?_ stands advances, ⟨_, _, _, advances.channel⟩, ?_,
    fun command' index' awaits => ?_⟩
  · rw [frame]
    exact feeds.placed.keep rfl rfl feeds.placed.phase
  · have last := stands.holds.getLastLogIndex
    have bound := stands.commit
    have base := stands'.base
    obtain rfl : index = (l.length + 1 : Nat) := by omega
    have entry : rf'.entryAt (l.length + 1 : Nat) = some ⟨some command, curTerm⟩ := by
      rw [stands'.holds.entryAt (by omega), Nat.add_sub_cancel,
        List.getElem?_append_right le_rfl, Nat.sub_self]
      rfl
    exact .pending (by rw [commit]; omega) entry
  · exact awaits.advance stands advances feeds.delivered feeds.applied feeds.queue
      fun _ bound => List.take_append_of_le_length (by omega)

/-- The service takes a message. -/
theorem take (feeds : server.Feeds i taken reached) {message : ApplyMsg α σ}
    (next : server.rf.applyCh[taken]? = some message) {reached' : Int}
    (moved : reached' = reached ∨
      message.commandValid = true ∧ reached' = max reached message.commandIndex) :
    server.Feeds i (taken + 1) reached' := by
  have inside := (List.getElem?_eq_some_iff.1 next).1
  refine ⟨feeds.placed, feeds.stands, inside, ?_, ?_⟩
  · rcases moved with rfl | ⟨valid, rfl⟩
    · exact feeds.applied
    · have low := feeds.queue taken message le_rfl inside next valid
      exact max_le feeds.applied (Int.lt_add_one_iff.1 low)
  · exact fun q message ahead => feeds.queue q message (Nat.le_of_succ_le ahead)

end Feeds

end Server

end Mit6824
