import Mit6824.Raft.SortedTerms
import Mit6824.Raft.StateMachine

/-!
# Where commands and snapshots come from

A cluster makes up nothing. Whatever is in a log, saved, on its way or delivered was handed to
`Start`, and every snapshot was handed to `TakeSnapshots`. The two predicates of `Sourced` are
arbitrary: one on commands and one on snapshots with their labels. No step needs a condition for
this, and crashes are allowed.
-/

namespace Mit6824

variable {n : Nat} {α σ : Type} {P P' : α → Prop} {Q Q' : Snapshot σ → Prop}

/-- The entry has a command with the property, or none. -/
def CommandTerm.From (P : α → Prop) (entry : CommandTerm α) : Prop :=
  ∀ command ∈ entry.command, P command

/-- The command that is delivered has the property, and so has the snapshot whose state is. -/
structure ApplyMsg.From (P : α → Prop) (Q : Snapshot σ → Prop) (message : ApplyMsg α σ) :
    Prop where
  command : ∀ command ∈ message.command, P command
  state : ∀ state ∈ message.state, ∃ blob, Q blob ∧ blob.state = state

theorem CommandTerm.from_none {entry : CommandTerm α} (empty : entry.command = none) :
    entry.From P := by
  intro command found
  rw [empty] at found
  cases found

theorem ApplyMsg.from_snapshot {blob : Snapshot σ} (holds : Q blob) :
    (⟨false, none, 0, some blob.state⟩ : ApplyMsg α σ).From P Q where
  command _ found := by cases found
  state s found := ⟨blob, holds, Option.some.inj found⟩

def Request.From (P : α → Prop) (Q : Snapshot σ → Prop) : Request α σ → Prop
  | .requestVote _ => True
  | .appendEntry args => ∀ entry ∈ args.entries, entry.From P
  | .installSnapShot args => ∀ blob ∈ args.data, Q blob

/-- What comes from outside has the property. The label of a snapshot is one below the index. -/
def Input.From (P : α → Prop) (Q : Snapshot σ → Prop) : Input n α σ → Prop
  | .request sent => sent.From P Q
  | .startCheck command => P command
  | .takeSnapshots state index => ∀ term, Q ⟨state, index - 1, term⟩
  | _ => True

namespace Raft

variable {rf rf' : Raft α σ}

/-- Every place of a peer that holds commands or snapshots. -/
structure Sourced (P : α → Prop) (Q : Snapshot σ → Prop) (rf : Raft α σ) : Prop where
  standing : rf.Standing
  log : ∀ entry ∈ rf.log, entry.From P
  saved : ∀ state ∈ rf.persister.raftstate, ∀ entry ∈ state.2, entry.From P
  snapshot : ∀ blob ∈ rf.persister.snapshot, Q blob
  channel : ∀ message ∈ rf.applyCh, message.From P Q

/-! ## Logs -/

theorem mem_log_overwrite {startInd startInd' : Int} {entries : List (CommandTerm α)}
    (written : rf.overwrite startInd entries = some (rf', startInd')) :
    ∀ entry ∈ rf'.log, entry ∈ rf.log ∨ entry ∈ entries := by
  induction entries generalizing rf startInd with
  | nil =>
      obtain ⟨rfl, _⟩ : rf = rf' ∧ _ := by simpa [overwrite] using written
      exact fun entry member => Or.inl member
  | cons first rest ih =>
      simp only [overwrite] at written
      intro entry member
      split_ifs at written
      · obtain ⟨rfl, _⟩ : rf = rf' ∧ _ := by simpa using written
        exact Or.inl member
      all_goals
        rcases ih written entry member with old | new
        · dsimp only at old
          first
          | rcases List.mem_append.1 old with old | new
            · exact Or.inl old
            · exact Or.inr (List.mem_singleton.1 new ▸ List.mem_cons_self)
          | rcases List.mem_or_eq_of_mem_set old with old | rfl
            · exact Or.inl old
            · exact Or.inr List.mem_cons_self
        · exact Or.inr (List.mem_cons_of_mem first new)

theorem mem_log_cutTail (rf : Raft α σ) (startInd : Int) :
    ∀ entry ∈ (rf.cutTail startInd).log, entry ∈ rf.log := by
  intro entry member
  unfold cutTail at member
  split at member
  · split_ifs at member
    · exact List.mem_of_mem_take member
    · exact member
  · exact member

theorem mem_log_writeEntries {args : AppendEntryArgs α}
    (written : rf.writeEntries args = some rf') :
    ∀ entry ∈ rf'.log, entry ∈ rf.log ∨ entry ∈ args.entries := by
  unfold writeEntries at written
  dsimp only at written
  split_ifs at written
  · split at written
    · cases written
    · rename_i rf₁ startInd overwritten
      obtain rfl := Option.some.inj written
      exact fun entry member =>
        mem_log_overwrite overwritten entry (mem_log_cutTail rf₁ startInd entry member)
  · obtain rfl := Option.some.inj written
    exact fun entry member => Or.inl member

/-- The log of a follower has nothing but what it had and what the message brings. -/
theorem mem_log_appendEntry {args : AppendEntryArgs α} {reply : AppendEntryReply}
    (handled : rf.appendEntry args = some (rf', reply)) :
    ∀ entry ∈ rf'.log, entry ∈ rf.log ∨ entry ∈ args.entries := by
  rcases appendEntry_cases handled with ⟨_, rfl, _⟩ | ⟨fresh, checked⟩
  · exact fun entry member => Or.inl member
  obtain ⟨_, _, _, observed, _⟩ := observe_frame rf args fresh
  rw [observed] at checked
  rcases checkAndAppend_cases checked with
    ⟨rfl, _⟩ | ⟨rfl, _⟩ | ⟨_, _, _, _, _, rf₁, followed, ⟨_, rfl⟩ | ⟨_, written⟩⟩
  · exact fun entry member => Or.inl member
  · exact fun entry member => Or.inl member
  · obtain ⟨_, _, rfl⟩ := followCommit_frame followed
    exact fun entry member => Or.inl member
  · obtain ⟨_, _, rfl⟩ := followCommit_frame followed
    have members := mem_log_writeEntries written
    exact members

theorem mem_log_truncate {endIndex preIndex lastTerm : Int} {log : List (CommandTerm α)}
    (truncated : rf.truncate endIndex preIndex lastTerm = some log) :
    ∀ entry ∈ log, entry ∈ rf.log ∨ entry.command = none := by
  unfold truncate at truncated
  split_ifs at truncated
  intro entry member
  split at truncated
  · obtain rfl := Option.some.inj truncated
    rw [List.mem_singleton.1 member]
    exact Or.inr rfl
  · obtain rfl := Option.some.inj truncated
    exact Or.inl (List.mem_of_mem_drop member)

/-- What is delivered from above the snapshot is in a slot. -/
theorem Window.exists_slot_of_delivered {l : List (CommandTerm α)} (window : rf.Window l)
    {a count : Nat} (above : rf.lastIndexInSnapshot ≤ a) {message : ApplyMsg α σ}
    (delivered : message ∈ deliveries σ l a count) :
    ∃ entry ∈ rf.log, message.command = entry.command ∧ message.state = none := by
  obtain ⟨k, entry, lower, _, found, rfl⟩ := mem_deliveries delivered
  obtain ⟨sentinel, slots, _⟩ := window.holds.slots
  have nonneg := window.holds.nonneg
  refine ⟨entry, ?_, rfl, rfl⟩
  rw [slots]
  refine List.mem_cons_of_mem _ (List.mem_iff_getElem?.2 ⟨k - rf.lastIndexInSnapshot.toNat, ?_⟩)
  rw [List.getElem?_drop, Nat.add_sub_cancel' (by omega), found]

namespace Sourced

theorem mono (sourced : rf.Sourced P Q) (commands : ∀ command, P command → P' command)
    (snapshots : ∀ blob, Q blob → Q' blob) : rf.Sourced P' Q' where
  standing := sourced.standing
  log entry member command found := commands command (sourced.log entry member command found)
  saved state found entry member command there :=
    commands command (sourced.saved state found entry member command there)
  snapshot blob found := snapshots blob (sourced.snapshot blob found)
  channel message member := by
    obtain ⟨command, state⟩ := sourced.channel message member
    refine ⟨fun op found => commands op (command op found), fun s found => ?_⟩
    obtain ⟨blob, holds, equal⟩ := state s found
    exact ⟨blob, snapshots blob holds, equal⟩

/-- A peer that has nothing but what it had and what has the property. -/
theorem extend (sourced : rf.Sourced P Q) (standing : rf'.Standing)
    (log : ∀ entry ∈ rf'.log, entry ∈ rf.log ∨ entry.From P)
    (saved : rf'.persister.raftstate = rf.persister.raftstate ∨
      ∃ term, rf'.persister.raftstate = some (term, rf'.log))
    (snapshot : ∀ blob ∈ rf'.persister.snapshot, blob ∈ rf.persister.snapshot ∨ Q blob)
    (channel : ∀ message ∈ rf'.applyCh, message ∈ rf.applyCh ∨ message.From P Q) :
    rf'.Sourced P Q := by
  have kept : ∀ entry ∈ rf'.log, entry.From P := fun entry member =>
    (log entry member).elim (sourced.log entry) id
  refine ⟨standing, kept, fun state found => ?_, fun blob found => ?_, fun message member => ?_⟩
  · rcases saved with same | ⟨term, written⟩
    · exact sourced.saved state (same ▸ found)
    · rw [written, Option.mem_some] at found
      subst found
      exact kept
  · exact (snapshot blob found).elim (sourced.snapshot blob) id
  · exact (channel message member).elim (sourced.channel message) id

end Sourced

/-- What is cut from the log has what the log has. -/
theorem Quotes.from {args : AppendEntryArgs α} (quotes : rf.Quotes args)
    (log : ∀ entry ∈ rf.log, entry.From P) : ∀ entry ∈ args.entries, entry.From P := by
  obtain ⟨_, _, _, _, _, _, part⟩ := quotes
  exact fun entry member => log entry (List.mem_of_mem_drop (part.subset member))

end Raft

theorem Persister.from_startLog {persister : Persister α σ}
    (saved : ∀ state ∈ persister.raftstate, ∀ entry ∈ state.2, entry.From P) :
    ∀ entry ∈ persister.startLog, entry.From P := by
  intro entry member
  cases found : persister.raftstate with
  | some state =>
      by_cases empty : state.2 = []
      · obtain rfl : entry = ⟨none, 0⟩ := by simpa [startLog, found, empty] using member
        exact CommandTerm.from_none rfl
      · have old : entry ∈ state.2 := by simpa [startLog, found, empty] using member
        exact saved state found entry old
  | none =>
      cases read : persister.readable with
      | none =>
          obtain rfl : entry = ⟨none, 0⟩ := by simpa [startLog, found, read] using member
          exact CommandTerm.from_none rfl
      | some blob =>
          obtain rfl : entry = ⟨none, blob.lastTerm⟩ := by
            simpa [startLog, found, read] using member
          exact CommandTerm.from_none rfl

/-- A peer that is made again has what its `Persister` has. -/
theorem Raft.sourced_make (peers : Nat) (me : Int) {persister : Persister α σ}
    {applyCh : List (ApplyMsg α σ)} (sound : persister.Sound)
    (saved : ∀ state ∈ persister.raftstate, ∀ entry ∈ state.2, entry.From P)
    (snapshot : ∀ blob ∈ persister.snapshot, Q blob)
    (channel : ∀ message ∈ applyCh, message.From P Q) :
    (make peers me persister applyCh).Sourced P Q := by
  refine ⟨.make peers me applyCh sound, ?_, ?_, ?_, ?_⟩
  all_goals rw [make_eq]
  · exact Persister.from_startLog saved
  · exact saved
  · exact snapshot
  · intro message member
    rcases List.mem_append.1 member with old | new
    · exact channel message old
    · obtain ⟨blob, read, rfl⟩ := Option.map_eq_some_iff.1 (Option.mem_toList.1 new)
      exact ApplyMsg.from_snapshot (snapshot blob (Persister.snapshot_of_readable read))

/-! ## Servers -/

namespace Server

variable {i : Fin n} {server server' : Server n α σ} {input : Input n α σ}
  {output : Output n α σ} {rf' : Raft α σ}

/-- The peer has the property, and so have the commands of the calls of `Start`. -/
structure Sourced (P : α → Prop) (Q : Snapshot σ → Prop) (server : Server n α σ) : Prop where
  peer : server.rf.Sourced P Q
  starts : ∀ start ∈ server.starts, P start.1

theorem LogMoves.sourced (moves : LogMoves i server input rf') (sourced : server.rf.Sourced P Q)
    (brings : input.From P Q) (other : ∀ k, input ≠ .startAppend k) : rf'.Sourced P Q := by
  have standing := moves.standing sourced.standing
  obtain ⟨l, window⟩ := sourced.standing.window
  have nonneg := window.commit_nonneg
  have base := window.base
  have delivered : ∀ {count : Nat}, ∀ message ∈ deliveries σ l server.rf.commitIndex.toNat count,
      message.From P Q := by
    intro count message member
    obtain ⟨entry, slot, command, state⟩ := window.exists_slot_of_delivered (by omega) member
    refine ⟨fun op found => sourced.log entry slot op (command ▸ found), fun s found => ?_⟩
    rw [state] at found
    cases found
  cases moves with
  | same same =>
      refine sourced.extend standing (fun entry member => Or.inl (same.log ▸ member))
        (same.log ▸ same.raftstate) (fun blob found => Or.inl (same.snapshot ▸ found))
        fun message member => Or.inl (same.channel ▸ member)
  | appendEntry handled =>
      refine sourced.extend standing ?_ (Raft.appendEntry_raftstate handled) ?_ ?_
      · intro entry member
        exact (Raft.mem_log_appendEntry handled entry member).imp_right (brings entry)
      · intro blob found
        rcases window.appendEntry handled with ⟨_, rfl, _⟩ | ⟨_, _, _, _, snapshot, _⟩
        · exact Or.inl found
        · exact Or.inl (snapshot ▸ found)
      · intro message member
        rcases window.appendEntry handled with
          ⟨_, rfl, _⟩ | ⟨_, _, _, _, _,
            ⟨_, channel, _⟩ | ⟨_, _, _, _, _, _, _, _, _, _, channel, _⟩⟩
        · exact Or.inl member
        · exact Or.inl (channel ▸ member)
        · rw [channel] at member
          exact (List.mem_append.1 member).imp_right (delivered message)
  | @installSnapShot args blob _ data _ =>
      have installed : Q blob := brings blob data
      refine sourced.extend standing ?_ (Or.inl rfl) ?_ ?_
      · intro entry member
        rw [List.mem_singleton.1 member]
        exact Or.inr (CommandTerm.from_none rfl)
      · intro other found
        obtain rfl := Option.some.inj found
        exact Or.inr installed
      · intro message member
        refine (List.mem_append.1 member).imp_right fun new => ?_
        rw [List.mem_singleton.1 new]
        exact ApplyMsg.from_snapshot installed
  | entryReply handled =>
      obtain ⟨_, k', _, _, _, _, _, _, rfl⟩ :=
        window.onReply (Int.toNat_of_nonneg nonneg).symm handled
      exact sourced.extend standing (fun entry member => Or.inl member) (Or.inl rfl)
        (fun blob found => Or.inl found)
        fun message member => (List.mem_append.1 member).imp_right (delivered message)
  | startAppend appended => exact absurd rfl (other _)
  | takeSnapshots _ taken =>
      rcases Raft.takeSnapshots_cases taken with rfl | ⟨_, _, _, _, _, truncated, rfl⟩
      · exact sourced
      · refine sourced.extend standing ?_ (Or.inr ⟨_, rfl⟩) ?_ fun message member => Or.inl member
        · intro entry member
          exact (Raft.mem_log_truncate truncated entry member).imp_right CommandTerm.from_none
        · intro blob found
          obtain rfl := Option.some.inj found
          exact Or.inr (brings _)
  | restart =>
      exact Raft.sourced_make n i sourced.standing.sound sourced.saved sourced.snapshot
        sourced.channel

/-- Only the first half of `Start` adds a call. -/
theorem Moves.mem_starts (moves : Moves i server input server' output) :
    ∀ start ∈ server'.starts, start ∈ server.starts ∨ input = .startCheck start.1 := by
  intro start member
  cases moves with
  | startCheck _ =>
      rcases List.mem_append.1 member with old | new
      · exact Or.inl old
      · rw [List.mem_singleton.1 new]
        exact Or.inr rfl
  | startAppend _ _ => exact Or.inl (List.mem_of_mem_eraseIdx member)
  | restart => simp [boot] at member
  | distribute _ _ spawned | snapShotReply _ spawned =>
      rcases spawn_cases spawned with ⟨_, rfl, _⟩ | ⟨_, _, _, rfl, _⟩
      all_goals exact Or.inl member
  | entryReply _ _ _ proceeds | retrySnapShotReply _ _ _ proceeds =>
      rcases proceed_cases proceeds with ⟨_, rfl, _⟩ | ⟨_, _, _, _, rfl, _⟩ | ⟨_, rfl, _⟩
      all_goals exact Or.inl member
  | _ => exact Or.inl member

theorem Moves.sourced (moves : Moves i server input server' output)
    (sourced : server.Sourced P Q) (brings : input.From P Q) : server'.Sourced P Q := by
  refine ⟨?_, fun start member => ?_⟩
  · by_cases appends : ∃ k, input = .startAppend k
    · obtain ⟨k, rfl⟩ := appends
      have standing := moves.log.standing sourced.peer.standing
      cases moves with
      | startAppend found appended =>
          have started := sourced.starts _ (List.mem_of_getElem? found)
          obtain ⟨_, rfl⟩ := Raft.startAppend_frame appended
          refine sourced.peer.extend standing ?_ (Or.inr ⟨_, rfl⟩) (fun blob => Or.inl)
            fun message => Or.inl
          intro entry member
          refine (List.mem_append.1 member).imp_right fun new => ?_
          rw [List.mem_singleton.1 new]
          intro command there
          obtain rfl := Option.some.inj there
          exact started
    · exact moves.log.sourced sourced.peer brings fun k equal => appends ⟨k, equal⟩
  · rcases moves.mem_starts start member with old | rfl
    · exact sourced.starts start old
    · exact brings

theorem spawn_from {cache : TermCache} {logLen : Int} {ind dst : Fin n}
    {appEn : AppendEntryArgs α} {request : Request α σ}
    (spawned : server.spawn cache logLen ind appEn = some (server', output))
    (log : ∀ entry ∈ server.rf.log, entry.From P) (sent : (dst, request) ∈ output.sends) :
    request.From P Q := by
  rcases spawn_cases spawned with ⟨_, _, rfl⟩ | ⟨appEn', filled, _, _, rfl⟩
  · simp at sent
  · obtain ⟨_, rfl⟩ : dst = ind ∧ request = .appendEntry appEn' := by simpa using sent
    obtain ⟨cuts, _, _, above, _⟩ := Raft.fillEntry_cuts filled
    exact (cuts.quotes above).from log

theorem proceed_from {k : Nat} {sender : Sender n α σ} {next : Next α} {dst : Fin n}
    {request : Request α σ} (proceeds : server.proceed k sender next = (server', output))
    (message : ∀ {appEn appEnTerm}, next = .retry appEn appEnTerm → server.rf.Quotes appEn)
    (log : ∀ entry ∈ server.rf.log, entry.From P)
    (snapshot : ∀ blob ∈ server.rf.persister.snapshot, Q blob)
    (sent : (dst, request) ∈ output.sends) : request.From P Q := by
  rcases proceed_cases proceeds with
    ⟨_, _, rfl⟩ | ⟨appEn, _, retry, _, _, rfl⟩ | ⟨_, _, rfl⟩
  · simp at sent
  · obtain ⟨_, rfl⟩ : dst = sender.ind ∧ request = .appendEntry appEn := by simpa using sent
    exact (message retry).from log
  · obtain ⟨_, rfl⟩ : dst = sender.ind ∧ request = .installSnapShot server.rf.snapShotArgs := by
      simpa using sent
    exact snapshot

/-- What a step sends has the property. -/
theorem Moves.sends_from (moves : Moves i server input server' output)
    (sourced : server.rf.Sourced P Q) {dst : Fin n} {request : Request α σ}
    (sent : (dst, request) ∈ output.sends) : request.From P Q := by
  cases moves with
  | startRound _ _ =>
      obtain ⟨_, _, equal⟩ := List.mem_map.1 sent
      obtain ⟨_, rfl⟩ := Prod.mk.inj equal
      exact trivial
  | snapshot _ _ _ =>
      obtain ⟨_, rfl⟩ : _ ∧ request = .installSnapShot server.rf.snapShotArgs := by
        simpa using sent
      exact sourced.snapshot
  | distribute _ _ spawned => exact spawn_from spawned sourced.log sent
  | snapShotReply _ spawned =>
      refine spawn_from spawned ?_ sent
      dsimp only
      rw [(Raft.sameLog_snapShotReply server.rf _ _ _).log]
      exact sourced.log
  | entryReply _ _ handled proceeds =>
      have frame := Raft.onReply_frame handled
      refine proceed_from proceeds ?_ ?_ ?_ sent
      · rintro appEn appEnTerm rfl
        exact Raft.onReply_quotes handled
      · obtain ⟨_, _, _, _, _, _, _, rfl⟩ := frame
        exact sourced.log
      · obtain ⟨_, _, _, _, _, _, _, rfl⟩ := frame
        exact sourced.snapshot
  | retrySnapShotReply _ _ handled proceeds =>
      have same := Raft.sameLog_snapShotReply server.rf
      refine proceed_from proceeds ?_ ?_ ?_ sent
      · rintro appEn appEnTerm rfl
        exact Raft.afterSnapShot_quotes handled
      · dsimp only
        rw [(same _ _ _).log]
        exact sourced.log
      · dsimp only
        rw [(same _ _ _).snapshot]
        exact sourced.snapshot
  | _ => simp at sent

end Server

/-! ## Clusters -/

namespace Cluster

/-- Every server has the property, and every request that was sent. -/
structure Sourced (P : α → Prop) (Q : Snapshot σ → Prop) (c : Cluster n α σ) : Prop where
  servers : ∀ i, (c.servers i).Sourced P Q
  requests : ∀ {src dst request}, .request src dst request ∈ c.net → request.From P Q

theorem sourced_init (n : Nat) (P : α → Prop) (Q : Snapshot σ → Prop) :
    (init n α σ).Sourced P Q where
  servers i := by
    refine ⟨Raft.sourced_make n i ⟨?_, ?_⟩ ?_ ?_ ?_, by simp [init, Server.boot]⟩
    all_goals simp [makePersister]
  requests sent := by simp [init] at sent

variable {c c' : Cluster n α σ}

theorem Sourced.mono (sourced : c.Sourced P Q) (commands : ∀ command, P command → P' command)
    (snapshots : ∀ blob, Q blob → Q' blob) : c.Sourced P' Q' where
  servers i :=
    ⟨(sourced.servers i).peer.mono commands snapshots,
      fun start member => commands start.1 ((sourced.servers i).starts start member)⟩
  requests {_ _ request} sent := by
    have old := sourced.requests sent
    cases request with
    | requestVote _ => exact trivial
    | appendEntry args =>
        exact fun entry member command found => commands command (old entry member command found)
    | installSnapShot args => exact fun blob found => snapshots blob (old blob found)

/-- One server acts, and the network gets what it sends. -/
theorem Sourced.update (sourced : c.Sourced P Q) {i : Fin n} {input : Input n α σ}
    {server : Server n α σ} {output : Output n α σ}
    (moves : Server.Moves i (c.servers i) input server output) (brings : input.From P Q)
    (servers : c'.servers = Function.update c.servers i server)
    (net : ∀ {src dst request}, .request src dst request ∈ c'.net →
      .request src dst request ∈ c.net ∨ (dst, request) ∈ output.sends) : c'.Sourced P Q := by
  have acts := moves.sourced (sourced.servers i) brings
  refine ⟨fun j => ?_, fun sent => ?_⟩
  · rw [servers]
    by_cases same : j = i
    · subst same
      rwa [Function.update_self]
    · rw [Function.update_of_ne same]
      exact sourced.servers j
  · rcases net sent with old | new
    · exact sourced.requests old
    · exact moves.sends_from (sourced.servers i).peer new

/-- An action that is no answer of the network is what the server is handed. -/
theorem event_cases {action : Action n α σ} {i : Fin n} {input : Input n α σ}
    (event : c.event action = some (i, input)) :
    action = .internal i input ∨ (∃ request, input = .request request) ∨
      (∃ peer reply, input = .voteReply peer reply) ∨ (∃ k reply, input = .entryReply k reply) ∨
      (∃ reply, input = .snapShotReply reply) ∨
      ∃ k reply, input = .retrySnapShotReply k reply := by
  cases action with
  | internal j given =>
      obtain ⟨rfl, rfl⟩ := Prod.mk.inj (Option.some.inj event)
      exact Or.inl rfl
  | deliver packet | voteReply packet | entryReply packet sender | snapShotReply packet
  | retrySnapShotReply packet sender =>
      simp only [Cluster.event] at event
      split at event
      · obtain ⟨rfl, rfl⟩ := Prod.mk.inj (Option.some.inj event)
        simp
      · cases event

variable [DecidableEq α] [DecidableEq σ]

theorem Sourced.step (sourced : c.Sourced P Q) {action : Action n α σ}
    (brings : ∀ i input, action = .internal i input → input.From P Q)
    (next : c.step action = some c') : c'.Sourced P Q := by
  rcases step_cases next with
    ⟨src, dst, request, server, reply, sent, event, handled, rfl⟩ |
    ⟨i, input, server, output, prompted, event, stepped, rfl⟩
  · have stepped : (c.servers dst).step dst (.request request) = _ := handled
    refine sourced.update (Server.step_moves stepped) (sourced.requests sent) rfl ?_
    exact fun member => Or.inl (request_mem_answered.1 member)
  · refine sourced.update (Server.step_moves stepped) ?_ rfl ?_
    · rcases event_cases event with
        rfl | ⟨_, rfl⟩ | ⟨_, _, rfl⟩ | ⟨_, _, rfl⟩ | ⟨_, rfl⟩ | ⟨_, _, rfl⟩
      · exact brings i input rfl
      · exact absurd prompted id
      all_goals exact trivial
    · exact fun member => (request_mem_acted.1 member).imp_right And.right

/-- A cluster delivers no command that was not handed to `Start`, and no state that was not handed
to `TakeSnapshots`: whatever happens in a run, with any delays, losses, repetitions and crashes. -/
theorem delivered_was_handed_over {actions : List (Action n α σ)}
    (executed : execute step anyStep (init n α σ) actions = some c) {i : Fin n}
    {message : ApplyMsg α σ} (delivered : message ∈ (c.rf i).applyCh) :
    (∀ command ∈ message.command, ∃ j, .internal j (.startCheck command) ∈ actions) ∧
      ∀ state ∈ message.state, ∃ j index, .internal j (.takeSnapshots state index) ∈ actions := by
  have sourced : c.Sourced
      (fun command => ∃ j, .internal j (.startCheck command) ∈ actions)
      (fun blob => ∃ j index, .internal j (.takeSnapshots blob.state index) ∈ actions) := by
    refine execute_invariant (Sourced _ _) (sourced_init n _ _) ?_ executed
    intro s s' action member sourced _ next
    refine sourced.step ?_ next
    rintro j input rfl
    cases input with
    | startCheck command => exact ⟨j, member⟩
    | takeSnapshots state index => exact fun _ => ⟨j, index, member⟩
    | request request => simp [Cluster.step, Cluster.internal, Input.isInternal] at next
    | _ => exact trivial
  obtain ⟨command, state⟩ := (sourced.servers i).peer.channel message delivered
  refine ⟨command, fun s found => ?_⟩
  obtain ⟨blob, handed, rfl⟩ := state s found
  exact handed

theorem delivered_was_handed_over_firstCommit :
    ∃ c : Cluster 3 Nat Unit, ⟨true, some 7, 1, none⟩ ∈ (c.rf 1).applyCh ∧
      ∃ j, .internal j (.startCheck 7) ∈ firstCommit := by
  have ran : (execute step anyStep (init 3 Nat Unit) firstCommit).any (fun c =>
      decide (⟨true, some 7, 1, none⟩ ∈ (c.rf 1).applyCh)) = true := by decide +kernel
  obtain ⟨c, executed, delivered⟩ := (Option.any_eq_true _ _).1 ran
  have delivered := of_decide_eq_true delivered
  exact ⟨c, delivered, (delivered_was_handed_over executed delivered).1 7 rfl⟩

end Cluster

end Mit6824
