import Mit6824.Raft.Restart
import Mit6824.Raft.WholeLog

/-!
# The applied stream

A server that is not restarted and installs no snapshot puts the commands of its log on the
apply channel in the order of their indexes, each once, and never changes an entry that it has
put there. The server is open here: whatever requests and replies reach it, it keeps to that.

`Raft.Continues` is what one step does and what a run of such steps does. The state the run
starts from may be any that the server can get into, with crashes and snapshots before it, so
what a peer is made from has to be followed as well (`Persister.Sound`).
-/

namespace Mit6824

open Consensus

variable {n : Nat} {α σ : Type}

/-! ## Messages on the channel -/

theorem deliveries_add {l : List (CommandTerm α)} {a b : Nat} (bound : a + b ≤ l.length)
    (c : Nat) : deliveries σ l a (b + c) = deliveries σ l a b ++ deliveries σ l (a + b) c := by
  induction b generalizing a with
  | zero => simp [deliveries]
  | succ b ih =>
      have found : l[a]? = some l[a] := List.getElem?_eq_getElem (by omega)
      have rest := @ih (a + 1) (by omega)
      rw [Nat.add_right_comm b 1 c, show a + (b + 1) = a + 1 + b by omega]
      simp only [deliveries, found, rest, List.cons_append]

theorem deliveries_congr {l l' : List (CommandTerm α)} {a count m : Nat}
    (same : l'.take m = l.take m) (within : a + count ≤ m) :
    deliveries σ l' a count = deliveries σ l a count := by
  induction count generalizing a with
  | zero => rfl
  | succ count ih =>
      have slot : l'[a]? = l[a]? := by
        rw [← List.getElem?_take_of_lt (show a < m by omega), same,
          List.getElem?_take_of_lt (by omega)]
      simp only [deliveries, slot, @ih (a + 1) (by omega)]

theorem map_commandIndex_deliveries {l : List (CommandTerm α)} {a count : Nat}
    (bound : a + count ≤ l.length) :
    (deliveries σ l a count).map ApplyMsg.commandIndex =
      (List.range' (a + 1) count).map Nat.cast := by
  induction count generalizing a with
  | zero => rfl
  | succ count ih =>
      have found : l[a]? = some l[a] := List.getElem?_eq_getElem (by omega)
      simp only [deliveries, found, List.map_cons, List.range'_succ, @ih (a + 1) (by omega)]
      push_cast
      rfl

namespace Raft

variable {rf rf' rf'' : Raft α σ} {l l' l'' : List (CommandTerm α)}

/-- From `rf` on, where the whole log was `l`, the peer has delivered the commands of `l'` after
its old commit index, and has kept all entries up to there. -/
structure Continues (rf rf' : Raft α σ) (l l' : List (CommandTerm α)) : Prop where
  window : rf'.Window l'
  snapshot : rf.lastIndexInSnapshot ≤ rf'.lastIndexInSnapshot
  lower : rf.commitIndex ≤ rf'.commitIndex
  channel : rf'.applyCh = rf.applyCh ++
    deliveries σ l' rf.commitIndex.toNat (rf'.commitIndex.toNat - rf.commitIndex.toNat)
  kept : l'.take rf.commitIndex.toNat = l.take rf.commitIndex.toNat

namespace Continues

/-- Nothing is delivered. -/
theorem silent (window : rf'.Window l')
    (snapshot : rf.lastIndexInSnapshot ≤ rf'.lastIndexInSnapshot)
    (commit : rf'.commitIndex = rf.commitIndex) (channel : rf'.applyCh = rf.applyCh)
    (kept : l'.take rf.commitIndex.toNat = l.take rf.commitIndex.toNat) :
    rf.Continues rf' l l' :=
  ⟨window, snapshot, commit.ge, by simp [commit, channel, deliveries], kept⟩

theorem trans (window : rf.Window l) (first : rf.Continues rf' l l')
    (second : rf'.Continues rf'' l' l'') : rf.Continues rf'' l l'' := by
  have nonneg := window.commit_nonneg
  have lower := first.lower
  have upper := second.lower
  have within := first.window.commit
  have within' := second.window.commit
  refine ⟨second.window, first.snapshot.trans second.snapshot, lower.trans upper, ?_, ?_⟩
  · have split : rf''.commitIndex.toNat - rf.commitIndex.toNat =
        (rf'.commitIndex.toNat - rf.commitIndex.toNat) +
          (rf''.commitIndex.toNat - rf'.commitIndex.toNat) := by omega
    rw [split, deliveries_add (by omega), second.channel, first.channel, List.append_assoc]
    congr 2
    · exact (deliveries_congr second.kept (by omega)).symm
    · congr 1
      omega
  · have below : rf.commitIndex.toNat ≤ rf'.commitIndex.toNat := by omega
    rw [← first.kept, ← min_eq_left below, ← List.take_take, second.kept, List.take_take]

/-- The indexes of the commands that were delivered. -/
theorem commandIndex (window : rf.Window l) (continues : rf.Continues rf' l l') :
    (deliveries σ l' rf.commitIndex.toNat
        (rf'.commitIndex.toNat - rf.commitIndex.toNat)).map ApplyMsg.commandIndex =
      (List.range' (rf.commitIndex.toNat + 1)
        (rf'.commitIndex.toNat - rf.commitIndex.toNat)).map Nat.cast := by
  have nonneg := window.commit_nonneg
  have lower := continues.lower
  have within := continues.window.commit
  exact map_commandIndex_deliveries (by omega)

/-- What was delivered is what the log has, as far as it still has it. -/
theorem command (continues : rf.Continues rf' l l') {message : ApplyMsg α σ}
    (delivered : message ∈ deliveries σ l' rf.commitIndex.toNat
      (rf'.commitIndex.toNat - rf.commitIndex.toNat)) :
    message.commandValid = true ∧ (rf'.lastIndexInSnapshot < message.commandIndex →
      (rf'.entryAt message.commandIndex).map CommandTerm.command = some message.command) := by
  obtain ⟨k, entry, _, _, found, rfl⟩ := mem_deliveries delivered
  refine ⟨rfl, fun above => ?_⟩
  have entryAt := continues.window.holds.entryAt (show _ < ((k + 1 : Nat) : Int) from above)
  simp only [Nat.add_sub_cancel, found] at entryAt
  change (rf'.entryAt ((k + 1 : Nat) : Int)).map _ = _
  rw [entryAt]
  rfl

/-- An entry that was committed stays until a snapshot covers it. -/
theorem entryAt (window : rf.Window l) (continues : rf.Continues rf' l l') {index : Int}
    (above : rf'.lastIndexInSnapshot < index) (committed : index ≤ rf.commitIndex) :
    rf'.entryAt index = rf.entryAt index := by
  have nonneg := window.holds.nonneg
  have snapshot := continues.snapshot
  obtain ⟨k, rfl⟩ : ∃ k : Nat, index = k := ⟨index.toNat, by omega⟩
  rw [continues.window.holds.entryAt above, window.holds.entryAt (snapshot.trans_lt above),
    ← List.getElem?_take_of_lt (show k - 1 < rf.commitIndex.toNat by omega), continues.kept,
    List.getElem?_take_of_lt (by omega)]

end Continues

/-! ## What a peer is made from -/

end Raft

/-- The snapshot that was saved has a positive index. If there is none, the log that was saved
starts with the sentinel of an empty log. -/
structure Persister.Sound (persister : Persister α σ) : Prop where
  labelled : ∀ blob ∈ persister.snapshot, 0 < blob.lastIndex
  unlabelled : persister.snapshot = none →
    ∀ saved ∈ persister.raftstate, ∀ slot ∈ saved.2.head?, slot.term = 0

namespace Raft

variable {rf rf' : Raft α σ} {l : List (CommandTerm α)}

/-- A peer with nothing committed above its snapshot stands for its slots behind anything that
ends in the term of the first one. -/
theorem window_of_log {sentinel : CommandTerm α} {slots : List (CommandTerm α)}
    (log : rf.log = sentinel :: slots) (nonneg : 0 ≤ rf.lastIndexInSnapshot)
    (committed : rf.commitIndex = rf.lastIndexInSnapshot)
    (fresh : rf.lastIndexInSnapshot = 0 → sentinel.term = 0) :
    rf.Window (List.replicate rf.lastIndexInSnapshot.toNat ⟨none, sentinel.term⟩ ++ slots) := by
  have length : (List.replicate rf.lastIndexInSnapshot.toNat
      (⟨none, sentinel.term⟩ : CommandTerm α)).length = rf.lastIndexInSnapshot.toNat :=
    List.length_replicate
  refine ⟨⟨nonneg, by simp, sentinel, ?_, ?_⟩, committed.ge, by simp; omega⟩
  · rw [log, List.drop_left' length]
  · rw [termAt, List.take_left' length, lastTermOf]
    rcases Nat.eq_zero_or_pos rf.lastIndexInSnapshot.toNat with zero | positive
    · rw [zero, fresh (by omega)]
      rfl
    · simp [List.getLast?_replicate, positive.ne']

/-- Whatever was saved, a peer made from it has a log that its window is on. -/
theorem window_make (peers : Nat) (me : Int) {persister : Persister α σ}
    (applyCh : List (ApplyMsg α σ)) (sound : persister.Sound) :
    ∃ l, (make peers me persister applyCh).Window l := by
  have logged : (make peers me persister applyCh).log = persister.startLog := by
    rw [make_eq]
  obtain ⟨_, base, _⟩ := make_snapshot peers me persister applyCh sound.labelled
  obtain ⟨sentinel, slots, log⟩ := List.exists_cons_of_ne_nil (logged ▸ persister.startLog_ne_nil)
  have sign : 0 ≤ (make peers me persister applyCh).lastIndexInSnapshot ∧
      ((make peers me persister applyCh).lastIndexInSnapshot = 0 → persister.snapshot = none) := by
    rw [base]
    cases found : persister.snapshot with
    | none => simp
    | some blob =>
        have positive := sound.labelled blob found
        simp only [Option.map_some, Option.getD_some]
        exact ⟨positive.le, fun zero => absurd zero positive.ne'⟩
  refine ⟨_, window_of_log log sign.1 (make_label peers me persister applyCh).1 fun zero => ?_⟩
  -- Without a snapshot the log is the one that was saved, or empty.
  have unlabelled := sign.2 zero
  have first : sentinel ∈ (make peers me persister applyCh).log.head? := by
    rw [log]
    rfl
  rw [logged] at first
  rcases Persister.mem_head?_startLog first with ⟨saved, found, kept | ⟨_, term⟩⟩ | term
  · exact sound.unlabelled unlabelled saved found sentinel kept
  · exact term
  · rwa [Persister.readable_eq sound.labelled, unlabelled] at term

/-- In every state of a server: the peer has a window on some log, and can be made again. -/
structure Standing (rf : Raft α σ) : Prop where
  window : ∃ l, rf.Window l
  sound : rf.persister.Sound
  base : rf.persister.snapshot = none → rf.lastIndexInSnapshot = 0

theorem Window.head_term (window : rf.Window l) :
    ∀ slot ∈ rf.log.head?, slot.term = termAt l rf.lastIndexInSnapshot.toNat := by
  obtain ⟨sentinel, slots, term⟩ := window.holds.slots
  intro slot first
  rw [slots, List.head?_cons, Option.mem_some] at first
  rw [← first, term]

namespace Standing

/-- Nothing but the log was saved. -/
theorem of_saved (standing : rf.Standing) {l' : List (CommandTerm α)} (window : rf'.Window l')
    (base : rf'.lastIndexInSnapshot = rf.lastIndexInSnapshot)
    (snapshot : rf'.persister.snapshot = rf.persister.snapshot)
    (raftstate : rf'.persister.raftstate = rf.persister.raftstate ∨
      ∃ term, rf'.persister.raftstate = some (term, rf'.log)) : rf'.Standing where
  window := ⟨l', window⟩
  sound := by
    refine ⟨by rw [snapshot]; exact standing.sound.labelled, fun unlabelled saved found => ?_⟩
    have zero : rf'.lastIndexInSnapshot = 0 := by
      rw [base]
      exact standing.base (snapshot ▸ unlabelled)
    rcases raftstate with same | ⟨term, written⟩
    · rw [same] at found
      exact standing.sound.unlabelled (snapshot ▸ unlabelled) saved found
    · rw [written, Option.mem_some] at found
      subst found
      intro slot first
      rw [window.head_term slot first, zero]
      rfl
  base unlabelled := by
    rw [base]
    exact standing.base (snapshot ▸ unlabelled)

/-- A snapshot was saved. -/
theorem of_snapshot {blob : Snapshot σ} (window : rf.Window l)
    (snapshot : rf.persister.snapshot = some blob) (positive : 0 < blob.lastIndex) :
    rf.Standing where
  window := ⟨l, window⟩
  sound := by
    refine ⟨fun blob' found => ?_, fun none => ?_⟩
    · rw [snapshot, Option.mem_some] at found
      rwa [← found]
    · rw [snapshot] at none
      cases none
  base none := by
    rw [snapshot] at none
    cases none

theorem make (peers : Nat) (me : Int) {persister : Persister α σ}
    (applyCh : List (ApplyMsg α σ)) (sound : persister.Sound) :
    (make peers me persister applyCh).Standing := by
  obtain ⟨same, base, _⟩ := make_snapshot peers me persister applyCh sound.labelled
  refine ⟨window_make peers me applyCh sound, by rwa [same], fun none => ?_⟩
  rw [same] at none
  rw [base, none]
  rfl

end Standing

theorem appendEntry_raftstate {args : AppendEntryArgs α} {reply : AppendEntryReply}
    (handled : rf.appendEntry args = some (rf', reply)) :
    rf'.persister.raftstate = rf.persister.raftstate ∨
      ∃ term, rf'.persister.raftstate = some (term, rf'.log) := by
  rcases appendEntry_frame handled with ⟨_, rfl⟩ | ⟨_, _, _, _, _, _, rfl, _⟩
  · exact Or.inl rfl
  · exact Or.inr ⟨_, rfl⟩

end Raft

/-! ## Steps of an open server -/

namespace Server

variable {i : Fin n} {server server' : Server n α σ} {input : Input n α σ} {rf' : Raft α σ}
  {l : List (CommandTerm α)}

/-- The server after one step, with whatever the rest of the world hands it. -/
def next (i : Fin n) (server : Server n α σ) (input : Input n α σ) : Option (Server n α σ) :=
  (server.step i input).map Prod.fst

theorem next_log (stepped : next i server input = some server') :
    LogMoves i server input server'.rf := by
  obtain ⟨⟨_, output⟩, moved, rfl⟩ := Option.map_eq_some_iff.1 stepped
  exact (step_moves moved).log

/-- The server goes on with the incarnation and the snapshot it has. -/
def goesOn (server : Server n α σ) : Input n α σ → Bool
  | .request (.installSnapShot args) => !server.rf.installs args
  | .restart => false
  | _ => true

theorem LogMoves.continues (moves : LogMoves i server input rf') (window : server.rf.Window l)
    (goesOn : server.goesOn input = true) : ∃ l', server.rf.Continues rf' l l' := by
  have nonneg := window.commit_nonneg
  cases moves with
  | same same =>
      have window' := window.congr same.base same.log same.commit.ge (same.commit ▸ window.commit)
      exact ⟨l, .silent window' same.base.ge same.commit same.channel rfl⟩
  | appendEntry handled =>
      rcases window.appendEntry handled with
        ⟨_, rfl, _⟩ | ⟨_, _, base, _, _, ⟨window', channel, commit, _⟩ |
          ⟨p, k', _, _, bound, _, _, _, _, commit, channel, window', kept⟩⟩
      · exact ⟨l, .silent window le_rfl rfl rfl rfl⟩
      · exact ⟨l, .silent window' base.ge commit channel rfl⟩
      · have below : server.rf.commitIndex.toNat ≤ p := by omega
        refine ⟨_, window', base.ge, by omega, ?_, ?_⟩
        · rw [channel, commit, Int.toNat_natCast, deliveries_congr kept (by omega)]
        · rw [← min_eq_left below, ← List.take_take, kept, List.take_take]
  | installSnapShot installs _ _ => simp [Server.goesOn, installs] at goesOn
  | entryReply handled =>
      obtain ⟨_, k', _, _, _, lower, upper, _, rfl⟩ :=
        window.onReply (Int.toNat_of_nonneg nonneg).symm handled
      have rises : server.rf.commitIndex ≤ (k' : Int) := by omega
      refine ⟨l, window.congr rfl rfl rises (Int.ofNat_le.2 upper), le_rfl, rises, ?_, rfl⟩
      dsimp only
      rw [Int.toNat_natCast]
  | startAppend appended =>
      have window' := window.startAppend appended
      obtain ⟨_, rfl⟩ := Raft.startAppend_frame appended
      have within := window.commit
      exact ⟨_, .silent window' le_rfl rfl rfl (List.take_append_of_le_length (by omega))⟩
  | takeSnapshots delivered taken =>
      rcases window.takeSnapshots delivered taken with rfl | ⟨_, _, above, bound, _, term, rfl⟩
      · exact ⟨l, .silent window le_rfl rfl rfl rfl⟩
      · exact ⟨l, .silent (window.of_snapshot bound term rfl rfl rfl) above.le rfl rfl rfl⟩
  | restart => simp [Server.goesOn] at goesOn

/-- Every step leaves a peer that stands, and that can be made again. -/
theorem LogMoves.standing (moves : LogMoves i server input rf') (standing : server.rf.Standing) :
    rf'.Standing := by
  obtain ⟨l, window⟩ := standing.window
  have continues := moves.continues window
  cases moves with
  | same same =>
      have window' := window.congr same.base same.log same.commit.ge (same.commit ▸ window.commit)
      exact standing.of_saved window' same.base same.snapshot (same.log ▸ same.raftstate)
  | appendEntry handled =>
      obtain ⟨_, continues⟩ := continues rfl
      have saved := Raft.appendEntry_raftstate handled
      rcases window.appendEntry handled with ⟨_, rfl, _⟩ | ⟨_, _, base, _, snapshot, _⟩
      · exact standing
      · exact standing.of_saved continues.window base snapshot saved
  | installSnapShot _ _ above =>
      have positive := window.holds.nonneg.trans_lt above
      refine .of_snapshot (Raft.window_of_log rfl positive.le rfl fun zero => ?_) rfl positive
      exact absurd zero positive.ne'
  | entryReply handled =>
      obtain ⟨_, continues⟩ := continues rfl
      obtain ⟨_, _, _, _, _, _, _, rfl⟩ := Raft.onReply_frame handled
      exact standing.of_saved continues.window rfl rfl (Or.inl rfl)
  | startAppend appended =>
      obtain ⟨_, continues⟩ := continues rfl
      obtain ⟨_, rfl⟩ := Raft.startAppend_frame appended
      exact standing.of_saved continues.window rfl rfl (Or.inr ⟨_, rfl⟩)
  | takeSnapshots delivered taken =>
      obtain ⟨_, continues⟩ := continues rfl
      rcases Raft.takeSnapshots_cases taken with rfl | ⟨_, _, positive, _, _, _, rfl⟩
      · exact standing
      · exact .of_snapshot continues.window rfl positive
  | restart => exact .make n i server.rf.applyCh standing.sound

/-! ## Runs of an open server -/

theorem standing_boot (i : Fin n) (applyCh : List (ApplyMsg α σ)) :
    (boot i (makePersister α σ) applyCh).rf.Standing :=
  .make n i applyCh ⟨by simp [makePersister], by simp [makePersister]⟩

theorem standing_of_reaches
    (run : Reaches (next i) anyStep (boot i (makePersister α σ) []) server) :
    server.rf.Standing :=
  run.invariant (fun server => server.rf.Standing) (standing_boot i []) fun standing _ stepped =>
    (next_log stepped).standing standing

theorem continues_of_reaches {server₀ : Server n α σ} (window : server₀.rf.Window l)
    (run : Reaches (next i) (fun server input => server.goesOn input = true) server₀ server) :
    ∃ l', server₀.rf.Continues server.rf l l' := by
  refine run.invariant (fun server => ∃ l', server₀.rf.Continues server.rf l l') ?_ ?_
  · exact ⟨l, .silent window le_rfl rfl rfl rfl⟩
  · rintro s s' input ⟨l', continues⟩ goesOn stepped
    obtain ⟨l'', step⟩ := (next_log stepped).continues continues.window goesOn
    exact ⟨l'', continues.trans window step⟩

/-- The applied stream is the committed log. From any state of a server on, as long as it is not
restarted and installs no snapshot, the commands on the channel are those of the indexes after
the commit index of the start, in order and each once, and they are the commands the log has.
No entry that was committed at the start is changed. -/
theorem applied_stream {server₀ : Server n α σ}
    (first : Reaches (next i) anyStep (boot i (makePersister α σ) []) server₀)
    (run : Reaches (next i) (fun server input => server.goesOn input = true) server₀ server) :
    ∃ base commit : Nat, server₀.rf.commitIndex = base ∧ server.rf.commitIndex = commit ∧
      base ≤ commit ∧
      (∃ stream, server.rf.applyCh = server₀.rf.applyCh ++ stream ∧
        stream.map ApplyMsg.commandIndex = (List.range' (base + 1) (commit - base)).map Nat.cast ∧
        ∀ message ∈ stream, message.commandValid = true ∧
          (server.rf.lastIndexInSnapshot < message.commandIndex →
            (server.rf.entryAt message.commandIndex).map CommandTerm.command =
              some message.command)) ∧
      ∀ index, server.rf.lastIndexInSnapshot < index → index ≤ base →
        server.rf.entryAt index = server₀.rf.entryAt index := by
  obtain ⟨l, window⟩ := (standing_of_reaches first).window
  obtain ⟨l', continues⟩ := continues_of_reaches window run
  have nonneg := window.commit_nonneg
  have lower := continues.lower
  refine ⟨server₀.rf.commitIndex.toNat, server.rf.commitIndex.toNat, by omega, by omega, by omega,
    ⟨_, continues.channel, continues.commandIndex window, fun _ => continues.command⟩, ?_⟩
  intro index above committed
  exact continues.entryAt window above (by omega)

/-- A follower is sent two commands, commits both, takes a snapshot of the first and is sent
others for the same indexes. -/
def twoCommands : List (Input 3 Nat Unit) :=
  [.request (.appendEntry ⟨1, 1, 0, 0, [⟨some 7, 1⟩, ⟨some 8, 1⟩], 0⟩),
    .request (.appendEntry ⟨1, 1, 2, 1, [], 2⟩), .takeSnapshots () 2,
    .request (.appendEntry ⟨2, 2, 1, 1, [⟨some 9, 2⟩], 2⟩)]

theorem applied_stream_twoCommands :
    ∃ server : Server 3 Nat Unit, server.rf.lastIndexInSnapshot = 1 ∧
      server.rf.entryAt 2 = some ⟨some 8, 1⟩ ∧
      server.rf.applyCh.map ApplyMsg.commandIndex = [1, 2] := by
  have reached : ∃ server, Reaches (next 0) (fun server input => server.goesOn input = true)
      (boot 0 (makePersister Nat Unit) []) server ∧ server.rf.lastIndexInSnapshot = 1 ∧
      server.rf.entryAt 2 = some ⟨some 8, 1⟩ ∧ server.rf.commitIndex = 2 :=
    exists_reaches twoCommands (by decide +kernel)
  obtain ⟨server, run, base, entry, committed⟩ := reached
  obtain ⟨start, commit, zero, two, _, ⟨stream, channel, indexes, _⟩, _⟩ :=
    applied_stream (.refl _) run
  obtain rfl : start = 0 := Int.ofNat_eq_zero.1 zero.symm
  obtain rfl : commit = 2 := by omega
  refine ⟨server, base, entry, ?_⟩
  rw [channel, List.map_append, indexes]
  rfl

end Server

end Mit6824
