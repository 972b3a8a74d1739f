import Mit6824.Raft.Simulation

/-!
# What the service is given

A step of a server that does not install a snapshot and is not a restart puts on the
apply channel the commands of its log from the commit index on, one after the other
(`LogMoves.serves`). Only an `AppendEntry` that is accepted changes entries above the commit
index, and only those behind its `PrevLogIndex`.
-/

namespace Mit6824

variable {n : Nat} {α σ : Type}

/-- The messages come in the order of the indexes. -/
theorem getElem?_deliveries (l : List (CommandTerm α)) (a count j : Nat) (inside : j < count) :
    (deliveries σ l a count)[j]? =
      l[a + j]?.map fun entry => ⟨true, entry.command, ((a + j + 1 : Nat) : Int), none⟩ := by
  induction count generalizing a j with
  | zero => exact absurd inside (Nat.not_lt_zero j)
  | succ count ih =>
      simp only [deliveries]
      cases found : l[a]? with
      | none =>
          have beyond : l[a + j]? = none :=
            List.getElem?_eq_none ((List.getElem?_eq_none_iff.1 found).trans (Nat.le_add_right a j))
          simp [beyond]
      | some entry =>
          cases j with
          | zero => simp [found]
          | succ j =>
              have next := ih (a + 1) j (by omega)
              rw [Nat.add_right_comm a 1 j] at next
              rw [List.getElem?_cons_succ, next]
              rfl

theorem length_deliveries (l : List (CommandTerm α)) (a count : Nat) :
    (deliveries σ l a count).length ≤ count := by
  induction count generalizing a with
  | zero => exact le_rfl
  | succ count ih =>
      simp only [deliveries]
      split
      · exact Nat.zero_le _
      · exact Nat.succ_le_succ (ih (a + 1))

/-- A peer that stood for `l` stands for `l'`, and has delivered the commands of `l` from its
commit index up to `k'`. -/
structure Raft.Advances (rf rf' : Raft α σ) (l l' : List (CommandTerm α)) (k' : Nat) : Prop where
  stands : rf'.Stands l'
  commit : rf'.commitIndex = k'
  lower : rf.commitIndex ≤ k'
  upper : k' ≤ l.length
  channel : rf'.applyCh =
    rf.applyCh ++ deliveries σ l rf.commitIndex.toNat (k' - rf.commitIndex.toNat)

theorem Raft.Stands.idle {rf rf' : Raft α σ} {l l' : List (CommandTerm α)} (stands : rf.Stands l)
    (stands' : rf'.Stands l') (commit : rf'.commitIndex = rf.commitIndex)
    (channel : rf'.applyCh = rf.applyCh) : rf.Advances rf' l l' rf.commitIndex.toNat := by
  have nonneg := stands.commit_nonneg
  have bound := stands.commit
  refine ⟨stands', ?_, ?_, ?_, ?_⟩
  · omega
  · omega
  · omega
  · simp [channel, deliveries]

namespace Server

variable {i : Fin n} {server server' : Server n α σ} {input : Input n α σ}
  {output : Output n α σ} {l : List (CommandTerm α)}

/-- A reply to `AppendEntry` is the work of one goroutine. -/
theorem Moves.onReply {k : Nat} {reply : AppendEntryReply}
    (moves : Moves i server (.entryReply k reply) server' output) :
    ∃ sender rf next waiting, server.senders[k]? = some sender ∧
      server.rf.onReply sender reply = some (rf, next) ∧
      server'.rf = { rf with aeNotifyChan := waiting } ∧ server'.phase = server.phase ∧
      output.won = none := by
  cases moves with
  | entryReply found _ handled proceeds =>
      obtain ⟨waiting, frame⟩ := proceed_rf proceeds
      obtain ⟨phase, won⟩ := proceed_phase proceeds
      exact ⟨_, _, _, waiting, found, handled, frame, phase, won⟩

/-- Apart from replies to `AppendEntry`, only a restart touches the commit index. -/
theorem LogMoves.commitIndex {rf' : Raft α σ} (moves : LogMoves i server input rf')
    (own : ∀ request, input ≠ .request request) (other : ∀ k reply, input ≠ .entryReply k reply)
    (up : input ≠ .restart) :
    rf'.commitIndex = server.rf.commitIndex ∧ rf'.applyCh = server.rf.applyCh := by
  cases moves with
  | same same => exact ⟨same.commit, same.channel⟩
  | appendEntry _ | installSnapShot _ _ _ => exact absurd rfl (own _)
  | entryReply _ => exact absurd rfl (other _ _)
  | startAppend appended =>
      obtain ⟨_, rfl⟩ := Raft.startAppend_frame appended
      exact ⟨rfl, rfl⟩
  | takeSnapshots _ taken =>
      rcases Raft.takeSnapshots_cases taken with rfl | ⟨_, _, _, _, _, _, rfl⟩
      all_goals exact ⟨rfl, rfl⟩
  | restart => exact absurd rfl up

theorem Moves.commitIndex (moves : Moves i server input server' output)
    (own : ∀ request, input ≠ .request request) (other : ∀ k reply, input ≠ .entryReply k reply) :
    server'.rf.commitIndex = server.rf.commitIndex ∧ server'.rf.applyCh = server.rf.applyCh ∨
      input = .restart ∧ server' = boot i server.rf.persister server.rf.applyCh := by
  by_cases crash : input = .restart
  · subst crash
    cases moves with
    | restart => exact Or.inr ⟨rfl, rfl⟩
  · exact Or.inl (moves.log.commitIndex own other crash)

/-- `AppendEntry` with entries changes the log behind `PrevLogIndex` only. -/
theorem appendEntry_serves (stands : server.rf.Stands l) {args : AppendEntryArgs α}
    {rf : Raft α σ} {reply : AppendEntryReply}
    (handled : server.rf.appendEntry args = some (rf, reply)) :
    ∃ l' k', server.rf.Advances rf l l' k' ∧ ∀ m : Nat,
      (server.rf.accepts args = true → args.entries ≠ [] → (m : Int) ≤ args.prevLogIndex) →
        l'.take m = l.take m := by
  rcases stands.appendEntry handled with
    ⟨_, rfl, _⟩ | ⟨current, _, ⟨stands', channel, commit, _⟩ |
      ⟨p, k', prev, committed, bound, sameTerm, _, _, rises, commit, channel, stands'⟩⟩
  · exact ⟨l, _, stands.idle stands rfl rfl, fun _ _ => rfl⟩
  · exact ⟨l, _, stands.idle stands' commit channel, fun _ _ => rfl⟩
  have nonneg := stands.commit_nonneg
  have within := stands.commit
  refine ⟨_, k', ⟨stands', commit, by omega, by omega, channel⟩, fun m far => ?_⟩
  split_ifs with heartbeat
  · rfl
  · have le := far (stands.accepts current prev committed bound sameTerm) heartbeat
    exact take_appended_of_le bound (by omega)

/-- What a step gives to the service and what it leaves of the log. -/
theorem LogMoves.serves {rf' : Raft α σ} (moves : LogMoves i server input rf')
    (stands : server.rf.Stands l) (up : input ≠ .restart)
    (keeps : ∀ args, input = .request (.installSnapShot args) → server.rf.installs args = false) :
    ∃ l' k', server.rf.Advances rf' l l' k' ∧ ∀ m : Nat, m ≤ l.length →
      (∀ args, input = .request (.appendEntry args) → server.rf.accepts args = true →
        args.entries ≠ [] → (m : Int) ≤ args.prevLogIndex) → l'.take m = l.take m := by
  cases moves with
  | same same =>
      exact ⟨l, _, stands.idle (stands.sameLog same) same.commit same.channel, fun _ _ _ => rfl⟩
  | appendEntry handled =>
      obtain ⟨l', k', advances, kept⟩ := appendEntry_serves stands handled
      exact ⟨l', k', advances, fun m _ far => kept m (far _ rfl)⟩
  | installSnapShot installs _ _ =>
      rw [keeps _ rfl] at installs
      cases installs
  | entryReply handled =>
      have nonneg := stands.commit_nonneg
      obtain ⟨_, k', _, _, _, lower, upper, _, rfl⟩ :=
        stands.window.onReply (Int.toNat_of_nonneg nonneg).symm handled
      refine ⟨l, k', ⟨?_, rfl, by omega, upper, rfl⟩, fun _ _ _ => rfl⟩
      refine stands.congr rfl rfl rfl rfl ?_ ?_
      · dsimp only
        omega
      · dsimp only
        omega
  | startAppend appended =>
      have stands' := stands.startAppend appended
      obtain ⟨_, rfl⟩ := Raft.startAppend_frame appended
      exact ⟨_, _, stands.idle stands' rfl rfl, fun m bound _ =>
        List.take_append_of_le_length bound⟩
  | takeSnapshots delivered taken =>
      have stands' := stands.takeSnapshots delivered taken
      rcases Raft.takeSnapshots_cases taken with rfl | ⟨_, _, _, _, _, _, rfl⟩
      all_goals exact ⟨l, _, stands.idle stands' rfl rfl, fun _ _ _ => rfl⟩
  | restart => exact absurd rfl up

end Server

end Mit6824
