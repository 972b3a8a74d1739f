import Mit6824.KvRaft.Node

/-!
# Replay after a snapshot

`TakeSnapshots` labels a snapshot with an index below the one it was asked for, and encodes the
maps later still. So a server that restores a snapshot is given commands again that the maps
have seen. This file shows that they do nothing: what a command has written is recorded for
its client, and the record only grows (`Covers`).

Only the store and the recorded numbers matter, and a missing number reads as `0`; this is
`SameStore`. A client that a handler adds with number `0` is not seen.
-/

namespace Mit6824.KvRaft

namespace KVServer

/-- The two servers have the same store and the same recorded numbers. -/
structure SameStore (kv kv' : KVServer) : Prop where
  rsm : kv.rsm = kv'.rsm
  maxSeq : kv.maxSeq = kv'.maxSeq

/-- The commands one after the other. -/
def applyOps (kv : KVServer) (ops : List Op) : KVServer := ops.foldl applyOp kv

/-- Every write among the commands is recorded. -/
def Covers (kv : KVServer) (ops : List Op) : Prop :=
  ∀ op ∈ ops, op.isWrite = true → op.proposalID ≤ kv.maxSeq op.clientID

variable {kv kv' kv'' : KVServer} {op : Op} {ops : List Op}

namespace SameStore

theorem refl (kv : KVServer) : kv.SameStore kv := ⟨rfl, rfl⟩

theorem symm (same : kv.SameStore kv') : kv'.SameStore kv := ⟨same.rsm.symm, same.maxSeq.symm⟩

theorem trans (first : kv.SameStore kv') (second : kv'.SameStore kv'') : kv.SameStore kv'' :=
  ⟨first.rsm.trans second.rsm, first.maxSeq.trans second.maxSeq⟩

theorem addClient (kv : KVServer) (client : Int) : (kv.addClient client).SameStore kv := by
  refine ⟨?_, (kv.addClient_frame client).2⟩
  unfold KVServer.addClient
  split_ifs
  · rfl
  · rfl

theorem applyOp (same : kv.SameStore kv') (op : Op) :
    (kv.applyOp op).SameStore (kv'.applyOp op) := by
  have recorded : kv.maxSeq op.clientID = kv'.maxSeq op.clientID := congrFun same.maxSeq _
  by_cases write : op.isWrite = true
  · rcases le_or_gt op.proposalID (kv.maxSeq op.clientID) with old | new
    · rw [applyOp_old write old, applyOp_old write (recorded ▸ old)]
      exact same
    · have new' : kv'.maxSeq op.clientID < op.proposalID := recorded ▸ new
      refine ⟨?_, ?_⟩
      · rw [applyOp_new write new, applyOp_new write new']
        exact congrArg op.execute same.rsm
      · rw [maxSeq_applyOp_new write new, maxSeq_applyOp_new write new', same.maxSeq]
  · have get := not_not.1 (mt Op.isWrite_iff.2 write)
    rw [applyOp_get get, applyOp_get get]
    exact ⟨same.rsm, same.maxSeq⟩

theorem applyOps (same : kv.SameStore kv') (ops : List Op) :
    (kv.applyOps ops).SameStore (kv'.applyOps ops) := by
  induction ops generalizing kv kv' with
  | nil => exact same
  | cons op rest ih => exact ih (same.applyOp op)

end SameStore

theorem le_maxSeq_applyOps (kv : KVServer) (ops : List Op) (client : Int) :
    kv.maxSeq client ≤ (kv.applyOps ops).maxSeq client := by
  induction ops generalizing kv with
  | nil => exact le_rfl
  | cons op rest ih => exact (kv.le_maxSeq_applyOp op client).trans (ih (kv.applyOp op))

/-- What was applied is recorded. -/
theorem covers_applyOps (kv : KVServer) (ops : List Op) : (kv.applyOps ops).Covers ops := by
  induction ops generalizing kv with
  | nil => exact fun op member => absurd member List.not_mem_nil
  | cons head rest ih =>
      intro op member write
      rcases List.mem_cons.1 member with rfl | later
      · exact (kv.applyOp_records write).trans (le_maxSeq_applyOps (kv.applyOp op) rest op.clientID)
      · exact ih (kv.applyOp head) op later write

/-- What is recorded does nothing. -/
theorem Covers.applyOps (covers : kv.Covers ops) : (kv.applyOps ops).SameStore kv := by
  induction ops generalizing kv with
  | nil => exact .refl kv
  | cons op rest ih =>
      have same : (kv.applyOp op).SameStore kv := by
        by_cases write : op.isWrite = true
        · rw [applyOp_old write (covers op List.mem_cons_self write)]
          exact .refl kv
        · rw [applyOp_get (not_not.1 (mt Op.isWrite_iff.2 write))]
          exact ⟨rfl, rfl⟩
      have covers' : kv.Covers rest := fun op later => covers op (List.mem_cons_of_mem _ later)
      exact (same.applyOps rest).trans (ih covers')

end KVServer

/-! ## Events -/

/-- What happens to the maps of a server: `mainProcess` obeys a command, or a handler adds a
client. -/
inductive Event where
  | command (op : Op)
  | newClient (client : Int)

namespace Event

def op : Event → Option Op
  | command op => some op
  | newClient _ => none

/-- The maps after the event. -/
def apply (kv : KVServer) : Event → KVServer
  | command op => kv.applyOp op
  | newClient client => kv.addClient client

end Event

namespace KVServer

def runEvents (kv : KVServer) (events : List Event) : KVServer := events.foldl Event.apply kv

/-- Restore the maps of a snapshot. -/
def restore (kv : KVServer) (saved : Saved) : KVServer :=
  { kv with clientMaxRequestSeq := saved.clientMaxRequestSeq, rsm := saved.rsm }

theorem apply_snapshot (kv : KVServer) (saved : Saved) :
    kv.apply ⟨false, none, 0, some saved⟩ = some (kv.restore saved) := rfl

variable {kv kv' : KVServer}

/-- New clients do not matter. -/
theorem SameStore.runEvents (same : kv.SameStore kv') (events : List Event) :
    (kv.runEvents events).SameStore (kv'.applyOps (events.filterMap Event.op)) := by
  induction events generalizing kv kv' with
  | nil => exact same
  | cons event rest ih =>
      cases event with
      | command op => exact ih (same.applyOp op)
      | newClient client => exact ih ((SameStore.addClient kv client).trans same)

end KVServer

/-! ## Servers that go through snapshots -/

/-- A server has consumed the first `p` commands of the log, and the maps it has built or restored
have seen the first `r`. A snapshot is taken by some server, is labelled with an index that server
has consumed, and may be restored by any server; the commands above the label follow. -/
inductive Consumed (log : List Op) : Nat → Nat → KVServer → Prop where
  | start : Consumed log 0 0 .start
  | command {p r : Nat} {kv kv' : KVServer} {op : Op} (before : Consumed log p r kv)
      (next : log[p]? = some op) (applied : kv.apply ⟨true, some op, p + 1, none⟩ = some kv') :
      Consumed log (p + 1) (max r (p + 1)) kv'
  | newClient {p r : Nat} {kv : KVServer} (before : Consumed log p r kv) (client : Int) :
      Consumed log p r (kv.addClient client)
  | restore {p r q s label : Nat} {kv taker kv' : KVServer} (before : Consumed log p r kv)
      (source : Consumed log q s taker) (labelled : label ≤ q)
      (restored : kv.apply ⟨false, none, 0, some taker.saved⟩ = some kv') :
      Consumed log label s kv'

namespace Consumed

variable {log : List Op} {p r : Nat} {kv : KVServer}

/-- The maps are those of a server that has consumed what they have seen and was never
restored. -/
theorem sameStore (consumed : Consumed log p r kv) :
    p ≤ r ∧ kv.SameStore (KVServer.start.applyOps (log.take r)) := by
  induction consumed with
  | start => exact ⟨le_rfl, .refl _⟩
  | @command p r kv kv' op _ next applied ih =>
      obtain ⟨ahead, same⟩ := ih
      refine ⟨le_max_right _ _, ?_⟩
      rw [KVServer.apply_command] at applied
      obtain rfl := Option.some.inj applied
      have obeyed : KVServer.SameStore
          { kv.applyOp op with curCommitIndex := max kv.curCommitIndex (p + 1) }
          ((KVServer.start.applyOps (log.take r)).applyOp op) :=
        ⟨(same.applyOp op).rsm, (same.applyOp op).maxSeq⟩
      refine obeyed.trans ?_
      rcases ahead.eq_or_lt with rfl | seen
      · -- The next command of the log.
        rw [max_eq_right (Nat.le_succ p), List.take_add_one, next, KVServer.applyOps,
          KVServer.applyOps, List.foldl_append]
        exact .refl _
      · -- A command the maps have seen.
        rw [max_eq_left seen]
        have old : op ∈ log.take r :=
          List.mem_of_getElem? ((List.getElem?_take_of_lt seen).trans next)
        have covers : (KVServer.start.applyOps (log.take r)).Covers [op] := by
          intro other member
          rw [List.mem_singleton.1 member]
          exact KVServer.covers_applyOps _ _ op old
        exact covers.applyOps
  | newClient _ client ih => exact ⟨ih.1, (KVServer.SameStore.addClient _ client).trans ih.2⟩
  | restore _ _ labelled restored _ ih =>
      rw [KVServer.apply_snapshot] at restored
      obtain rfl := Option.some.inj restored
      exact ⟨labelled.trans ih.1, ⟨ih.2.rsm, ih.2.maxSeq⟩⟩

end Consumed

/-- Restoring the maps captured after `xs ++ ys` and applying `ys ++ zs` gives the same store and
recorded numbers as applying `xs ++ ys ++ zs` from the start, with new clients added anywhere.
So servers that have consumed the same part of the log, at or beyond the points at which the
snapshots they went through were captured, have the same store. -/
theorem replay_converges :
    (∀ (xs ys zs : List Op) (captured replayed straight : List Event) (kv : KVServer),
      captured.filterMap Event.op = xs ++ ys → replayed.filterMap Event.op = ys ++ zs →
        straight.filterMap Event.op = xs ++ ys ++ zs →
          KVServer.SameStore
            ((kv.restore (KVServer.start.runEvents captured).saved).runEvents replayed)
            (KVServer.start.runEvents straight)) ∧
      ∀ (log : List Op) (p r r' : Nat) (kv kv' : KVServer), Consumed log p r kv →
        Consumed log p r' kv' → r ≤ p → r' ≤ p → kv.SameStore kv' := by
  refine ⟨fun xs ys zs captured replayed straight kv before again whole => ?_, ?_⟩
  · have taken := (KVServer.SameStore.refl .start).runEvents captured
    rw [before] at taken
    have restored : (kv.restore (KVServer.start.runEvents captured).saved).SameStore
        (KVServer.start.applyOps (xs ++ ys)) := ⟨taken.rsm, taken.maxSeq⟩
    have replay := restored.runEvents replayed
    have direct := (KVServer.SameStore.refl .start).runEvents straight
    rw [again, KVServer.applyOps, List.foldl_append] at replay
    rw [whole, KVServer.applyOps, List.foldl_append] at direct
    have covers : (KVServer.start.applyOps (xs ++ ys)).Covers ys := fun op member =>
      KVServer.covers_applyOps .start (xs ++ ys) op (List.mem_append_right xs member)
    exact (replay.trans (covers.applyOps.applyOps zs)).trans direct.symm
  · intro log p r r' kv kv' consumed consumed' reach reach'
    obtain ⟨ahead, same⟩ := consumed.sameStore
    obtain ⟨ahead', same'⟩ := consumed'.sameStore
    rw [le_antisymm reach ahead] at same
    rw [le_antisymm reach' ahead'] at same'
    exact same.trans same'.symm

/-- A snapshot captured after a `Put` and an `Append`, which is labelled with the `Put`: the
`Append` comes again. -/
theorem replay_converges_append :
    KVServer.SameStore
      ((KVServer.start.restore (KVServer.start.runEvents
        [.command ⟨5, 1, .putType, "x", "a"⟩, .newClient 7,
          .command ⟨5, 2, .appendType, "x", "b"⟩]).saved).runEvents
            [.command ⟨5, 2, .appendType, "x", "b"⟩, .command ⟨7, 1, .appendType, "x", "c"⟩])
      (KVServer.start.runEvents
        [.command ⟨5, 1, .putType, "x", "a"⟩, .command ⟨5, 2, .appendType, "x", "b"⟩,
          .command ⟨7, 1, .appendType, "x", "c"⟩]) :=
  replay_converges.1 [⟨5, 1, .putType, "x", "a"⟩] [⟨5, 2, .appendType, "x", "b"⟩]
    [⟨7, 1, .appendType, "x", "c"⟩] _ _ _ .start rfl rfl rfl

end Mit6824.KvRaft
