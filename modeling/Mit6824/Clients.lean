import Mathlib.Data.Prod.Lex
import Mit6824.Numbered
import Mit6824.Runs

/-!
# Clients of a service

A `World` is a service on several servers with the clerks of its clients. A clerk numbers its calls
and sends the request of a call to servers until one has answered. A request may reach its server
late, more than once or never, and so may an answer reach its clerk. Clerks are told apart by the
number they have drawn, so no two of them have drawn the same.

`Setting.Replicated` is what the service has to do: all that was applied anywhere is one sequence of
commands, and an answer rests on it. Then the calls are linearizable in every run in which each
client waits for its answers (`World.linearizable`). What is called and not answered yet may have
been executed and counts as returning now.

`Orderly` is what holds of the calls whatever the servers answer. `Linear` is what the steps keep:
each answer has a point in the sequence of the applied commands, and the command of a call that was
made after the answer stands behind that point.
-/

namespace Mit6824.Clients

open Linearization

/-- The servers of a service as its clients see them. -/
structure Servers (n : Nat) (α β D B : Type) where
  init : D
  step : D → B → Option D
  /-- The request that reaches a server. -/
  arrival : B → Option (Fin n × α)
  /-- What servers have answered with the step that led here. -/
  replies : D → B → List (Fin n × α × β)
  /-- The condition on a step. -/
  keeps : D → B → Bool

/-- What clerks do. -/
structure Clerks (n : Nat) (α κ χ : Type) where
  /-- The clerk that has drawn a number. -/
  make : Int → κ
  id : κ → Int
  /-- The number of the next call. -/
  next : κ → Int
  /-- The number of the first call. -/
  first : Int
  issue : κ → χ → κ × α
  /-- The clerk may send a request to the server. -/
  asks : κ → Fin n → Bool
  giveUp : κ → κ
  heard : κ → Fin n → κ

/-- A service with the clerks of its clients. -/
structure Setting (n : Nat) (α β σ D B κ χ : Type) where
  /-- What the service is for. -/
  object : Numbered α β σ
  /-- The condition on a command. -/
  fits : α → Bool
  servers : Servers n α β D B
  clerks : Clerks n α κ χ

/-- A call of a client, and its answer with the time it came. -/
structure Issue (α β : Type) where
  op : α
  call : Nat
  answer : Option (β × Nat)
  deriving DecidableEq

structure World (n : Nat) (α β D κ : Type) where
  servers : D
  clerks : Int → κ
  issues : List (Issue α β)
  /-- The requests that were sent to a server. -/
  asked : List (Fin n × α)
  answers : List (Fin n × α × β)
  /-- The steps so far. -/
  now : Nat

inductive WorldAction (n : Nat) (B χ : Type) where
  | invoke (client : Int) (call : χ)
  /-- The clerk sends the request of a call to a server. -/
  | ask (issue : Nat) (server : Fin n)
  /-- The server has refused, or there was no answer. -/
  | giveUp (issue : Nat)
  /-- An answer reaches the clerk. -/
  | receive (issue answer : Nat)
  /-- A step of the servers and the network. -/
  | serve (action : B)
  deriving DecidableEq

variable {n : Nat} {α β σ D B κ χ : Type}

/-- What a clerk does with its numbers. -/
structure Clerks.Lawful (clerks : Clerks n α κ χ) (object : Numbered α β σ) : Prop where
  make : ∀ client, clerks.id (clerks.make client) = client ∧
    clerks.next (clerks.make client) = clerks.first
  issued : ∀ clerk call, object.client (clerks.issue clerk call).2 = clerks.id clerk ∧
    object.number (clerks.issue clerk call).2 = clerks.next clerk
  issue : ∀ clerk call, clerks.id (clerks.issue clerk call).1 = clerks.id clerk ∧
    clerks.next (clerks.issue clerk call).1 = clerks.next clerk + 1
  giveUp : ∀ clerk, clerks.id (clerks.giveUp clerk) = clerks.id clerk ∧
    clerks.next (clerks.giveUp clerk) = clerks.next clerk
  heard : ∀ clerk server, clerks.id (clerks.heard clerk server) = clerks.id clerk ∧
    clerks.next (clerks.heard clerk server) = clerks.next clerk

namespace Setting

/-- The clerks number their calls one by one. -/
abbrev Lawful (S : Setting n α β σ D B κ χ) : Prop := S.clerks.Lawful S.object

/-- The commands are as clerks make them. -/
abbrev Regular (S : Setting n α β σ D B κ χ) (P : α → Prop) : Prop :=
  S.object.Regular S.fits S.clerks.first P

/-- The servers apply one sequence of commands, and what they answer rests on it. -/
structure Replicated (S : Setting n α β σ D B κ χ) (Sound : (α → Prop) → List α → D → Prop) :
    Prop where
  init : ∀ P, Sound P [] S.servers.init
  mono : ∀ {P P' : α → Prop} {ops d}, Sound P ops d → (∀ op, P op → P' op) → Sound P' ops d
  asked : ∀ {P ops d op}, Sound P ops d → op ∈ ops → P op
  step : ∀ {P ops d action d'}, Sound P ops d → S.Regular P → S.servers.keeps d action = true →
    (∀ i op, S.servers.arrival action = some (i, op) → P op) → S.servers.step d action = some d' →
      ∃ more, Sound P (ops ++ more) d'
  replied : ∀ {P ops d action d' i op value}, Sound P ops d → S.Regular P →
    S.servers.keeps d action = true → S.servers.step d action = some d' →
    (i, op, value) ∈ S.servers.replies d' action → P op ∧ S.object.Answered ops op value

end Setting

namespace World

/-- A clerk for each number, and no calls yet. -/
def init (S : Setting n α β σ D B κ χ) : World n α β D κ :=
  { servers := S.servers.init, clerks := S.clerks.make, issues := [], asked := [], answers := []
    now := 0 }

/-- The commands of the calls. -/
def issued (s : World n α β D κ) : List α := s.issues.map Issue.op

def step [DecidableEq α] (S : Setting n α β σ D B κ χ) (s : World n α β D κ) :
    WorldAction n B χ → Option (World n α β D κ)
  | .invoke client call =>
      let (clerk, op) := S.clerks.issue (s.clerks client) call
      some { s with
        clerks := Function.update s.clerks client clerk
        issues := s.issues ++ [⟨op, s.now, none⟩]
        now := s.now + 1 }
  | .ask k server =>
      match s.issues[k]? with
      | none => none
      | some issue =>
          if issue.answer.isNone && S.clerks.asks (s.clerks (S.object.client issue.op)) server then
            some { s with asked := s.asked ++ [(server, issue.op)], now := s.now + 1 }
          else none
  | .giveUp k =>
      match s.issues[k]? with
      | none => none
      | some issue =>
          if issue.answer.isNone then
            let client := S.object.client issue.op
            some { s with
              clerks := Function.update s.clerks client (S.clerks.giveUp (s.clerks client))
              now := s.now + 1 }
          else none
  | .receive k m =>
      match s.issues[k]?, s.answers[m]? with
      | some issue, some (server, op, value) =>
          if issue.answer.isNone ∧ op = issue.op then
            let client := S.object.client op
            some { s with
              issues := s.issues.set k { issue with answer := some (value, s.now) }
              clerks := Function.update s.clerks client (S.clerks.heard (s.clerks client) server)
              now := s.now + 1 }
          else none
      | _, _ => none
  | .serve action =>
      if (S.servers.arrival action).all (· ∈ s.asked) then
        (S.servers.step s.servers action).map fun d =>
          { s with
            servers := d
            answers := s.answers ++ S.servers.replies d action
            now := s.now + 1 }
      else none

/-- A client waits for its answers, and its commands meet their condition. So do the steps of the
servers. -/
def keepsTurns (S : Setting n α β σ D B κ χ) (s : World n α β D κ) :
    WorldAction n B χ → Bool
  | .invoke client call =>
      (s.issues.all fun issue => S.object.client issue.op ≠ client ∨ issue.answer.isSome) &&
        S.fits (S.clerks.issue (s.clerks client) call).2
  | .serve action => S.servers.keeps s.servers action
  | _ => true

def Keeps (S : Setting n α β σ D B κ χ) (s : World n α β D κ) (action : WorldAction n B χ) :
    Prop :=
  s.keepsTurns S action = true

instance (S : Setting n α β σ D B κ χ) (s : World n α β D κ) (action : WorldAction n B χ) :
    Decidable (s.Keeps S action) :=
  inferInstanceAs (Decidable (s.keepsTurns S action = true))

end World

namespace Issue

/-- When something happened to the call. -/
def times (issue : Issue α β) : List Nat := issue.call :: (issue.answer.map Prod.snd).toList

/-- What the call was answered. -/
def result (issue : Issue α β) : Option β := issue.answer.map Prod.fst

/-- When the call returned; a call that is open returns now. -/
def returned (issue : Issue α β) (now : Nat) : Nat := (issue.answer.map Prod.snd).getD now

/-- An answer came for the call at position `k`. -/
theorem of_set {issues : List (Issue α β)} {k j : Nat} {issue later : Issue α β} {value : β}
    {now : Nat} (found : issues[k]? = some issue)
    (after : (issues.set k { issue with answer := some (value, now) })[j]? = some later) :
    ∃ before, issues[j]? = some before ∧ later.op = before.op ∧ later.call = before.call ∧
      (j ≠ k ∧ later = before ∨
        j = k ∧ before = issue ∧ later.answer = some (value, now)) := by
  have inside := (List.getElem?_eq_some_iff.1 found).1
  by_cases same : j = k
  · subst same
    rw [List.getElem?_set_self inside] at after
    obtain rfl := Option.some.inj after
    exact ⟨issue, found, rfl, rfl, Or.inr ⟨rfl, rfl, rfl⟩⟩
  · rw [List.getElem?_set_ne (Ne.symm same)] at after
    exact ⟨later, after, rfl, rfl, Or.inl ⟨same, rfl⟩⟩

/-- A call was added at the end. -/
theorem of_append {issues : List (Issue α β)} {issue later : Issue α β} {k : Nat}
    (found : (issues ++ [issue])[k]? = some later) :
    issues[k]? = some later ∨ k = issues.length ∧ later = issue := by
  rcases lt_or_ge k issues.length with old | new
  · rw [List.getElem?_append_left old] at found
    exact Or.inl found
  · rw [List.getElem?_append_right new] at found
    obtain ⟨inside, equal⟩ := List.getElem?_eq_some_iff.1 found
    rw [List.length_singleton] at inside
    exact Or.inr ⟨by omega, by simpa using equal.symm⟩

end Issue

/-- An element is replaced by one that looks the same. -/
theorem map_set_of_eq {γ δ : Type} {f : γ → δ} {l : List γ} {k : Nat} {a b : γ}
    (found : l[k]? = some a) (same : f b = f a) : (l.set k b).map f = l.map f := by
  obtain ⟨inside, equal⟩ := List.getElem?_eq_some_iff.1 found
  rw [List.map_set, same, ← equal, ← List.getElem_map f, List.set_getElem_self]
  rwa [List.length_map]

/-! ## Calls in order -/

namespace World

variable {S : Setting n α β σ D B κ χ} {s s' : World n α β D κ}

theorem mem_issued {op : α} : op ∈ s.issued ↔
    ∃ (k : Nat) (issue : Issue α β), s.issues[k]? = some issue ∧ issue.op = op := by
  simp only [issued, List.mem_iff_getElem?, List.getElem?_map, Option.map_eq_some_iff]

/-- The clerks have the numbers they had. -/
def SameNumbers (S : Setting n α β σ D B κ χ) (s s' : World n α β D κ) : Prop :=
  ∀ client, S.clerks.id (s'.clerks client) = S.clerks.id (s.clerks client) ∧
    S.clerks.next (s'.clerks client) = S.clerks.next (s.clerks client)

theorem sameNumbers_update {client : Int} {clerk : κ}
    (clerks : s'.clerks = Function.update s.clerks client clerk)
    (same : S.clerks.id clerk = S.clerks.id (s.clerks client) ∧
      S.clerks.next clerk = S.clerks.next (s.clerks client)) :
    SameNumbers S s s' := by
  intro other
  rw [clerks]
  by_cases here : other = client
  · subst here
    rw [Function.update_self]
    exact same
  · rw [Function.update_of_ne here]
    exact ⟨rfl, rfl⟩

/-- The calls of a client are numbered in order, and each but the last has returned. Nothing
happened at the same time. -/
structure Orderly (S : Setting n α β σ D B κ χ) (s : World n α β D κ) : Prop where
  clerk : ∀ client, S.clerks.id (s.clerks client) = client ∧
    S.clerks.first ≤ S.clerks.next (s.clerks client)
  numbered : ∀ issue ∈ s.issues, S.clerks.first ≤ S.object.number issue.op ∧
    S.object.number issue.op < S.clerks.next (s.clerks (S.object.client issue.op)) ∧
      S.fits issue.op = true
  turns : ∀ {k l : Nat} {a b : Issue α β}, s.issues[k]? = some a → s.issues[l]? = some b → k < l →
    S.object.client a.op = S.object.client b.op →
      S.object.number a.op < S.object.number b.op ∧ a.answer.isSome = true
  times : ∀ issue ∈ s.issues, issue.call < s.now ∧
    ∀ value t, issue.answer = some (value, t) → issue.call < t ∧ t < s.now
  distinct : ∀ {k l : Nat} {a b : Issue α β} {t : Nat}, s.issues[k]? = some a →
    s.issues[l]? = some b → t ∈ a.times → t ∈ b.times → k = l

theorem orderly_init (lawful : S.Lawful) : (init S).Orderly S where
  clerk client := ⟨(lawful.make client).1, (lawful.make client).2.ge⟩
  numbered issue member := absurd member List.not_mem_nil
  turns found := by simp [init] at found
  times issue member := absurd member List.not_mem_nil
  distinct found := by simp [init] at found

namespace Orderly

theorem time_lt (orderly : s.Orderly S) {issue : Issue α β} (member : issue ∈ s.issues) {t : Nat}
    (happened : t ∈ issue.times) : t < s.now := by
  obtain ⟨called, returned⟩ := orderly.times issue member
  rcases List.mem_cons.1 happened with rfl | answered
  · exact called
  · obtain ⟨⟨value, t'⟩, answer, rfl⟩ := Option.map_eq_some_iff.1 (Option.mem_toList.1 answered)
    exact (returned value t' answer).2

/-- A client and a number make one call. -/
theorem position_eq (orderly : s.Orderly S) {k l : Nat} {a b : Issue α β}
    (found : s.issues[k]? = some a) (found' : s.issues[l]? = some b)
    (client : S.object.client a.op = S.object.client b.op)
    (number : S.object.number a.op = S.object.number b.op) : k = l := by
  rcases Nat.lt_trichotomy k l with before | same | after
  · exact absurd number (orderly.turns found found' before client).1.ne
  · exact same
  · exact absurd number.symm (orderly.turns found' found after client.symm).1.ne

theorem regular (orderly : s.Orderly S) : S.Regular (· ∈ s.issued) := by
  refine ⟨fun op member => ?_, fun op member => ?_, fun op op' member member' client number => ?_⟩
  · obtain ⟨k, a, found, rfl⟩ := mem_issued.1 member
    exact (orderly.numbered a (List.mem_of_getElem? found)).2.2
  · obtain ⟨k, a, found, rfl⟩ := mem_issued.1 member
    exact (orderly.numbered a (List.mem_of_getElem? found)).1
  · obtain ⟨k, a, found, rfl⟩ := mem_issued.1 member
    obtain ⟨l, b, found', rfl⟩ := mem_issued.1 member'
    obtain rfl := orderly.position_eq found found' client number
    obtain rfl := Option.some.inj (found.symm.trans found')
    rfl

theorem invoke (orderly : s.Orderly S) (lawful : S.Lawful) (client : Int) (call : χ)
    (waits : ∀ issue ∈ s.issues, S.object.client issue.op = client → issue.answer.isSome = true)
    (fits : S.fits (S.clerks.issue (s.clerks client) call).2 = true)
    (clerks : s'.clerks =
      Function.update s.clerks client (S.clerks.issue (s.clerks client) call).1)
    (issues : s'.issues = s.issues ++ [⟨(S.clerks.issue (s.clerks client) call).2, s.now, none⟩])
    (now : s'.now = s.now + 1) : s'.Orderly S := by
  obtain ⟨own, number⟩ := lawful.issued (s.clerks client) call
  obtain ⟨id, next⟩ := lawful.issue (s.clerks client) call
  obtain ⟨here, above⟩ := orderly.clerk client
  rw [here] at own
  refine ⟨fun other => ?_, fun issue member => ?_, fun {k l a b} found found' before same => ?_,
    fun issue member => ?_, fun {k l a b t} found found' first second => ?_⟩
  · rw [clerks]
    by_cases same : other = client
    · subst same
      rw [Function.update_self, id, next]
      exact ⟨here, by omega⟩
    · rw [Function.update_of_ne same]
      exact orderly.clerk other
  · rw [issues] at member
    rw [clerks]
    rcases List.mem_append.1 member with old | new
    · obtain ⟨low, below, fit⟩ := orderly.numbered issue old
      refine ⟨low, ?_, fit⟩
      by_cases same : S.object.client issue.op = client
      · rw [same] at below
        rw [same, Function.update_self, next]
        omega
      · rw [Function.update_of_ne same]
        exact below
    · rw [List.mem_singleton.1 new]
      dsimp only
      rw [own, Function.update_self, number, next]
      exact ⟨above, by omega, fits⟩
  · rw [issues] at found found'
    rcases Issue.of_append found with old | ⟨rfl, rfl⟩
    · rcases Issue.of_append found' with old' | ⟨rfl, rfl⟩
      · exact orderly.turns old old' before same
      · have member := List.mem_of_getElem? old
        obtain ⟨_, below, _⟩ := orderly.numbered a member
        dsimp only at same ⊢
        rw [own] at same
        rw [same] at below
        rw [number]
        exact ⟨below, waits a member same⟩
    · have inside := (List.getElem?_eq_some_iff.1 found').1
      rw [List.length_append, List.length_singleton] at inside
      omega
  · rw [issues] at member
    rw [now]
    rcases List.mem_append.1 member with old | new
    · obtain ⟨called, returned⟩ := orderly.times issue old
      refine ⟨by omega, fun value t answer => ?_⟩
      obtain ⟨after, before⟩ := returned value t answer
      exact ⟨after, by omega⟩
    · rw [List.mem_singleton.1 new]
      exact ⟨Nat.lt_succ_self _, fun value t answer => by cases answer⟩
  · rw [issues] at found found'
    rcases Issue.of_append found with old | ⟨rfl, rfl⟩
    · rcases Issue.of_append found' with old' | ⟨rfl, rfl⟩
      · exact orderly.distinct old old' first second
      · have early := orderly.time_lt (List.mem_of_getElem? old) first
        obtain rfl : t = s.now := by simpa [Issue.times] using second
        exact absurd early (lt_irrefl _)
    · rcases Issue.of_append found' with old' | ⟨rfl, rfl⟩
      · have early := orderly.time_lt (List.mem_of_getElem? old') second
        obtain rfl : t = s.now := by simpa [Issue.times] using first
        exact absurd early (lt_irrefl _)
      · rfl

/-- Time passes. -/
theorem tick (orderly : s.Orderly S) (numbers : SameNumbers S s s')
    (issues : s'.issues = s.issues) (now : s.now ≤ s'.now) : s'.Orderly S where
  clerk client := by
    rw [(numbers client).1, (numbers client).2]
    exact orderly.clerk client
  numbered issue member := by
    rw [issues] at member
    rw [(numbers _).2]
    exact orderly.numbered issue member
  turns := by
    rw [issues]
    exact orderly.turns
  times issue member := by
    rw [issues] at member
    obtain ⟨called, returned⟩ := orderly.times issue member
    refine ⟨by omega, fun value t answer => ?_⟩
    obtain ⟨after, before⟩ := returned value t answer
    exact ⟨after, by omega⟩
  distinct := by
    rw [issues]
    exact orderly.distinct

theorem receive (orderly : s.Orderly S) {k : Nat} {issue : Issue α β} {value : β}
    (found : s.issues[k]? = some issue) (waiting : issue.answer = none)
    (numbers : SameNumbers S s s')
    (issues : s'.issues = s.issues.set k { issue with answer := some (value, s.now) })
    (now : s'.now = s.now + 1) : s'.Orderly S := by
  have called := (orderly.times issue (List.mem_of_getElem? found)).1
  have before : ∀ {j : Nat} {b : Issue α β}, s'.issues[j]? = some b → ∃ b₀, s.issues[j]? = some b₀ ∧
      b.op = b₀.op ∧ b.call = b₀.call ∧
      (j ≠ k ∧ b = b₀ ∨ j = k ∧ b₀ = issue ∧ b.answer = some (value, s.now)) := by
    intro j b after
    rw [issues] at after
    exact Issue.of_set found after
  have happened : ∀ {j : Nat} {b b₀ : Issue α β} {t : Nat}, s.issues[j]? = some b₀ →
      b.call = b₀.call → (j ≠ k ∧ b = b₀ ∨ j = k ∧ b₀ = issue ∧ b.answer = some (value, s.now)) →
      t ∈ b.times → t ∈ b₀.times ∨ j = k ∧ t = s.now := by
    rintro j b b₀ t _ same (⟨_, rfl⟩ | ⟨own, _, answer⟩) there
    · exact Or.inl there
    · rw [Issue.times, answer, same] at there
      rcases List.mem_cons.1 there with rfl | returned
      · exact Or.inl List.mem_cons_self
      · exact Or.inr ⟨own, by simpa using returned⟩
  refine ⟨fun client => ?_, fun b member => ?_, fun {j l a b} at' at'' less same => ?_,
    fun b member => ?_, fun {j l a b t} at' at'' here there => ?_⟩
  · rw [(numbers client).1, (numbers client).2]
    exact orderly.clerk client
  · obtain ⟨j, at'⟩ := List.mem_iff_getElem?.1 member
    obtain ⟨b₀, old, op, _⟩ := before at'
    rw [(numbers _).2, op]
    exact orderly.numbered b₀ (List.mem_of_getElem? old)
  · obtain ⟨a₀, old, op, _, answer⟩ := before at'
    obtain ⟨b₀, old', op', _⟩ := before at''
    rw [op, op'] at same ⊢
    obtain ⟨number, answered⟩ := orderly.turns old old' less same
    refine ⟨number, ?_⟩
    rcases answer with ⟨_, rfl⟩ | ⟨_, rfl, _⟩
    · exact answered
    · rw [waiting] at answered
      cases answered
  · obtain ⟨j, at'⟩ := List.mem_iff_getElem?.1 member
    obtain ⟨b₀, old, _, call, answer⟩ := before at'
    obtain ⟨early, returned⟩ := orderly.times b₀ (List.mem_of_getElem? old)
    rw [now, call]
    refine ⟨by omega, fun v t there => ?_⟩
    rcases answer with ⟨_, rfl⟩ | ⟨_, rfl, answer⟩
    · obtain ⟨after, before⟩ := returned v t there
      exact ⟨after, by omega⟩
    · rw [answer] at there
      cases there
      exact ⟨called, Nat.lt_succ_self _⟩
  · obtain ⟨a₀, old, _, call, answer⟩ := before at'
    obtain ⟨b₀, old', _, call', answer'⟩ := before at''
    rcases happened old call answer here with early | ⟨own, rfl⟩
    · rcases happened old' call' answer' there with early' | ⟨own', rfl⟩
      · exact orderly.distinct old old' early early'
      · exact absurd (orderly.time_lt (List.mem_of_getElem? old) early) (lt_irrefl _)
    · rcases happened old' call' answer' there with early' | ⟨own', _⟩
      · exact absurd (orderly.time_lt (List.mem_of_getElem? old') early') (lt_irrefl _)
      · exact own.trans own'.symm

theorem nodup (orderly : s.Orderly S) : s.issues.Nodup := by
  refine List.nodup_iff_getElem?_ne_getElem?.2 fun k l before inside equal => ?_
  have found := List.getElem?_eq_getElem inside
  have same := orderly.position_eq (equal.trans found) found rfl rfl
  omega

theorem eq_of_op (orderly : s.Orderly S) {a b : Issue α β} (member : a ∈ s.issues)
    (member' : b ∈ s.issues) (same : a.op = b.op) : a = b := by
  obtain ⟨k, found⟩ := List.mem_iff_getElem?.1 member
  obtain ⟨l, found'⟩ := List.mem_iff_getElem?.1 member'
  obtain rfl := orderly.position_eq found found' (by rw [same]) (by rw [same])
  exact Option.some.inj (found.symm.trans found')

/-- What was over before a call was made was called before it. -/
theorem call_lt (orderly : s.Orderly S) {a b : Issue α β} (member : a ∈ s.issues)
    (before : a.returned s.now < b.call) : a.call < b.call := by
  obtain ⟨early, returned⟩ := orderly.times a member
  cases answer : a.answer with
  | none =>
      simp only [Issue.returned, answer, Option.map_none, Option.getD_none] at before
      omega
  | some given =>
      obtain ⟨value, t⟩ := given
      have order := (returned value t answer).1
      simp only [Issue.returned, answer, Option.map_some, Option.getD_some] at before
      omega

end Orderly

/-! ## Points of the answers -/

structure Linear (S : Setting n α β σ D B κ χ) (Sound : (α → Prop) → List α → D → Prop)
    (s : World n α β D κ) (ops : List α) (point : Nat → Nat) : Prop where
  orderly : s.Orderly S
  sound : Sound (· ∈ s.issued) ops s.servers
  asked : ∀ request ∈ s.asked, request.2 ∈ s.issued
  answers : ∀ {i op value}, (i, op, value) ∈ s.answers →
    ∃ p, S.object.Placed ops op (some value) p
  answered : ∀ {k : Nat} {issue : Issue α β} {value : β} {t : Nat}, s.issues[k]? = some issue →
    issue.answer = some (value, t) → S.object.Placed ops issue.op (some value) (point k)
  after : ∀ {k l : Nat} {a b : Issue α β} {value : β} {t g : Nat}, s.issues[k]? = some a →
    a.answer = some (value, t) → s.issues[l]? = some b → t < b.call → ops[g]? = some b.op →
      S.object.rank a.op (point k) ≤ 2 * g

variable {Sound : (α → Prop) → List α → D → Prop} {ops : List α} {point : Nat → Nat}

theorem linear_init (lawful : S.Lawful) (replicated : S.Replicated Sound) :
    (init S).Linear S Sound [] fun _ => 0 where
  orderly := orderly_init lawful
  sound := replicated.init _
  asked request member := absurd member List.not_mem_nil
  answers member := by simp [init] at member
  answered found := by simp [init] at found
  after found := by simp [init] at found

namespace Linear

/-- A write whose number was reached was executed: either it is the last write of its client that
was, or its client has got the answer before it went on. -/
theorem executes_of_reached (linear : s.Linear S Sound ops point)
    (replicated : S.Replicated Sound) {op other : α} (asked : op ∈ s.issued)
    (write : S.object.isWrite op = true) (member : other ∈ ops)
    (write' : S.object.isWrite other = true)
    (client : S.object.client other = S.object.client op)
    (reached : S.object.number op ≤ S.object.number other) : ∃ k, S.object.Executes ops k op := by
  obtain ⟨k, a, found, rfl⟩ := mem_issued.1 asked
  obtain ⟨g, applied⟩ := List.mem_iff_getElem?.1 member
  obtain ⟨m, last, executes, client', number⟩ := Numbered.exists_executes applied write'
  obtain ⟨l, b, found', rfl⟩ :=
    mem_issued.1 (replicated.asked linear.sound (List.mem_of_getElem? executes.found))
  have same := client'.trans client
  rcases Nat.lt_trichotomy k l with before | rfl | after
  · obtain ⟨_, answered⟩ := linear.orderly.turns found found' before same.symm
    obtain ⟨⟨value, t⟩, answer⟩ := Option.isSome_iff_exists.1 answered
    exact ⟨point k, (linear.answered found answer).write write⟩
  · obtain rfl := Option.some.inj (found.symm.trans found')
    exact ⟨m, executes⟩
  · have less := (linear.orderly.turns found' found after same).1
    omega

/-- What a server has answered was executed or read. -/
theorem placed_reply (linear : s.Linear S Sound ops point) (replicated : S.Replicated Sound)
    {action : B} {d : D} (kept : S.servers.keeps s.servers action = true)
    (next : S.servers.step s.servers action = some d) {i : Fin n} {op : α}
    {value : β} (replied : (i, op, value) ∈ S.servers.replies d action) :
    ∃ p, S.object.Placed ops op (some value) p := by
  have regular := linear.orderly.regular
  obtain ⟨asked, answered⟩ := replicated.replied linear.sound regular kept next replied
  cases write : S.object.isWrite op with
  | true =>
      obtain ⟨other, member, write', client, reached⟩ := answered.write write
      obtain ⟨k, executes⟩ :=
        linear.executes_of_reached replicated asked write member write' client reached
      exact ⟨k, fun _ => executes, fun read => by rw [write] at read; cases read⟩
  | false =>
      obtain ⟨other, g, r, client, number, reads⟩ := answered.read write
      have known := replicated.asked linear.sound (List.mem_of_getElem? reads.found)
      obtain rfl := regular.once other op known asked client number
      exact ⟨r, fun write' => absurd write' (by simp [write]), fun _ => ⟨g, value, rfl, reads⟩⟩

theorem invoke (linear : s.Linear S Sound ops point) (lawful : S.Lawful)
    (replicated : S.Replicated Sound) {client : Int} {call : χ}
    (kept : s.Keeps S (.invoke client call)) :
    Linear S Sound { s with
      clerks := Function.update s.clerks client (S.clerks.issue (s.clerks client) call).1
      issues := s.issues ++ [⟨(S.clerks.issue (s.clerks client) call).2, s.now, none⟩]
      now := s.now + 1 } ops point := by
  simp only [Keeps, keepsTurns, Bool.and_eq_true, List.all_eq_true, decide_eq_true_eq] at kept
  obtain ⟨waits, fits⟩ := kept
  obtain ⟨own, number⟩ := lawful.issued (s.clerks client) call
  have here := (linear.orderly.clerk client).1
  generalize issuing : (S.clerks.issue (s.clerks client) call).2 = op at *
  have more : ∀ other ∈ s.issued,
      other ∈ (s.issues ++ [(⟨op, s.now, none⟩ : Issue α β)]).map Issue.op := by
    intro other member
    rw [List.map_append]
    exact List.mem_append_left _ member
  refine ⟨?_, replicated.mono linear.sound more, ?_, linear.answers, ?_, ?_⟩
  · refine linear.orderly.invoke lawful client call ?_ ?_ rfl ?_ rfl
    · exact fun issue member same => (waits issue member).resolve_left fun apart => apart same
    · rwa [issuing]
    · rw [issuing]
  · exact fun request member => more _ (linear.asked request member)
  · intro k issue value t found answer
    rcases Issue.of_append found with old | ⟨_, rfl⟩
    · exact linear.answered old answer
    · cases answer
  · intro k l a b value t g found answer found' before applied
    rcases Issue.of_append found with old | ⟨_, rfl⟩
    swap
    · cases answer
    rcases Issue.of_append found' with old' | ⟨_, rfl⟩
    · exact linear.after old answer old' before applied
    · -- Nobody has heard of the new call yet.
      obtain ⟨_, c, known, same⟩ :=
        mem_issued.1 (replicated.asked linear.sound (List.mem_of_getElem? applied))
      have below := (linear.orderly.numbered c (List.mem_of_getElem? known)).2.1
      rw [same, own, here, number] at below
      exact absurd below (lt_irrefl _)

/-- A clerk sends a request, or it gives up one. -/
theorem tick (linear : s.Linear S Sound ops point) (servers : s'.servers = s.servers)
    (numbers : SameNumbers S s s') (issues : s'.issues = s.issues)
    (answers : s'.answers = s.answers) (asked : ∀ request ∈ s'.asked, request.2 ∈ s.issued)
    (now : s.now ≤ s'.now) : s'.Linear S Sound ops point := by
  have issued : s'.issued = s.issued := by rw [issued, issues, World.issued]
  refine ⟨linear.orderly.tick numbers issues now, ?_, ?_, ?_, ?_, ?_⟩
  · rw [servers, issued]
    exact linear.sound
  · rwa [issued]
  · rw [answers]
    exact linear.answers
  · rw [issues]
    exact linear.answered
  · rw [issues]
    exact linear.after

/-- The answer gets the point at which it was executed or read. -/
theorem receive (linear : s.Linear S Sound ops point) {k : Nat} {issue : Issue α β} {i : Fin n}
    {value : β} (found : s.issues[k]? = some issue) (waiting : issue.answer = none)
    (given : (i, issue.op, value) ∈ s.answers) (servers : s'.servers = s.servers)
    (numbers : SameNumbers S s s')
    (issues : s'.issues = s.issues.set k { issue with answer := some (value, s.now) })
    (asked : s'.asked = s.asked) (answers : s'.answers = s.answers) (now : s'.now = s.now + 1) :
    ∃ point', s'.Linear S Sound ops point' := by
  obtain ⟨p, placed⟩ := linear.answers given
  have issued : s'.issued = s.issued := by
    rw [World.issued, issues]
    exact map_set_of_eq found rfl
  refine ⟨Function.update point k p,
    linear.orderly.receive found waiting numbers issues now, ?_, ?_, ?_, ?_, ?_⟩
  · rw [servers, issued]
    exact linear.sound
  · rw [asked, issued]
    exact linear.asked
  · rw [answers]
    exact linear.answers
  · intro j later value' t after answer
    rw [issues] at after
    obtain ⟨before, known, op, _, ⟨other, rfl⟩ | ⟨rfl, rfl, answer'⟩⟩ := Issue.of_set found after
    · rw [Function.update_of_ne other]
      exact linear.answered known answer
    · rw [answer'] at answer
      cases answer
      rw [Function.update_self, op]
      exact placed
  · intro j l a b value' t g after answer after' early applied
    rw [issues] at after after'
    obtain ⟨a₀, known, op, _, cases⟩ := Issue.of_set found after
    obtain ⟨b₀, known', op', call, _⟩ := Issue.of_set found after'
    rw [call] at early
    rw [op'] at applied
    rcases cases with ⟨other, rfl⟩ | ⟨rfl, rfl, answer'⟩
    · rw [Function.update_of_ne other]
      exact linear.after known answer known' early applied
    · -- Nothing was called after this moment.
      rw [answer'] at answer
      cases answer
      have called := (linear.orderly.times b₀ (List.mem_of_getElem? known')).1
      omega

theorem serve (linear : s.Linear S Sound ops point) (replicated : S.Replicated Sound) {action : B}
    {d : D} (kept : S.servers.keeps s.servers action = true)
    (arrives : ∀ i op, S.servers.arrival action = some (i, op) → (i, op) ∈ s.asked)
    (next : S.servers.step s.servers action = some d) :
    ∃ more, Linear S Sound { s with
      servers := d, answers := s.answers ++ S.servers.replies d action, now := s.now + 1 }
        (ops ++ more) point := by
  obtain ⟨more, sound⟩ := replicated.step linear.sound linear.orderly.regular kept
    (fun i op arrival => linear.asked _ (arrives i op arrival)) next
  refine ⟨more, linear.orderly.tick (fun _ => ⟨rfl, rfl⟩) rfl (Nat.le_succ _), sound, linear.asked,
    ?_, ?_, ?_⟩
  · intro i op value member
    rcases List.mem_append.1 member with old | new
    · obtain ⟨p, placed⟩ := linear.answers old
      exact ⟨p, placed.append more⟩
    · obtain ⟨p, placed⟩ := linear.placed_reply replicated kept next new
      exact ⟨p, placed.append more⟩
  · exact fun found answer => (linear.answered found answer).append more
  · intro k l a b value t g found answer found' before applied
    rcases lt_or_ge g ops.length with old | new
    · rw [List.getElem?_append_left old] at applied
      exact linear.after found answer found' before applied
    · have le := (linear.answered found answer).rank_le
      omega

theorem step [DecidableEq α] (linear : s.Linear S Sound ops point) (lawful : S.Lawful)
    (replicated : S.Replicated Sound) {action : WorldAction n B χ} (kept : s.Keeps S action)
    (next : s.step S action = some s') : ∃ ops' point', s'.Linear S Sound ops' point' := by
  cases action with
  | invoke client call =>
      obtain rfl := Option.some.inj next
      exact ⟨ops, point, linear.invoke lawful replicated kept⟩
  | ask k server =>
      simp only [World.step] at next
      split at next
      · cases next
      · rename_i issue found
        split_ifs at next
        obtain rfl := Option.some.inj next
        refine ⟨ops, point,
          linear.tick rfl (fun _ => ⟨rfl, rfl⟩) rfl rfl (fun request member => ?_) (Nat.le_succ _)⟩
        rcases List.mem_append.1 member with old | new
        · exact linear.asked request old
        · rw [List.mem_singleton.1 new]
          exact mem_issued.2 ⟨k, issue, found, rfl⟩
  | giveUp k =>
      simp only [World.step] at next
      split at next
      · cases next
      · split_ifs at next
        obtain rfl := Option.some.inj next
        exact ⟨ops, point, linear.tick rfl (sameNumbers_update rfl (lawful.giveUp _)) rfl rfl
          linear.asked (Nat.le_succ _)⟩
  | receive k m =>
      simp only [World.step] at next
      split at next
      swap
      · cases next
      rename_i issue server op value found given
      split_ifs at next with fits
      obtain ⟨waiting, rfl⟩ := fits
      obtain rfl := Option.some.inj next
      exact ⟨ops, linear.receive found (Option.isNone_iff_eq_none.1 waiting)
        (List.mem_of_getElem? given) rfl (sameNumbers_update rfl (lawful.heard _ server)) rfl rfl
        rfl rfl⟩
  | serve action =>
      simp only [World.step] at next
      split_ifs at next with arrives
      obtain ⟨d, stepped, rfl⟩ := Option.map_eq_some_iff.1 next
      obtain ⟨more, linear'⟩ := linear.serve replicated kept
        (fun i op arrival => by simpa [arrival] using arrives) stepped
      exact ⟨_, point, linear'⟩

end Linear

theorem linear_of_reaches [DecidableEq α] (lawful : S.Lawful) (replicated : S.Replicated Sound)
    (run : Reaches (step S) (Keeps S) (init S) s) : ∃ ops point, s.Linear S Sound ops point := by
  refine run.invariant (fun s => ∃ ops point, s.Linear S Sound ops point)
    ⟨[], _, linear_init lawful replicated⟩ ?_
  rintro s s' action ⟨ops, point, linear⟩ kept next
  exact linear.step lawful replicated kept next

/-! ## The order of the calls -/

/-- The object takes the calls, with the answers they got, in an order that respects the times at
which they were made and answered. Every call that was answered is among them, and some that are
still open. -/
def Linearizable [DecidableEq β] (object : Numbered α β σ) (s : World n α β D κ) : Prop :=
  ∃ took : Issue α β → Bool,
    (∀ issue ∈ s.issues, issue.answer.isSome = true → took issue = true) ∧
      Completable (fun a b : Issue α β => a.returned s.now < b.call)
        (fun state issue => object.perform state issue.op issue.result)
        (s.issues.filter took) object.start

namespace Linear

/-- The calls that were answered or executed have points, and a call that was made after an answer
has its command behind the point of the answer. -/
theorem exists_points (linear : s.Linear S Sound ops point) :
    ∃ place : Issue α β → Nat, ∀ a ∈ s.issues,
      (a.answer.isSome = true ∨ ∃ k, S.object.Executes ops k a.op) →
        S.object.Placed ops a.op a.result (place a) ∧
          ∀ b ∈ s.issues, a.returned s.now < b.call → ∀ g : Nat, ops[g]? = some b.op →
            S.object.rank a.op (place a) ≤ 2 * g := by
  have each : ∀ a ∈ s.issues, ∃ p,
      (a.answer.isSome = true ∨ ∃ k, S.object.Executes ops k a.op) →
        S.object.Placed ops a.op a.result p ∧
          ∀ b ∈ s.issues, a.returned s.now < b.call → ∀ g : Nat, ops[g]? = some b.op →
            S.object.rank a.op p ≤ 2 * g := by
    intro a member
    obtain ⟨k, found⟩ := List.mem_iff_getElem?.1 member
    cases answer : a.answer with
    | some given =>
        obtain ⟨value, t⟩ := given
        have placed := linear.answered found answer
        refine ⟨point k, fun _ => ⟨by simpa [Issue.result, answer] using placed, ?_⟩⟩
        intro b member' before g applied
        obtain ⟨l, found'⟩ := List.mem_iff_getElem?.1 member'
        exact linear.after found answer found' (by simpa [Issue.returned, answer] using before)
          applied
    | none =>
        by_cases executed : ∃ m, S.object.Executes ops m a.op
        · obtain ⟨m, executes⟩ := executed
          refine ⟨m, fun _ => ⟨⟨fun _ => executes, fun read => ?_⟩, fun b member' before => ?_⟩⟩
          · rw [executes.write] at read
            cases read
          · have called := (linear.orderly.times b member').1
            simp only [Issue.returned, answer, Option.map_none, Option.getD_none] at before
            omega
        · refine ⟨0, fun reason => ?_⟩
          rcases reason with impossible | done
          · cases impossible
          · exact absurd done executed
  choose! place holds using each
  exact ⟨place, holds⟩

/-- What was over before a call was made has its point before that of the call. -/
theorem point_lt (linear : s.Linear S Sound ops point) {place : Issue α β → Nat}
    {a b : Issue α β} (member : a ∈ s.issues)
    (behind : ∀ g : Nat, ops[g]? = some b.op → S.object.rank a.op (place a) ≤ 2 * g)
    (placed : S.object.Placed ops b.op b.result (place b)) (before : a.returned s.now < b.call) :
    toLex (S.object.rank a.op (place a), a.call) <
      toLex (S.object.rank b.op (place b), b.call) := by
  have called := linear.orderly.call_lt member before
  rw [Prod.Lex.toLex_lt_toLex]
  cases write : S.object.isWrite b.op with
  | true =>
      have le := behind _ (placed.write write).found
      have last : S.object.rank b.op (place b) = 2 * place b + 1 := by simp [Numbered.rank, write]
      rw [last]
      omega
  | false =>
      obtain ⟨g, _, _, reads⟩ := placed.read write
      have le := behind g reads.found
      have later := reads.later
      have last : S.object.rank b.op (place b) = 2 * place b := by simp [Numbered.rank, write]
      rw [last]
      omega

/-- The calls that were answered or executed are taken in the order of their points. -/
theorem exists_order [DecidableEq β] (linear : s.Linear S Sound ops point)
    (replicated : S.Replicated Sound) : s.Linearizable S.object := by
  classical
  obtain ⟨place, holds⟩ := linear.exists_points
  let took : Issue α β → Bool := fun issue =>
    decide (issue.answer.isSome = true ∨ ∃ k, S.object.Executes ops k issue.op)
  have taken : ∀ a, a ∈ s.issues.filter took ↔
      a ∈ s.issues ∧ (a.answer.isSome = true ∨ ∃ k, S.object.Executes ops k a.op) := by
    intro a
    rw [List.mem_filter]
    exact and_congr_right fun _ => decide_eq_true_iff
  refine ⟨took, fun issue _ answered => decide_eq_true (Or.inl answered), ?_⟩
  refine .of_points (fun a => toLex (S.object.rank a.op (place a), a.call)) ?_ ?_
  · intro a member b member' before
    obtain ⟨issue, reason⟩ := (taken a).1 member
    obtain ⟨issue', reason'⟩ := (taken b).1 member'
    exact linear.point_lt issue ((holds a issue reason).2 b issue' before)
      (holds b issue' reason').1 before
  · intro order permutes sorted
    refine Numbered.accepted_of_points ops place (r := 0)
      (permutes.nodup_iff.2 (linear.orderly.nodup.filter _)) ?_ ?_ ?_ (fun _ _ => Nat.zero_le _) ?_
    · intro a member b member' same
      exact linear.orderly.eq_of_op ((taken a).1 (permutes.mem_iff.1 member)).1
        ((taken b).1 (permutes.mem_iff.1 member')).1 same
    · intro a member
      obtain ⟨issue, reason⟩ := (taken a).1 (permutes.mem_iff.1 member)
      exact (holds a issue reason).1
    · refine sorted.imp fun le => ?_
      exact (Prod.Lex.le_iff.1 le).elim (fun less => less.le) fun same => same.1.le
    · intro m op _ executes
      obtain ⟨k, issue, found, rfl⟩ :=
        mem_issued.1 (replicated.asked linear.sound (List.mem_of_getElem? executes.found))
      exact ⟨issue, permutes.mem_iff.2 ((taken issue).2
        ⟨List.mem_of_getElem? found, Or.inr ⟨m, executes⟩⟩), rfl⟩

end Linear

/-- In every run in which each client waits for its answers, the calls are linearizable. -/
theorem linearizable_of_replicated [DecidableEq α] [DecidableEq β] (lawful : S.Lawful)
    (replicated : S.Replicated Sound) (run : Reaches (step S) (Keeps S) (init S) s) :
    s.Linearizable S.object := by
  obtain ⟨ops, point, linear⟩ := linear_of_reaches lawful replicated run
  exact linear.exists_order replicated

end World

end Mit6824.Clients
