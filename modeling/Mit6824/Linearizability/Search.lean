import Mit6824.Linearizability.Entries

/-!
# The search decides

Wherever the search stands, the list holds the entries of the operations that have not been
placed, and every set and state in the cache either is one that the search is still inside of or
leads nowhere. So what the cache cuts off leads nowhere: the search is inside of smaller sets only.
From any placement the search either finds an order for what is left or comes to the first
return with everything as it was, and then nothing that could come first can be completed
(`Exploring.explore`).
-/

namespace Mit6824.Linearizability

open Linearization

variable {ι ο σ : Type} {model : Model ι ο σ} {entries : List (Entry ι ο)} {n : Nat}

/-- `Equal` is an equivalence that `Step` respects. -/
structure Model.Congruent (model : Model ι ο σ) : Prop where
  equivalence : Equivalence fun s t => model.equal s t = true
  accepts : ∀ {s t} input output, model.equal s t = true →
    (model.step s input output).1 = (model.step t input output).1
  step : ∀ {s t} input output, model.equal s t = true → (model.step s input output).1 = true →
    model.equal (model.step s input output).2 (model.step t input output).2 = true

/-! ## What is left -/

/-- The operations that have not been placed. -/
def unplaced (n : Nat) (b : Bitset) : List Nat :=
  (List.range n).filter fun id => !b.contains id

/-- Their entries. -/
def remaining (entries : List (Entry ι ο)) (b : Bitset) : List Nat :=
  (List.range entries.length).filter fun p => (entries[p]?).any fun elem => !b.contains elem.id

section Remaining

variable {b b' : Bitset} {id id' p : Nat}

theorem mem_unplaced : id ∈ unplaced n b ↔ id < n ∧ b.contains id = false := by
  simp [unplaced]

theorem mem_remaining (wellFormed : WellFormed entries n) :
    p ∈ remaining entries b ↔
      ∃ id ∈ unplaced n b, p = callIndex entries id ∨ p = returnIndex entries id := by
  simp only [remaining, List.mem_filter, List.mem_range, mem_unplaced]
  constructor
  · rintro ⟨bound, unset⟩
    have position := List.getElem?_eq_getElem bound
    rw [position, Option.any_some, Bool.not_eq_true'] at unset
    have bound' := wellFormed.ids _ (List.mem_of_getElem? position)
    exact ⟨_, ⟨bound', unset⟩, ((wellFormed.hasOperation bound').id_eq_iff position).1 rfl⟩
  · rintro ⟨id, ⟨bound, unset⟩, rfl | rfl⟩
    · obtain ⟨input, time, position⟩ := wellFormed.exists_call bound
      exact ⟨(List.getElem?_eq_some_iff.1 position).1, by simp [position, unset]⟩
    · obtain ⟨output, time, position⟩ := wellFormed.exists_return bound
      exact ⟨(List.getElem?_eq_some_iff.1 position).1, by simp [position, unset]⟩

theorem remaining_eq (entries : List (Entry ι ο)) (b : Bitset) :
    remaining entries b = entriesOf entries fun id => !b.contains id :=
  rfl

theorem remaining_sorted (entries : List (Entry ι ο)) (b : Bitset) :
    (remaining entries b).Pairwise (· < ·) := by
  rw [remaining_eq]
  exact entriesOf_sorted entries _

theorem WellFormed.callIndex_ne_returnIndex (wellFormed : WellFormed entries n) (bound : id < n)
    (bound' : id' < n) : callIndex entries id ≠ returnIndex entries id' := by
  intro same
  obtain ⟨input, time, call⟩ := wellFormed.exists_call bound
  obtain ⟨output, time', ret⟩ := wellFormed.exists_return bound'
  rw [same, ret] at call
  simp at call

theorem WellFormed.callIndex_injective (wellFormed : WellFormed entries n) (bound : id < n)
    (bound' : id' < n) (same : callIndex entries id = callIndex entries id') : id = id' := by
  obtain ⟨input, time, call⟩ := wellFormed.exists_call bound
  obtain ⟨input', time', call'⟩ := wellFormed.exists_call bound'
  rw [same, call'] at call
  simp_all

theorem WellFormed.returnIndex_injective (wellFormed : WellFormed entries n) (bound : id < n)
    (bound' : id' < n) (same : returnIndex entries id = returnIndex entries id') : id = id' := by
  obtain ⟨output, time, ret⟩ := wellFormed.exists_return bound
  obtain ⟨output', time', ret'⟩ := wellFormed.exists_return bound'
  rw [same, ret'] at ret
  simp_all

/-- There are two entries for each operation. -/
theorem WellFormed.ids_fit (wellFormed : WellFormed entries n) : n ≤ entries.length / 2 := by
  let indices := (List.range n).map (callIndex entries) ++ (List.range n).map (returnIndex entries)
  have nodup : indices.Nodup := by
    refine List.nodup_append.2 ⟨?_, ?_, ?_⟩
    · refine List.nodup_range.map_on fun id bound id' bound' => ?_
      exact wellFormed.callIndex_injective (List.mem_range.1 bound) (List.mem_range.1 bound')
    · refine List.nodup_range.map_on fun id bound id' bound' => ?_
      exact wellFormed.returnIndex_injective (List.mem_range.1 bound) (List.mem_range.1 bound')
    · simp only [List.mem_map, List.mem_range]
      rintro _ ⟨id, bound, rfl⟩ _ ⟨id', bound', rfl⟩
      exact wellFormed.callIndex_ne_returnIndex bound bound'
  have within : indices ⊆ List.range entries.length := by
    intro p member
    simp only [indices, List.mem_append, List.mem_map, List.mem_range] at member ⊢
    rcases member with ⟨id, bound, rfl⟩ | ⟨id, bound, rfl⟩
    · obtain ⟨input, time, position⟩ := wellFormed.exists_call bound
      exact (List.getElem?_eq_some_iff.1 position).1
    · obtain ⟨output, time, position⟩ := wellFormed.exists_return bound
      exact (List.getElem?_eq_some_iff.1 position).1
  have length := (List.subperm_of_subset nodup within).length_le
  simp only [indices, List.length_append, List.length_map, List.length_range] at length
  omega

theorem unplaced_placed (placed : ∀ q, b'.contains q = (decide (q = id) || b.contains q)) :
    unplaced n b' = (unplaced n b).erase id := by
  have nodup : (unplaced n b).Nodup := List.nodup_range.filter _
  rw [nodup.erase_eq_filter, unplaced, unplaced, List.filter_filter]
  refine List.filter_congr fun q _ => ?_
  rw [placed]
  cases b.contains q <;> by_cases same : q = id <;> simp [same]

theorem remaining_placed {front between back : List Nat} (wellFormed : WellFormed entries n)
    (bound : id < n) (placed : ∀ q, b'.contains q = (decide (q = id) || b.contains q))
    (split : remaining entries b =
      front ++ callIndex entries id :: (between ++ returnIndex entries id :: back)) :
    remaining entries b' = front ++ (between ++ back) := by
  rw [remaining_eq] at split ⊢
  refine (wellFormed.hasOperation bound).entriesOf_without (fun q => ?_) split
  rw [placed, Bool.not_or]

/-- A list of calls only. -/
def Calls (entries : List (Entry ι ο)) (n : Nat) (positions : List Nat) : Prop :=
  ∀ p ∈ positions, ∃ id < n, p = callIndex entries id

theorem Calls.returnIndex_notMem {positions : List Nat} (calls : Calls entries n positions)
    (wellFormed : WellFormed entries n) (bound : id < n) : returnIndex entries id ∉ positions := by
  intro member
  obtain ⟨id', bound', same⟩ := calls _ member
  exact wellFormed.callIndex_ne_returnIndex bound' bound same.symm

/-- Nothing that is left precedes a call before the first return. -/
theorem not_precedes_of_calls {front back : List Nat} (wellFormed : WellFormed entries n)
    (calls : Calls entries n front)
    (split : remaining entries b = front ++ callIndex entries id :: back) :
    ∀ id' ∈ unplaced n b, ¬Precedes entries id' id := by
  intro id' member before
  have ret : returnIndex entries id' ∈ front ++ callIndex entries id :: back :=
    split ▸ (mem_remaining wellFormed).2 ⟨id', member, .inr rfl⟩
  have sorted := split ▸ remaining_sorted entries b
  have behind : ∀ p ∈ callIndex entries id :: back, callIndex entries id ≤ p := by
    have sorted := (List.pairwise_append.1 sorted).2.1
    intro p found
    rcases List.mem_cons.1 found with rfl | found
    · exact le_rfl
    · exact ((List.pairwise_cons.1 sorted).1 p found).le
  rcases List.mem_append.1 ret with found | found
  · exact calls.returnIndex_notMem wellFormed (mem_unplaced.1 member).1 found
  · exact absurd before (not_lt.2 (behind _ found))

/-- The operation comes first and the others can follow. -/
def Completes (model : Model ι ο σ) (entries : List (Entry ι ο)) (n : Nat) (b : Bitset) (state : σ)
    (id : Nat) : Prop :=
  ∃ state', stepOf model entries state id = some state' ∧
    Completable (Precedes entries) (stepOf model entries) ((unplaced n b).erase id) state'

/-- What comes first was called before the first return. -/
theorem exists_completes {front back : List Nat} {state : σ} (wellFormed : WellFormed entries n)
    (bound : id < n) (split : remaining entries b = front ++ returnIndex entries id :: back)
    (completable : Completable (Precedes entries) (stepOf model entries) (unplaced n b) state) :
    ∃ id' < n, callIndex entries id' ∈ front ∧ Completes model entries n b state id' := by
  have last : id ∈ unplaced n b := by
    obtain ⟨id', member, same | same⟩ := (mem_remaining wellFormed).1
      (split ▸ List.mem_append_right front List.mem_cons_self)
    · exact absurd same.symm (wellFormed.callIndex_ne_returnIndex (mem_unplaced.1 member).1 bound)
    · exact wellFormed.returnIndex_injective bound (mem_unplaced.1 member).1 same ▸ member
  obtain ⟨id', member, first, completes⟩ :=
    completable.exists_first (List.ne_nil_of_mem last)
  have bound' := (mem_unplaced.1 member).1
  refine ⟨id', bound', ?_, completes⟩
  have early : callIndex entries id' < returnIndex entries id := by
    by_cases same : id = id'
    · exact same ▸ wellFormed.ordered id bound
    · have other : id ∈ (unplaced n b).erase id' := (List.mem_erase_of_ne same).2 last
      have distinct := wellFormed.callIndex_ne_returnIndex bound' bound
      have unordered : ¬returnIndex entries id < callIndex entries id' := first id other
      omega
  have call : callIndex entries id' ∈ front ++ returnIndex entries id :: back :=
    split ▸ (mem_remaining wellFormed).2 ⟨id', member, .inl rfl⟩
  have sorted := split ▸ remaining_sorted entries b
  rcases List.mem_append.1 call with found | found
  · exact found
  · rcases List.mem_cons.1 found with same | found
    · omega
    · have late := (List.pairwise_cons.1 (List.pairwise_append.1 sorted).2.1).1 _ found
      omega

end Remaining

/-! ## The cache -/

section Cache

variable {cache : Cache σ} {opens : List (CacheEntry σ)} {entry : CacheEntry σ} {b : Bitset}

/-- What is left cannot be completed from here. -/
def Dead (model : Model ι ο σ) (entries : List (Entry ι ο)) (n : Nat) (entry : CacheEntry σ) :
    Prop :=
  ¬Completable (Precedes entries) (stepOf model entries) (unplaced n entry.linearized) entry.state

def Cached (cache : Cache σ) (entry : CacheEntry σ) : Prop :=
  ∃ hash bucket, cache.lookup hash = some bucket ∧ entry ∈ bucket

theorem cached_of_mem {hash : BitVec 64} (member : entry ∈ (cache.lookup hash).getD []) :
    Cached cache entry := by
  cases bucket : cache.lookup hash with
  | none => simp [bucket] at member
  | some elems => exact ⟨hash, elems, bucket, by simpa [bucket] using member⟩

/-- All that is cached is dead, except for what the search is inside of. -/
def Sound (model : Model ι ο σ) (entries : List (Entry ι ο)) (n : Nat) (cache : Cache σ)
    (opens : List (CacheEntry σ)) : Prop :=
  ∀ entry, Cached cache entry → entry ∈ opens ∨ Dead model entries n entry

theorem Model.Congruent.follows (congruent : model.Congruent) {s t s' : σ} {id : Nat}
    (equal : model.equal s t = true) (accepts : stepOf model entries s id = some s') :
    ∃ t', stepOf model entries t id = some t' ∧ model.equal s' t' = true := by
  obtain ⟨⟨input, output⟩, operation, accepts⟩ := Option.bind_eq_some_iff.1 accepts
  have same := congruent.accepts input output equal
  have next := congruent.step input output equal
  by_cases ok : (model.step s input output).1 = true
  · obtain rfl : (model.step s input output).2 = s' := by simpa [ok] using accepts
    exact ⟨_, by simp [stepOf, operation, ← same, ok], next ok⟩
  · simp [ok] at accepts

/-- What the cache cuts off is dead. -/
theorem Sound.dead (sound : Sound model entries n cache opens) (congruent : model.Congruent)
    (inside : ∀ elem ∈ opens, elem.linearized ≠ entry.linearized)
    (hit : cacheContains model cache entry = true) : Dead model entries n entry := by
  obtain ⟨elem, member, same⟩ := List.any_eq_true.1 hit
  obtain ⟨equals, equal⟩ := Bool.and_eq_true_iff.1 same
  have linearized := Bitset.equals_iff.1 equals
  have dead := (sound elem (cached_of_mem member)).resolve_left fun member =>
    inside elem member linearized.symm
  intro completable
  rw [linearized] at completable
  exact dead (completable.simulates congruent.follows equal)

theorem Sound.insert (sound : Sound model entries n cache opens) (entry : CacheEntry σ)
    (hash : BitVec 64) :
    Sound model entries n (cache.insert hash ((cache.lookup hash).getD [] ++ [entry]))
      (entry :: opens) := by
  rintro elem ⟨hash', bucket, found, member⟩
  by_cases same : hash' = hash
  · subst same
    rw [Finmap.lookup_insert] at found
    obtain rfl := Option.some.inj found
    rcases List.mem_append.1 member with old | new
    · exact (sound elem (cached_of_mem old)).imp_left (List.mem_cons_of_mem _)
    · exact .inl (List.mem_singleton.1 new ▸ List.mem_cons_self)
  · rw [Finmap.lookup_insert_of_ne _ same] at found
    exact (sound elem ⟨hash', bucket, found, member⟩).imp_left (List.mem_cons_of_mem _)

theorem Sound.close (sound : Sound model entries n cache (entry :: opens))
    (dead : Dead model entries n entry) : Sound model entries n cache opens := by
  intro elem cached
  rcases sound elem cached with member | dead'
  · rcases List.mem_cons.1 member with rfl | member
    · exact .inr dead
    · exact .inl member
  · exact .inr dead'

end Cache

/-! ## Turns -/

/-- One turn of the loop, from one state of the search to another. -/
def Goes (model : Model ι ο σ) (entries : List (Entry ι ο)) (current next : Search σ) : Prop :=
  turn model (withHead (makeLinkedEntries entries).nodes) entries.length false current =
    some (.continues next)

/-- The loop ends here. -/
def Stops (model : Model ι ο σ) (entries : List (Entry ι ο)) (current : Search σ) (ok : Bool) :
    Prop :=
  turn model (withHead (makeLinkedEntries entries).nodes) entries.length false current =
    some (.returns ok)

abbrev Leads (model : Model ι ο σ) (entries : List (Entry ι ο)) : Search σ → Search σ → Prop :=
  Relation.ReflTransGen (Goes model entries)

section Turns

variable {current : Search σ} {id : Nat} {state' : σ}

theorem stops_of_empty (lists : current.links.Lists [entries.length]) :
    Stops model entries current true := by
  simp [Stops, turn, lists.next_head]

/-- A turn at the call of an operation. -/
theorem turn_of_call (wellFormed : WellFormed entries n) (bound : id < n)
    (more : current.links.next entries.length ≠ none)
    (here : current.entry = some (callIndex entries id)) :
    turn model (withHead (makeLinkedEntries entries).nodes) entries.length false current =
      match stepOf model entries current.state id with
      | some state' =>
          (place model (withHead (makeLinkedEntries entries).nodes) entries.length current
            (callIndex entries id) id state').map .continues
      | none =>
          some (.continues
            { current with entry := current.links.next (callIndex entries id) }) := by
  obtain ⟨input, output, operation, call, ret⟩ := wellFormed.exists_operation bound
  rw [turn, if_neg more, if_neg Bool.false_ne_true, here]
  simp only [stepOf, operation, call, ret, Option.bind_eq_bind, Option.bind_some]
  cases (model.step current.state input output).1 with
  | true => exact Option.map_eq_bind.symm
  | false => rfl

theorem goes_of_refused (wellFormed : WellFormed entries n) (bound : id < n)
    (more : current.links.next entries.length ≠ none)
    (here : current.entry = some (callIndex entries id))
    (refused : stepOf model entries current.state id = none) :
    Goes model entries current
      { current with entry := current.links.next (callIndex entries id) } := by
  rw [Goes, turn_of_call wellFormed bound more here, refused]

theorem turn_of_accepted (wellFormed : WellFormed entries n) (bound : id < n)
    (more : current.links.next entries.length ≠ none)
    (here : current.entry = some (callIndex entries id))
    (accepted : stepOf model entries current.state id = some state') :
    turn model (withHead (makeLinkedEntries entries).nodes) entries.length false current =
      (place model (withHead (makeLinkedEntries entries).nodes) entries.length current
        (callIndex entries id) id state').map .continues := by
  rw [turn_of_call wellFormed bound more here, accepted]

theorem turn_of_return (wellFormed : WellFormed entries n) (bound : id < n)
    (more : current.links.next entries.length ≠ none)
    (here : current.entry = some (returnIndex entries id)) :
    turn model (withHead (makeLinkedEntries entries).nodes) entries.length false current =
      match current.calls with
      | [] => some (.returns false)
      | callsTop :: calls =>
          (takeBack (withHead (makeLinkedEntries entries).nodes) current callsTop calls).map
            .continues := by
  obtain ⟨input, output, operation, call, ret⟩ := wellFormed.exists_operation bound
  rw [turn, if_neg more, if_neg Bool.false_ne_true, here]
  simp only [ret, Option.bind_eq_bind, Option.bind_some]
  cases current.calls with
  | nil => rfl
  | cons callsTop calls => exact Option.map_eq_bind.symm

end Turns

/-! ## Exploring -/

/-- The search has passed the calls `tried` and stands in front of `rest`. -/
structure Exploring (model : Model ι ο σ) (entries : List (Entry ι ο)) (n : Nat)
    (opens : List (CacheEntry σ)) (tried rest : List Nat) (current : Search σ) : Prop where
  split : remaining entries current.linearized = tried ++ rest
  passed : Calls entries n tried
  here : current.entry = rest.head?
  fits : current.linearized.Fits (entries.length / 2)
  lists : current.links.Lists (entries.length :: remaining entries current.linearized)
  sound : Sound model entries n current.cache opens
  inside : ∀ elem ∈ opens, ∀ id, elem.linearized.contains id = true →
    current.linearized.contains id = true

/-- The loop goes on until it returns true. -/
def Succeeds (model : Model ι ο σ) (entries : List (Entry ι ο)) (current : Search σ) : Prop :=
  ∃ final, Leads model entries current final ∧ Stops model entries final true

/-- The loop comes to the first return of `rest` with everything but the cache as it was, and no
call before it can come first. -/
def Exhausted (model : Model ι ο σ) (entries : List (Entry ι ο)) (n : Nat)
    (opens : List (CacheEntry σ)) (rest : List Nat) (current : Search σ) : Prop :=
  ∃ cache front id back, id < n ∧ rest = front ++ returnIndex entries id :: back ∧
    Leads model entries current
      { current with entry := some (returnIndex entries id), cache := cache } ∧
    Sound model entries n cache opens ∧
    ∀ id' < n, callIndex entries id' ∈ front →
      ¬Completes model entries n current.linearized current.state id'

def Explored (model : Model ι ο σ) (entries : List (Entry ι ο)) (n : Nat)
    (opens : List (CacheEntry σ)) (rest : List Nat) (current : Search σ) : Prop :=
  Succeeds model entries current ∧ Completable (Precedes entries) (stepOf model entries)
      (unplaced n current.linearized) current.state ∨
    Exhausted model entries n opens rest current

/-- The search explores whatever leaves fewer than `length` entries. -/
def ExploredBelow (model : Model ι ο σ) (entries : List (Entry ι ο)) (n length : Nat) : Prop :=
  ∀ opens current, (remaining entries current.linearized).length < length →
    Exploring model entries n opens [] (remaining entries current.linearized) current →
    Explored model entries n opens (remaining entries current.linearized) current

/-- A call is placed: what changes, and that it can be taken back. -/
structure Placed (entries : List (Entry ι ο)) (current : Search σ) (id : Nat) (b : Bitset)
    (links : Links Nat) : Prop where
  set : current.linearized.set id = some b
  clear : b.clear id = some current.linearized
  contains : ∀ q, b.contains q = (decide (q = id) || current.linearized.contains q)
  fits : b.Fits (entries.length / 2)
  lift : lift (withHead (makeLinkedEntries entries).nodes) current.links (callIndex entries id) =
    some links
  unlift : unlift (withHead (makeLinkedEntries entries).nodes) links (callIndex entries id) =
    some current.links
  lists : links.Lists (entries.length :: remaining entries b)
  fewer : (remaining entries b).length < (remaining entries current.linearized).length

section Exploring

variable {opens : List (CacheEntry σ)} {tried rest : List Nat} {current : Search σ}
  {cache : Cache σ} {id : Nat}

theorem Exploring.next_head (exploring : Exploring model entries n opens tried rest current) :
    current.links.next entries.length = (remaining entries current.linearized).head? :=
  exploring.lists.next_head

theorem Exploring.more {p : Nat}
    (exploring : Exploring model entries n opens tried (p :: rest) current) :
    current.links.next entries.length ≠ none := by
  rw [exploring.next_head, exploring.split]
  simp

theorem Exploring.isUnplaced (wellFormed : WellFormed entries n) (bound : id < n)
    (exploring : Exploring model entries n opens tried (callIndex entries id :: rest) current) :
    id ∈ unplaced n current.linearized := by
  obtain ⟨id', member, same | same⟩ := (mem_remaining wellFormed).1
    (exploring.split ▸ List.mem_append_right tried List.mem_cons_self)
  · exact wellFormed.callIndex_injective bound (mem_unplaced.1 member).1 same ▸ member
  · exact absurd same
      (wellFormed.callIndex_ne_returnIndex bound (mem_unplaced.1 member).1)

theorem Exploring.exists_placed (wellFormed : WellFormed entries n) (bound : id < n)
    (exploring : Exploring model entries n opens tried (callIndex entries id :: rest) current) :
    ∃ b links, Placed entries current id b links := by
  obtain ⟨input, output, _, call, ret⟩ := wellFormed.exists_operation bound
  have member := exploring.isUnplaced wellFormed bound
  have unset := (mem_unplaced.1 member).2
  have room : id < entries.length / 2 := bound.trans_le wellFormed.ids_fit
  obtain ⟨b, set, length, contains⟩ := Bitset.exists_set (exploring.fits.index_lt room)
  have fits : b.Fits (entries.length / 2) := length.trans exploring.fits
  obtain ⟨b', clear, length', contains'⟩ := Bitset.exists_clear (fits.index_lt room)
  have restored : b' = current.linearized := by
    refine Bitset.Fits.ext (length'.trans fits) exploring.fits fun q => ?_
    rw [contains', contains]
    by_cases same : q = id <;> simp [same, unset]
  obtain ⟨between, back, shape⟩ : ∃ between back,
      rest = between ++ returnIndex entries id :: back := by
    have found : returnIndex entries id ∈ tried ++ callIndex entries id :: rest :=
      exploring.split ▸ (mem_remaining wellFormed).2 ⟨id, member, .inr rfl⟩
    have behind := (List.mem_append.1 found).resolve_left
      (exploring.passed.returnIndex_notMem wellFormed bound)
    exact List.append_of_mem ((List.mem_cons.1 behind).resolve_left
      (wellFormed.callIndex_ne_returnIndex bound bound).symm)
  have split := exploring.split
  rw [shape] at split
  have left := remaining_placed wellFormed bound contains split
  have lists := exploring.lists
  rw [split, ← List.cons_append] at lists
  obtain ⟨links, lifted, lists', unlifted⟩ := exists_lift (List.cons_ne_nil _ _) call rfl lists
  refine ⟨b, links, set, restored ▸ clear, contains, fits, lifted, unlifted, ?_, ?_⟩
  · rwa [left]
  · rw [left, split]
    simp only [List.length_append, List.length_cons]
    omega

/-- The search goes on behind the call. -/
theorem Exploring.pass (bound : id < n) (sound : Sound model entries n cache opens)
    (exploring : Exploring model entries n opens tried (callIndex entries id :: rest) current) :
    Exploring model entries n opens (tried ++ [callIndex entries id]) rest
      { current with entry := current.links.next (callIndex entries id), cache := cache } where
  split := by rw [List.append_assoc, List.singleton_append, ← exploring.split]
  passed := by
    intro p member
    rcases List.mem_append.1 member with member | member
    · exact exploring.passed p member
    · exact ⟨id, bound, List.mem_singleton.1 member⟩
  here := by
    have lists := exploring.lists
    rw [exploring.split, ← List.cons_append] at lists
    exact lists.next_eq
  fits := exploring.fits
  lists := exploring.lists
  sound := sound
  inside := exploring.inside

/-- A call that cannot come first is passed. -/
theorem Explored.pass (wellFormed : WellFormed entries n) (bound : id < n)
    (leads : Leads model entries current
      { current with entry := current.links.next (callIndex entries id), cache := cache })
    (refused : ¬Completes model entries n current.linearized current.state id)
    (explored : Explored model entries n opens rest
      { current with entry := current.links.next (callIndex entries id), cache := cache }) :
    Explored model entries n opens (callIndex entries id :: rest) current := by
  rcases explored with ⟨⟨final, leads', stops⟩, completable⟩ | exhausted
  · exact .inl ⟨⟨final, leads.trans leads', stops⟩, completable⟩
  · obtain ⟨cache', front, id', back, bound', shape, leads', sound, dead⟩ := exhausted
    refine .inr ⟨cache', callIndex entries id :: front, id', back, bound', by rw [shape]; rfl,
      leads.trans leads', sound, fun id' bound' member => ?_⟩
    rcases List.mem_cons.1 member with same | member
    · exact wellFormed.callIndex_injective bound' bound same ▸ refused
    · exact dead id' bound' member

/-- The state of the search after a placement. -/
def Search.placed (current : Search σ) (headEntry entry : Nat) (b : Bitset) (links : Links Nat)
    (state : σ) : Search σ where
  links := links
  entry := links.next headEntry
  state := state
  linearized := b
  cache := current.cache.insert b.hash ((current.cache.lookup b.hash).getD [] ++ [⟨b, state⟩])
  calls := ⟨entry, current.state⟩ :: current.calls

section Placing

variable {b : Bitset} {links : Links Nat} {state' : σ}

/-- The search stands at the front of what is left. -/
theorem Placed.exploring (placed : Placed entries current id b links) (state' : σ)
    (exploring : Exploring model entries n opens tried rest current) (entry : Nat) :
    Exploring model entries n (⟨b, state'⟩ :: opens) [] (remaining entries b)
      (current.placed entries.length entry b links state') where
  split := rfl
  passed := by simp [Calls]
  here := placed.lists.next_head
  fits := placed.fits
  lists := placed.lists
  sound := exploring.sound.insert _ _
  inside := by
    intro elem member q set
    rcases List.mem_cons.1 member with rfl | member
    · exact set
    · have before := exploring.inside elem member q set
      simp [Search.placed, placed.contains, before]

/-- The search has not been here before. -/
theorem Placed.goes (placed : Placed entries current id b links) (wellFormed : WellFormed entries n)
    (bound : id < n)
    (exploring : Exploring model entries n opens tried (callIndex entries id :: rest) current)
    (accepted : stepOf model entries current.state id = some state')
    (miss : cacheContains model current.cache ⟨b, state'⟩ = false) :
    Goes model entries current
      (current.placed entries.length (callIndex entries id) b links state') := by
  rw [Goes, turn_of_accepted wellFormed bound exploring.more exploring.here accepted]
  simp [place, placed.set, placed.lift, miss, Search.placed]

/-- The search has been here before. -/
theorem Placed.goes_on (placed : Placed entries current id b links)
    (wellFormed : WellFormed entries n) (bound : id < n)
    (exploring : Exploring model entries n opens tried (callIndex entries id :: rest) current)
    (accepted : stepOf model entries current.state id = some state')
    (hit : cacheContains model current.cache ⟨b, state'⟩ = true) :
    Goes model entries current
      { current with entry := current.links.next (callIndex entries id) } := by
  rw [Goes, turn_of_accepted wellFormed bound exploring.more exploring.here accepted]
  simp [place, placed.set, hit]

/-- At a return the placement is taken back. -/
theorem Placed.goes_back (placed : Placed entries current id b links)
    (wellFormed : WellFormed entries n) (bound : id < n) {id' : Nat} (bound' : id' < n)
    (more : links.next entries.length ≠ none) :
    Goes model entries
      { current.placed entries.length (callIndex entries id) b links state' with
        entry := some (returnIndex entries id'), cache := cache }
      { current with entry := current.links.next (callIndex entries id), cache := cache } := by
  obtain ⟨input, output, _, call, ret⟩ := wellFormed.exists_operation bound
  rw [Goes, turn_of_return wellFormed bound' more rfl]
  simp [Search.placed, takeBack, call, placed.clear, placed.unlift]

end Placing

/-- One placement, and all that follows from it. -/
theorem Exploring.place (wellFormed : WellFormed entries n) (congruent : model.Congruent)
    (deeper : ExploredBelow model entries n (remaining entries current.linearized).length)
    (bound : id < n) {state' : σ} (accepted : stepOf model entries current.state id = some state')
    (exploring : Exploring model entries n opens tried (callIndex entries id :: rest) current) :
    Succeeds model entries current ∧ Completable (Precedes entries) (stepOf model entries)
        (unplaced n current.linearized) current.state ∨
      ∃ cache, Sound model entries n cache opens ∧
        Leads model entries current
          { current with entry := current.links.next (callIndex entries id), cache := cache } ∧
        ¬Completes model entries n current.linearized current.state id := by
  obtain ⟨b, links, placed⟩ := exploring.exists_placed wellFormed bound
  have member := exploring.isUnplaced wellFormed bound
  have left : unplaced n b = (unplaced n current.linearized).erase id :=
    unplaced_placed placed.contains
  have refused : Dead model entries n ⟨b, state'⟩ →
      ¬Completes model entries n current.linearized current.state id := by
    rintro dead ⟨state'', accepted', completable⟩
    obtain rfl := Option.some.inj (accepted.symm.trans accepted')
    exact dead (left ▸ completable)
  cases seen : cacheContains model current.cache ⟨b, state'⟩ with
  | true =>
      have dead : Dead model entries n ⟨b, state'⟩ := by
        refine exploring.sound.dead congruent (fun elem open' same => ?_) seen
        have before := exploring.inside elem open' id (by simp [same, placed.contains])
        simp [(mem_unplaced.1 member).2] at before
      exact .inr ⟨current.cache, exploring.sound,
        .single (placed.goes_on wellFormed bound exploring accepted seen), refused dead⟩
  | false =>
      have goes := placed.goes wellFormed bound exploring accepted seen
      have inner := placed.exploring state' exploring (callIndex entries id)
      have explored := deeper _
        (current.placed entries.length (callIndex entries id) b links state') placed.fewer inner
      rcases explored with ⟨⟨final, leads, stops⟩, completable⟩ | exhausted
      · have first := not_precedes_of_calls wellFormed exploring.passed exploring.split
        have completable : Completable (Precedes entries) (stepOf model entries)
            ((unplaced n current.linearized).erase id) state' := left ▸ completable
        refine .inl ⟨⟨final, .head goes leads, stops⟩, ?_⟩
        exact (completable.cons (fun id' found => first id' (List.mem_of_mem_erase found))
          accepted).perm (List.perm_cons_erase member).symm
      · obtain ⟨cache, front, id', back, bound', shape, leads, sound, stuck⟩ := exhausted
        have dead : Dead model entries n ⟨b, state'⟩ := by
          intro completable
          obtain ⟨id'', bound'', found, completes⟩ :=
            exists_completes wellFormed bound' shape completable
          exact stuck id'' bound'' found completes
        have more : links.next entries.length ≠ none := by
          have next : links.next entries.length = (remaining entries b).head? := inner.next_head
          have shape : remaining entries b = front ++ returnIndex entries id' :: back := shape
          simp [next, shape]
        exact .inr ⟨cache, sound.close dead,
          (Relation.ReflTransGen.head goes leads).tail
            (placed.goes_back wellFormed bound bound' more), refused dead⟩

/-- The calls before the first return, one after the other. -/
theorem Exploring.walk (wellFormed : WellFormed entries n) (congruent : model.Congruent)
    {length : Nat} (deeper : ExploredBelow model entries n length)
    (exploring : Exploring model entries n opens tried rest current)
    (unfinished : (remaining entries current.linearized).length = length)
    (nonempty : remaining entries current.linearized ≠ []) :
    Explored model entries n opens rest current := by
  induction rest generalizing tried current with
  | nil =>
      -- a call is never the last
      have split := exploring.split
      rw [List.append_nil] at split
      obtain ⟨p, member⟩ := List.exists_mem_of_ne_nil _ nonempty
      obtain ⟨id, member, _⟩ := (mem_remaining wellFormed).1 member
      have found := (mem_remaining wellFormed).2 ⟨id, member, .inr rfl⟩
      rw [split] at found
      exact absurd found (exploring.passed.returnIndex_notMem wellFormed (mem_unplaced.1 member).1)
  | cons p rest ih =>
      obtain ⟨id, member, rfl | rfl⟩ := (mem_remaining wellFormed).1
        (exploring.split ▸ List.mem_append_right tried List.mem_cons_self)
      · have bound := (mem_unplaced.1 member).1
        cases accepted : stepOf model entries current.state id with
        | none =>
            have refused : ¬Completes model entries n current.linearized current.state id := by
              rintro ⟨state', accepted', _⟩
              rw [accepted] at accepted'
              exact absurd accepted' (by simp)
            have goes := goes_of_refused wellFormed bound exploring.more exploring.here accepted
            exact (ih (exploring.pass bound exploring.sound) unfinished nonempty).pass wellFormed
              bound (.single goes) refused
        | some state' =>
            rcases exploring.place wellFormed congruent (unfinished ▸ deeper) bound accepted with
              done | ⟨cache, sound, leads, refused⟩
            · exact .inl done
            · exact (ih (exploring.pass bound sound) unfinished nonempty).pass wellFormed bound
                leads refused
      · have stays : { current with
            entry := some (returnIndex entries id), cache := current.cache } = current := by
          rw [← List.head?_cons (a := returnIndex entries id) (l := rest), ← exploring.here]
        exact .inr ⟨current.cache, [], id, rest, (mem_unplaced.1 member).1, rfl,
          stays ▸ .refl, exploring.sound, by simp⟩

theorem Exploring.explore (wellFormed : WellFormed entries n) (congruent : model.Congruent)
    (exploring :
      Exploring model entries n opens [] (remaining entries current.linearized) current) :
    Explored model entries n opens (remaining entries current.linearized) current := by
  induction length : (remaining entries current.linearized).length using Nat.strong_induction_on
    generalizing opens current with
  | _ length ih =>
      by_cases nonempty : remaining entries current.linearized = []
      · have finished : unplaced n current.linearized = [] := by
          refine List.eq_nil_iff_forall_not_mem.2 fun id member => ?_
          have found := (mem_remaining wellFormed).2 ⟨id, member, .inl rfl⟩
          simp [nonempty] at found
        have lists := exploring.lists
        rw [nonempty] at lists
        exact .inl ⟨⟨current, .refl, stops_of_empty lists⟩, finished ▸ completable_nil _ _ _⟩
      · exact exploring.walk wellFormed congruent
          (fun _ _ fewer exploring => ih _ fewer exploring rfl) length nonempty

end Exploring

/-! ## The whole search -/

theorem remaining_newBitset (entries : List (Entry ι ο)) (m : Nat) :
    remaining entries (newBitset m) = List.range entries.length := by
  refine List.filter_eq_self.2 fun p member => ?_
  simp [List.mem_range.1 member]

theorem unplaced_newBitset (n m : Nat) : unplaced n (newBitset m) = List.range n := by
  simp [unplaced]

/-- The loop begins in front of the whole list. -/
theorem exists_startSearch (model : Model ι ο σ) (entries : List (Entry ι ο)) (n : Nat) :
    ∃ start, startSearch model (makeLinkedEntries entries) = some start ∧
      start.linearized = newBitset (entries.length / 2) ∧ start.state = model.init ∧
      start.calls = [] ∧
      Exploring model entries n [] [] (remaining entries start.linearized) start := by
  have lists : (makeLinkedEntries entries).links.Lists ([] ++ List.range' 0 entries.length) :=
    (linked_linkEntries 0 entries).lists
  have size : (makeLinkedEntries entries).nodes.length = entries.length :=
    length_linkEntries 0 entries
  have root : (makeLinkedEntries entries).root = (List.range' 0 entries.length).head? :=
    root_linkEntries 0 entries
  have counted : length (makeLinkedEntries entries).links entries.length
      (makeLinkedEntries entries).root = some entries.length := by
    rw [root, length_eq lists (by simp), List.length_range']
  refine ⟨_, by simp only [startSearch, size, counted]; rfl, rfl, rfl, rfl, rfl, ?_, ?_,
    Bitset.fits_newBitset _, ?_, ?_, ?_⟩
  · simp [Calls]
  · rw [remaining_newBitset, root, List.range_eq_range']
  · rw [remaining_newBitset]
    exact size ▸ lists_withHead entries
  · rintro elem ⟨hash, bucket, found, _⟩
    simp at found
  · simp

/-- The loop returns, and it returns true if there is an order. -/
theorem exists_stops (wellFormed : WellFormed entries n) (congruent : model.Congruent) :
    ∃ start final ok, startSearch model (makeLinkedEntries entries) = some start ∧
      Leads model entries start final ∧ Stops model entries final ok ∧
      (ok = true ↔ Linearizable model entries n) := by
  obtain ⟨start, started, placed, init, calls, exploring⟩ :=
    exists_startSearch model entries n
  have whole : Linearizable model entries n ↔ Completable (Precedes entries)
      (stepOf model entries) (unplaced n start.linearized) start.state := by
    rw [placed, init, unplaced_newBitset]
    rfl
  rcases exploring.explore wellFormed congruent with
    ⟨⟨final, leads, stops⟩, completable⟩ | exhausted
  · exact ⟨start, final, true, started, leads, stops, by simp [whole, completable]⟩
  · obtain ⟨cache, front, id, back, bound, shape, leads, sound, stuck⟩ := exhausted
    have unlinearizable : ¬Linearizable model entries n := by
      intro linearizable
      obtain ⟨id', bound', found, completes⟩ :=
        exists_completes wellFormed bound shape (whole.1 linearizable)
      exact stuck id' bound' found completes
    have more : start.links.next entries.length ≠ none := by
      rw [exploring.next_head, shape]
      simp
    refine ⟨start, _, false, started, leads, ?_, by simp [unlinearizable]⟩
    exact (turn_of_return wellFormed bound (by exact more) rfl).trans (by simp [calls])

theorem search_of_leads {current final : Search σ} {ok : Bool}
    (leads : Leads model entries current final) (stops : Stops model entries final ok) :
    ∃ turns, ∀ fuel, search model (withHead (makeLinkedEntries entries).nodes) entries.length false
      (turns + fuel) current = .returned ok := by
  induction leads using Relation.ReflTransGen.head_induction_on with
  | refl => exact ⟨1, fun fuel => by rw [Nat.add_comm, search, stops]⟩
  | head goes _ ih =>
      obtain ⟨turns, returns⟩ := ih
      refine ⟨turns + 1, fun fuel => ?_⟩
      rw [Nat.add_right_comm, search, goes]
      exact returns fuel

/-- The search comes to an answer, and the answer is right. -/
theorem WellFormed.exists_answer (wellFormed : WellFormed entries n) (congruent : model.Congruent) :
    ∃ start ok turns, startSearch model (makeLinkedEntries entries) = some start ∧
      (∀ fuel, search model (withHead (makeLinkedEntries entries).nodes)
        (makeLinkedEntries entries).nodes.length false (turns + fuel) start = .returned ok) ∧
      (ok = true ↔ Linearizable model entries n) := by
  have length : (makeLinkedEntries entries).nodes.length = entries.length :=
    length_linkEntries 0 entries
  obtain ⟨start, final, ok, started, leads, stops, decides⟩ := exists_stops wellFormed congruent
  obtain ⟨turns, returns⟩ := search_of_leads leads stops
  exact ⟨start, ok, turns, started, length ▸ returns, decides⟩

/-- The check of one history returns, and says whether the history is linearizable. -/
theorem checkSingle_decides (model : Model ι ο σ) (congruent : model.Congruent)
    (entries : List (Entry ι ο)) (n : Nat) (wellFormed : WellFormed entries n) :
    ∃ ok turns, (∀ fuel, checkSingle model (makeLinkedEntries entries) false (turns + fuel) =
      .returned ok) ∧ (ok = true ↔ Linearizable model entries n) := by
  obtain ⟨start, ok, turns, started, returns, decides⟩ := wellFormed.exists_answer congruent
  refine ⟨ok, turns, fun fuel => ?_, decides⟩
  rw [checkSingle, started]
  exact returns fuel

theorem kvModel_congruent : kvModel.Congruent where
  equivalence := by
    simp only [kvModel, decide_eq_true_eq]
    exact eq_equivalence
  accepts := by
    intro s t input output equal
    obtain rfl : s = t := of_decide_eq_true equal
    rfl
  step := by
    intro s t input output equal _
    obtain rfl : s = t := of_decide_eq_true equal
    exact decide_eq_true rfl

/-- A get that began before a put and saw it. -/
def overlapping : List (Entry KvInput KvOutput) :=
  [⟨.call ⟨0, "x", ""⟩, 0, 1⟩, ⟨.call ⟨1, "x", "a"⟩, 1, 2⟩, ⟨.returned ⟨""⟩, 1, 3⟩,
    ⟨.returned ⟨"a"⟩, 0, 4⟩]

theorem checkSingle_decides_overlapping : WellFormed overlapping 2 ∧
    ∃ ok turns, (∀ fuel, checkSingle kvModel (makeLinkedEntries overlapping) false (turns + fuel) =
      .returned ok) ∧ (ok = true ↔ Linearizable kvModel overlapping 2) := by
  have wellFormed : WellFormed overlapping 2 :=
    ⟨by decide, by decide, by decide, by decide⟩
  exact ⟨wellFormed, checkSingle_decides kvModel kvModel_congruent overlapping 2 wellFormed⟩

example : checkSingle kvModel (makeLinkedEntries overlapping) false 8 = .returned true := by
  decide +kernel

end Mit6824.Linearizability
