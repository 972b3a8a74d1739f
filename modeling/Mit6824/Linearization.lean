import Mathlib.Data.List.Perm.Basic
import Mathlib.Data.List.Perm.Lattice
import Mathlib.Data.List.MinMax
import Mathlib.Data.List.Sort
import Mathlib.Logic.Function.Basic
import Mathlib.Order.Lattice

/-!
# Linearizations

Operations with a precedence between them are completable from a state if a sequential object
accepts them in some order that respects the precedence. What can come first is what nothing else
precedes, and the rest has to be completable from where it leads (`Completable.cons`,
`Completable.exists_first`). An object that is made of one object for each key is completable if
every key is on its own (`completable_keys`), as long as the precedence is that of intervals in
time.
-/

namespace Mit6824.Linearization

variable {ι κ σ τ : Type}

/-- The object accepts the operations in some order that respects the precedence. -/
def Completable (precedes : ι → ι → Prop) (step : σ → ι → Option σ) (ops : List ι)
    (state : σ) : Prop :=
  ∃ order : List ι, order.Perm ops ∧ order.Pairwise (fun a b => ¬precedes b a) ∧
    (order.foldlM step state).isSome = true

variable {precedes : ι → ι → Prop} {step : σ → ι → Option σ} {ops ops' : List ι}
  {state state' : σ}

theorem isSome_foldlM_cons {a : ι} {order : List ι} :
    ((a :: order).foldlM step state).isSome = true ↔
      ∃ state', step state a = some state' ∧ (order.foldlM step state').isSome = true := by
  rw [List.foldlM_cons]
  cases step state a with
  | none => simp
  | some state' => simp

theorem completable_nil (precedes : ι → ι → Prop) (step : σ → ι → Option σ) (state : σ) :
    Completable precedes step [] state :=
  ⟨[], .nil, .nil, rfl⟩

theorem Completable.perm (completable : Completable precedes step ops state)
    (perm : ops.Perm ops') : Completable precedes step ops' state := by
  obtain ⟨order, permutes, respects, accepted⟩ := completable
  exact ⟨order, permutes.trans perm, respects, accepted⟩

/-- An operation that nothing precedes may come first. -/
theorem Completable.cons {a : ι} (rest : Completable precedes step ops state')
    (first : ∀ b ∈ ops, ¬precedes b a) (accepts : step state a = some state') :
    Completable precedes step (a :: ops) state := by
  obtain ⟨order, permutes, respects, accepted⟩ := rest
  refine ⟨a :: order, permutes.cons a, List.pairwise_cons.2 ⟨fun b member => ?_, respects⟩, ?_⟩
  · exact first b (permutes.mem_iff.1 member)
  · exact isSome_foldlM_cons.2 ⟨state', accepts, accepted⟩

/-- Something comes first. -/
theorem Completable.exists_first [DecidableEq ι] (completable : Completable precedes step ops state)
    (nonempty : ops ≠ []) :
    ∃ a ∈ ops, (∀ b ∈ ops.erase a, ¬precedes b a) ∧ ∃ state', step state a = some state' ∧
      Completable precedes step (ops.erase a) state' := by
  obtain ⟨order, permutes, respects, accepted⟩ := completable
  cases order with
  | nil => exact absurd permutes.nil_eq.symm nonempty
  | cons a order =>
      obtain ⟨member, rest⟩ := List.cons_perm_iff_perm_erase.1 permutes
      obtain ⟨first, respects⟩ := List.pairwise_cons.1 respects
      obtain ⟨state', accepts, accepted⟩ := isSome_foldlM_cons.1 accepted
      exact ⟨a, member, fun b found => first b (rest.mem_iff.2 found), state', accepts,
        order, rest, respects, accepted⟩

/-- An object that can follow every step of another one completes what the other one does. -/
theorem Completable.simulates {step' : τ → ι → Option τ} {related : σ → τ → Prop} {other : τ}
    (follows : ∀ {s t a s'}, related s t → step s a = some s' →
      ∃ t', step' t a = some t' ∧ related s' t')
    (completable : Completable precedes step ops state) (start : related state other) :
    Completable precedes step' ops other := by
  obtain ⟨order, permutes, respects, accepted⟩ := completable
  refine ⟨order, permutes, respects, ?_⟩
  clear permutes respects
  induction order generalizing state other with
  | nil => rfl
  | cons a order ih =>
      obtain ⟨s, accepts, accepted⟩ := isSome_foldlM_cons.1 accepted
      obtain ⟨t, accepts', next⟩ := follows start accepts
      exact isSome_foldlM_cons.2 ⟨t, accepts', ih next accepted⟩

/-- Operations with points in time that respect the precedence, such that the object accepts them in
every order of their points. -/
theorem Completable.of_points [LinearOrder τ] (point : ι → τ)
    (respects : ∀ a ∈ ops, ∀ b ∈ ops, precedes a b → point a < point b)
    (accepts : ∀ order : List ι, order.Perm ops → order.Pairwise (fun a b => point a ≤ point b) →
      (order.foldlM step state).isSome = true) : Completable precedes step ops state := by
  have total : Std.Total fun a b : ι => point a ≤ point b := ⟨fun a b => le_total _ _⟩
  have trans : IsTrans ι fun a b => point a ≤ point b := ⟨fun a b c => le_trans⟩
  have sorted : (ops.insertionSort fun a b => point a ≤ point b).Pairwise
      fun a b => point a ≤ point b := List.pairwise_insertionSort _ _
  have permutes := List.perm_insertionSort (fun a b => point a ≤ point b) ops
  refine ⟨_, permutes, ?_, accepts _ permutes sorted⟩
  refine sorted.imp_of_mem fun {a b} member member' le before => ?_
  exact absurd (respects b (permutes.mem_iff.1 member') a (permutes.mem_iff.1 member) before)
    (not_lt.2 le)

section Rename

variable {β : Type} {f : ι → β} {precedes' : β → β → Prop} {step' : σ → β → Option σ}

theorem foldlM_map_congr {order : List ι} (steps : ∀ s, ∀ a ∈ order, step' s (f a) = step s a) :
    (order.map f).foldlM step' state = order.foldlM step state := by
  induction order generalizing state with
  | nil => rfl
  | cons a order ih =>
      rw [List.map_cons, List.foldlM_cons, List.foldlM_cons, steps state a List.mem_cons_self]
      exact Option.bind_congr fun s _ =>
        ih fun s b member => steps s b (List.mem_cons_of_mem a member)

/-- The operations under other names, with the same precedence and the same effect. -/
theorem completable_map
    (ordered : ∀ a ∈ ops, ∀ b ∈ ops, precedes' (f a) (f b) ↔ precedes a b)
    (steps : ∀ s, ∀ a ∈ ops, step' s (f a) = step s a) :
    Completable precedes' step' (ops.map f) state ↔ Completable precedes step ops state := by
  constructor
  · rintro ⟨order', permutes', respects, accepted⟩
    obtain ⟨order, rfl, permutes⟩ : ∃ order : List ι, order' = order.map f ∧ order.Perm ops :=
      (congrFun₂ (List.eq_map_comp_perm f) order' ops).mpr permutes'
    rw [foldlM_map_congr fun s a member => steps s a (permutes.mem_iff.1 member)] at accepted
    refine ⟨order, permutes, ?_, accepted⟩
    refine (List.pairwise_map.1 respects).imp_of_mem fun {a b} member member' apart before => ?_
    exact apart ((ordered b (permutes.mem_iff.1 member') a (permutes.mem_iff.1 member)).2 before)
  · rintro ⟨order, permutes, respects, accepted⟩
    rw [← foldlM_map_congr fun s a member => steps s a (permutes.mem_iff.1 member)] at accepted
    refine ⟨order.map f, permutes.map f, List.pairwise_map.2 ?_, accepted⟩
    refine respects.imp_of_mem fun {a b} member member' apart before => ?_
    exact apart ((ordered b (permutes.mem_iff.1 member') a (permutes.mem_iff.1 member)).1 before)

end Rename

/-! ## One object for each key -/

section Keys

variable [DecidableEq κ] {key : ι → κ} {store store' : κ → σ}

/-- The operation goes to the object of its key. -/
def keyed (key : ι → κ) (step : σ → ι → Option σ) (store : κ → σ) (a : ι) : Option (κ → σ) :=
  (step (store (key a)) a).map (Function.update store (key a))

theorem keyed_eq_some {a : ι} : keyed key step store a = some store' ↔
    ∃ s, step (store (key a)) a = some s ∧ store' = Function.update store (key a) s := by
  rw [keyed, Option.map_eq_some_iff]
  exact exists_congr fun s => and_congr_right fun _ => eq_comm

/-- Each object sees its own operations only. -/
theorem isSome_foldlM_keyed {order : List ι}
    (accepted : (order.foldlM (keyed key step) store).isSome = true) (k : κ) :
    ((order.filter fun a => key a = k).foldlM step (store k)).isSome = true := by
  induction order generalizing store with
  | nil => rfl
  | cons a order ih =>
      obtain ⟨store', keyed, accepted⟩ := isSome_foldlM_cons.1 accepted
      obtain ⟨s, accepts, rfl⟩ := keyed_eq_some.1 keyed
      have rest := ih accepted
      by_cases own : key a = k
      · subst own
        rw [Function.update_self] at rest
        rw [List.filter_cons_of_pos (by simp)]
        exact isSome_foldlM_cons.2 ⟨s, accepts, rest⟩
      · rw [Function.update_of_ne (Ne.symm own)] at rest
        rwa [List.filter_cons_of_neg (by simpa using own)]

/-- An order of all the operations orders those of one key. -/
theorem Completable.of_key (completable : Completable precedes (keyed key step) ops store)
    (k : κ) : Completable precedes step (ops.filter fun a => key a = k) (store k) := by
  obtain ⟨order, permutes, respects, accepted⟩ := completable
  exact ⟨order.filter fun a => key a = k, permutes.filter _, respects.filter _,
    isSome_foldlM_keyed accepted k⟩

variable [LinearOrder τ] {call ret : ι → τ} {order : κ → List ι}

/-- Of the operations that come first among those of their key, the one that was called first may
come first among all. -/
theorem exists_first_of_keys (nonempty : ops ≠ []) (proper : ∀ a ∈ ops, call a ≤ ret a)
    (permutes : ∀ k, (order k).Perm (ops.filter fun a => key a = k))
    (respects : ∀ k, (order k).Pairwise fun a b => ¬ret b < call a) :
    ∃ a rest, order (key a) = a :: rest ∧ a ∈ ops ∧ ∀ b ∈ ops, ¬ret b < call a := by
  classical
  have mem_order : ∀ k a, a ∈ order k ↔ a ∈ ops ∧ key a = k := fun k a => by
    rw [(permutes k).mem_iff, List.mem_filter, decide_eq_true_eq]
  have headed : ∀ b ∈ ops, ∃ a rest, order (key b) = a :: rest ∧ a ∈ ops ∧ key a = key b := by
    intro b member
    obtain ⟨a, rest, shape⟩ := List.exists_cons_of_ne_nil
      (List.ne_nil_of_mem ((mem_order (key b) b).2 ⟨member, rfl⟩))
    exact ⟨a, rest, shape, (mem_order (key b) a).1 (shape ▸ List.mem_cons_self)⟩
  let heads := ops.filter fun a => (order (key a)).head? = some a
  have mem_heads : ∀ a, a ∈ heads ↔ a ∈ ops ∧ (order (key a)).head? = some a := fun a => by
    simp [heads]
  obtain ⟨b, member⟩ := List.exists_mem_of_ne_nil ops nonempty
  obtain ⟨a₀, rest₀, shape₀, member₀, same₀⟩ := headed b member
  have some_head : a₀ ∈ heads := (mem_heads a₀).2 ⟨member₀, by rw [same₀, shape₀]; rfl⟩
  obtain ⟨a, least⟩ := Option.ne_none_iff_exists'.1
    (mt List.argmin_eq_none.1 (List.ne_nil_of_mem some_head) : heads.argmin call ≠ none)
  obtain ⟨member, first⟩ := (mem_heads a).1 (List.argmin_mem least)
  obtain ⟨rest, shape⟩ := List.head?_eq_some_iff.1 first
  refine ⟨a, rest, shape, member, fun b found before => ?_⟩
  -- what comes first for the key of `b` was called no earlier than `a` and did not wait for `b`
  obtain ⟨c, rest', shape', found', same⟩ := headed b found
  have no_earlier : call a ≤ call c :=
    List.le_of_mem_argmin ((mem_heads c).2 ⟨found', by rw [same, shape']; rfl⟩) least
  have behind : b ∈ c :: rest' := shape' ▸ (mem_order (key b) b).2 ⟨found, rfl⟩
  rcases List.mem_cons.1 behind with rfl | later
  · exact absurd (before.trans_le no_earlier) (not_lt.2 (proper b found))
  · have ordered := respects (key b)
    rw [shape'] at ordered
    exact (List.pairwise_cons.1 ordered).1 b later (before.trans_le no_earlier)

/-- An object for each key is completable as a whole if it is for each key. -/
theorem completable_keys (proper : ∀ a ∈ ops, call a ≤ ret a) :
    Completable (fun a b => ret a < call b) (keyed key step) ops store ↔
      ∀ k, Completable (fun a b => ret a < call b) step
        (ops.filter fun a => key a = k) (store k) := by
  refine ⟨Completable.of_key, fun each => ?_⟩
  classical
  induction length : ops.length generalizing ops store with
  | zero =>
      obtain rfl := List.length_eq_zero_iff.1 length
      exact completable_nil _ _ _
  | succ n ih =>
      have nonempty : ops ≠ [] := List.ne_nil_of_length_pos (by omega)
      choose order permutes respects accepted using each
      obtain ⟨a, rest, shape, member, first⟩ :=
        exists_first_of_keys nonempty proper permutes respects
      have ownAccepted := accepted (key a)
      rw [shape] at ownAccepted
      obtain ⟨s, accepts, ownRest⟩ := isSome_foldlM_cons.1 ownAccepted
      have erased : ∀ b ∈ ops.erase a, b ∈ ops := fun b => List.mem_of_mem_erase
      have split : ∀ k, (order k).Perm ((a :: ops.erase a).filter fun b => key b = k) := fun k =>
        (permutes k).trans ((List.perm_cons_erase member).filter _)
      have rests : Completable (fun a b => ret a < call b) (keyed key step) (ops.erase a)
          (Function.update store (key a) s) := by
        refine ih (fun b found => proper b (erased b found)) (fun k => ?_)
          (by rw [List.length_erase_of_mem member]; omega)
        have ordered := split k
        by_cases own : key a = k
        · subst own
          rw [shape, List.filter_cons_of_pos (by simp)] at ordered
          rw [Function.update_self]
          exact ⟨rest, ordered.cons_inv,
            (List.pairwise_cons.1 (shape ▸ respects (key a))).2, ownRest⟩
        · rw [List.filter_cons_of_neg (by simpa using own)] at ordered
          rw [Function.update_of_ne (Ne.symm own)]
          exact ⟨order k, ordered, respects k, accepted k⟩
      exact (rests.cons (fun b found => first b (erased b found))
        (keyed_eq_some.2 ⟨s, accepts, rfl⟩)).perm (List.perm_cons_erase member).symm

end Keys

end Mit6824.Linearization
