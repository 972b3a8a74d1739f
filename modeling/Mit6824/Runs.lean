import Mathlib.Tactic.Common

/-!
# Runs of a transition system

A transition system is a partial function `step : S → A → Option S`: the action
carries every choice, and an action that cannot be taken gives `none`. A run may
be asked to take only steps that meet a condition `allowed` on the state before
the step and the action; `anyStep` asks for nothing.
-/

namespace Mit6824

universe u v

section Runs

variable {S : Type u} {A : Type v}

/-- `Reaches step allowed s s'`: some run of allowed steps leads from `s` to `s'`. -/
inductive Reaches (step : S → A → Option S) (allowed : S → A → Prop) : S → S → Prop where
  | refl (s : S) : Reaches step allowed s s
  | tail {s s' s'' : S} {a : A} (run : Reaches step allowed s s') (meets : allowed s' a)
      (next : step s' a = some s'') : Reaches step allowed s s''

/-- The condition every step meets. -/
def anyStep : S → A → Prop := fun _ _ => True

instance (s : S) (a : A) : Decidable (anyStep s a) :=
  inferInstanceAs (Decidable True)

/-- Take the actions one after the other, as long as each of them meets the condition. -/
def execute (step : S → A → Option S) (allowed : S → A → Prop)
    [∀ s a, Decidable (allowed s a)] (s : S) : List A → Option S
  | [] => some s
  | a :: rest =>
      if allowed s a then
        match step s a with
        | none => none
        | some s' => execute step allowed s' rest
      else none

variable {step : S → A → Option S} {allowed : S → A → Prop}

theorem execute_cons [∀ s a, Decidable (allowed s a)] {s s' : S} {a : A} {rest : List A} :
    execute step allowed s (a :: rest) = some s' ↔
      allowed s a ∧ ∃ mid, step s a = some mid ∧ execute step allowed mid rest = some s' := by
  rw [execute]
  by_cases meets : allowed s a
  · cases step s a <;> simp [meets]
  · simp [meets]

namespace Reaches

theorem single {s s' : S} {a : A} (meets : allowed s a) (next : step s a = some s') :
    Reaches step allowed s s' :=
  .tail (.refl s) meets next

theorem trans {s s' s'' : S} (first : Reaches step allowed s s')
    (second : Reaches step allowed s' s'') : Reaches step allowed s s'' := by
  induction second with
  | refl => exact first
  | tail _ meets next ih => exact .tail ih meets next

/-- What holds at the start and is kept by every allowed step holds wherever a run leads. -/
theorem invariant {s s' : S} (run : Reaches step allowed s s') (inv : S → Prop) (start : inv s)
    (kept : ∀ {s s' a}, inv s → allowed s a → step s a = some s' → inv s') : inv s' := by
  induction run with
  | refl => exact start
  | tail _ meets next ih => exact kept ih meets next

end Reaches

theorem reaches_of_execute [∀ s a, Decidable (allowed s a)] {s s' : S} {actions : List A}
    (executed : execute step allowed s actions = some s') : Reaches step allowed s s' := by
  induction actions generalizing s with
  | nil =>
      simp only [execute, Option.some.injEq] at executed
      subst executed
      exact .refl s
  | cons a rest ih =>
      obtain ⟨meets, mid, next, executed⟩ := execute_cons.1 executed
      exact (Reaches.single meets next).trans (ih executed)

/-- What holds at the start and is kept by every step of an execution holds at its end. -/
theorem execute_invariant [∀ s a, Decidable (allowed s a)] (inv : S → Prop) {s s' : S}
    {actions : List A} (start : inv s)
    (kept : ∀ {s s' a}, a ∈ actions → inv s → allowed s a → step s a = some s' → inv s')
    (executed : execute step allowed s actions = some s') : inv s' := by
  induction actions generalizing s with
  | nil =>
      simp only [execute, Option.some.injEq] at executed
      exact executed ▸ start
  | cons a rest ih =>
      obtain ⟨meets, mid, next, executed⟩ := execute_cons.1 executed
      exact ih (kept List.mem_cons_self start meets next)
        (fun member => kept (List.mem_cons_of_mem a member)) executed

/-- A run that was executed to a state with a property that can be decided. -/
theorem exists_reaches [∀ s a, Decidable (allowed s a)] {s : S} {P : S → Prop} [DecidablePred P]
    (actions : List A)
    (holds : (execute step allowed s actions).any (fun s' => decide (P s')) = true) :
    ∃ s', Reaches step allowed s s' ∧ P s' := by
  obtain ⟨s', executed, property⟩ := (Option.any_eq_true _ _).1 holds
  exact ⟨s', reaches_of_execute executed, of_decide_eq_true property⟩

/-- A run that was executed, and one step more. -/
theorem exists_step [∀ s a, Decidable (allowed s a)] {s : S} {P : S → S → Prop}
    [∀ s s', Decidable (P s s')] (actions : List A) (a : A)
    (holds : (execute step allowed s actions).any (fun s' =>
      decide (allowed s' a) && (step s' a).any fun s'' => decide (P s' s'')) = true) :
    ∃ s' s'', Reaches step allowed s s' ∧ allowed s' a ∧ step s' a = some s'' ∧ P s' s'' := by
  obtain ⟨s', executed, last⟩ := (Option.any_eq_true _ _).1 holds
  obtain ⟨meets, after⟩ := (Bool.and_eq_true _ _ ▸ last :)
  obtain ⟨s'', next, property⟩ := (Option.any_eq_true _ _).1 after
  exact ⟨s', s'', reaches_of_execute executed, of_decide_eq_true meets, next,
    of_decide_eq_true property⟩

/-- A run is no longer than what is owed at its start, if every allowed step lowers it. -/
theorem execute_length_le [∀ s a, Decidable (allowed s a)] (owes : S → Nat → Prop)
    (lowered : ∀ {s a s' k}, owes s k → allowed s a → step s a = some s' → ∃ k' < k, owes s' k')
    {s s' : S} {k : Nat} {actions : List A} (start : owes s k)
    (executed : execute step allowed s actions = some s') :
    ∃ k', owes s' k' ∧ actions.length + k' ≤ k := by
  induction actions generalizing s k with
  | nil =>
      simp only [execute, Option.some.injEq] at executed
      subst executed
      exact ⟨k, start, by simp⟩
  | cons a rest ih =>
      obtain ⟨meets, mid, next, executed⟩ := execute_cons.1 executed
      obtain ⟨k₁, less, owed⟩ := lowered start meets next
      obtain ⟨k₂, owed', bound⟩ := ih owed executed
      exact ⟨k₂, owed', by rw [List.length_cons]; omega⟩

end Runs

/-- A loop over a list that keeps an invariant and never stops early comes to its end. -/
theorem exists_foldlM {S : Type u} {A : Type v} {body : S → A → Option S} {items : List A}
    (inv : Nat → S → Prop) {s : S} (start : inv 0 s)
    (kept : ∀ i (inRange : i < items.length) s, inv i s →
      ∃ s', body s items[i] = some s' ∧ inv (i + 1) s') :
    ∃ s', items.foldlM body s = some s' ∧ inv items.length s' := by
  induction items generalizing s inv with
  | nil => exact ⟨s, rfl, start⟩
  | cons item rest ih =>
      obtain ⟨s₁, first, inv₁⟩ := kept 0 (by simp) s start
      have later : ∀ i (inRange : i < rest.length) s, inv (i + 1) s →
          ∃ s', body s rest[i] = some s' ∧ inv (i + 1 + 1) s' := by
        intro i inRange s invariant
        exact kept (i + 1) (by simpa using inRange) s invariant
      obtain ⟨s₂, others, inv₂⟩ := ih (fun i => inv (i + 1)) inv₁ later
      refine ⟨s₂, ?_, inv₂⟩
      rw [List.foldlM_cons, show body s item = some s₁ from first]
      exact others

/-- Two loops whose bodies keep a relation end in related states, or both stop early. -/
theorem foldlM_rel {S : Type u} {A : Type v} {rel : S → S → Prop} {body : S → A → Option S}
    {items : List A} {s s' : S} (related : rel s s')
    (kept : ∀ s s' item, item ∈ items → rel s s' → Option.Rel rel (body s item) (body s' item)) :
    Option.Rel rel (items.foldlM body s) (items.foldlM body s') := by
  induction items generalizing s s' with
  | nil => exact .some related
  | cons item rest ih =>
      rw [List.foldlM_cons, List.foldlM_cons]
      have first := kept s s' item List.mem_cons_self related
      generalize body s item = next, body s' item = next' at first
      cases first with
      | none => exact .none
      | some related =>
          exact ih related fun s s' item mem => kept s s' item (List.mem_cons_of_mem _ mem)

end Mit6824
