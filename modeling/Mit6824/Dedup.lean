import Mathlib.Algebra.Group.Int.Defs
import Mathlib.Algebra.Group.Nat.Defs
import Mathlib.Data.List.Pairwise
import Mathlib.Logic.Function.Basic
import Mathlib.Order.Lattice

/-!
# First occurrences and per-client marks

An operation has a client and a sequence number. `firsts` keeps the first operation with each
such pair. A service that remembers only the greatest sequence number of each client (its
mark) can tell the first occurrences from the repetitions as long as each client's sequence
numbers first appear in increasing order: this is `Tracks`, which one operation
preserves whether it is a repetition (`Tracks.skip`) or not (`Tracks.take`).

`records` are the operations such a service takes from one client, in whatever order they come:
each number once at most, and all of them only if they first appear in increasing order
(`records_complete_iff`).

A pair can be packed into one 64-bit number, the client in the upper half.
-/

namespace Mit6824.Dedup

/-- Numbers that fit into their halves can be told from what they are packed into. -/
theorem packed_injective {client seq client' seq' : Int}
    (bounds : -2 ^ 31 ≤ client ∧ client < 2 ^ 31 ∧ 0 ≤ seq ∧ seq < 2 ^ 32)
    (bounds' : -2 ^ 31 ≤ client' ∧ client' < 2 ^ 31 ∧ 0 ≤ seq' ∧ seq' < 2 ^ 32)
    (equal : (client * 2 ^ 32 + seq).bmod (2 ^ 64) = (client' * 2 ^ 32 + seq').bmod (2 ^ 64)) :
    client = client' ∧ seq = seq' := by
  obtain ⟨low, high, nonneg, bound⟩ := bounds
  obtain ⟨low', high', nonneg', bound'⟩ := bounds'
  rw [Int.bmod_eq_of_le (by omega) (by omega), Int.bmod_eq_of_le (by omega) (by omega)] at equal
  omega

variable {α κ τ : Type}
variable (client : α → κ) (seq : α → τ)

section Firsts

variable [DecidableEq κ] [DecidableEq τ]

/-- The operations whose client and sequence number are not in `seen` and did not occur before. -/
def firsts (seen : List (κ × τ)) : List α → List α
  | [] => []
  | op :: rest =>
      if (client op, seq op) ∈ seen then firsts seen rest
      else op :: firsts ((client op, seq op) :: seen) rest

variable {client seq} {seen : List (κ × τ)} {op : α} {rest : List α}

theorem firsts_of_mem (mem : (client op, seq op) ∈ seen) :
    firsts client seq seen (op :: rest) = firsts client seq seen rest :=
  if_pos mem

theorem firsts_of_notMem (notMem : (client op, seq op) ∉ seen) :
    firsts client seq seen (op :: rest) =
      op :: firsts client seq ((client op, seq op) :: seen) rest :=
  if_neg notMem

theorem firsts_subset {ops : List α} (first : op ∈ firsts client seq seen ops) : op ∈ ops := by
  induction ops generalizing seen with
  | nil => exact first
  | cons other rest ih =>
      by_cases mem : (client other, seq other) ∈ seen
      · rw [firsts_of_mem mem] at first
        exact List.mem_cons_of_mem other (ih first)
      · rw [firsts_of_notMem mem] at first
        rcases List.mem_cons.1 first with rfl | later
        · exact List.mem_cons_self
        · exact List.mem_cons_of_mem other (ih later)

theorem firsts_isPrefix (ops more : List α) (seen : List (κ × τ)) :
    firsts client seq seen ops <+: firsts client seq seen (ops ++ more) := by
  induction ops generalizing seen with
  | nil => exact List.nil_prefix
  | cons op rest ih =>
      by_cases mem : (client op, seq op) ∈ seen
      · rw [List.cons_append, firsts_of_mem mem, firsts_of_mem mem]
        exact ih seen
      · rw [List.cons_append, firsts_of_notMem mem, firsts_of_notMem mem]
        exact (List.prefix_cons_inj op).2 (ih _)

end Firsts

section Tracks

variable [DecidableEq κ] [LinearOrder τ]

/-- The marks cover what was seen and lie below what is to come, and each client's new sequence
numbers come in increasing order. -/
structure Tracks (mark : κ → τ) (seen : List (κ × τ)) (ops : List α) : Prop where
  covered : ∀ id ∈ seen, id.2 ≤ mark id.1
  above : ∀ op ∈ firsts client seq seen ops, mark (client op) < seq op
  increasing : (firsts client seq seen ops).Pairwise fun earlier later =>
    client earlier = client later → seq earlier < seq later

variable {client seq} {mark : κ → τ} {seen : List (κ × τ)} {op : α} {ops rest : List α}

namespace Tracks

theorem nil_seen (above : ∀ op ∈ firsts client seq [] ops, mark (client op) < seq op)
    (increasing : (firsts client seq [] ops).Pairwise fun earlier later =>
      client earlier = client later → seq earlier < seq later) :
    Tracks client seq mark [] ops :=
  ⟨fun _ mem => absurd mem List.not_mem_nil, above, increasing⟩

/-- The mark tells a repetition from a first occurrence. -/
theorem le_mark_iff (tracks : Tracks client seq mark seen (op :: rest)) :
    seq op ≤ mark (client op) ↔ (client op, seq op) ∈ seen := by
  refine ⟨fun low => ?_, fun mem => tracks.covered _ mem⟩
  by_contra notMem
  have first : op ∈ firsts client seq seen (op :: rest) := by
    rw [firsts_of_notMem notMem]
    exact List.mem_cons_self
  exact absurd (tracks.above op first) (not_lt_of_ge low)

theorem skip (tracks : Tracks client seq mark seen (op :: rest))
    (mem : (client op, seq op) ∈ seen) : Tracks client seq mark seen rest := by
  obtain ⟨covered, above, increasing⟩ := tracks
  rw [firsts_of_mem mem] at above increasing
  exact ⟨covered, above, increasing⟩

theorem take (tracks : Tracks client seq mark seen (op :: rest))
    (notMem : (client op, seq op) ∉ seen) :
    Tracks client seq (Function.update mark (client op) (seq op))
      ((client op, seq op) :: seen) rest := by
  obtain ⟨covered, above, increasing⟩ := tracks
  rw [firsts_of_notMem notMem] at above increasing
  rw [List.pairwise_cons] at increasing
  have grows : mark (client op) < seq op := above op List.mem_cons_self
  refine ⟨fun id mem => ?_, fun later mem => ?_, increasing.2⟩
  · rcases List.mem_cons.1 mem with rfl | old
    · rw [Function.update_self]
    · by_cases same : id.1 = client op
      · rw [same, Function.update_self]
        have low := covered id old
        rw [same] at low
        exact le_trans low (le_of_lt grows)
      · rw [Function.update_of_ne same]
        exact covered id old
  · by_cases same : client later = client op
    · rw [same, Function.update_self]
      exact increasing.1 later mem same.symm
    · rw [Function.update_of_ne same]
      exact above later (List.mem_cons_of_mem op mem)

/-- What holds of a whole log holds of its beginnings. -/
theorem of_append {more : List α} (tracks : Tracks client seq mark seen (ops ++ more)) :
    Tracks client seq mark seen ops := by
  have isPrefix : firsts client seq seen ops <+: firsts client seq seen (ops ++ more) :=
    firsts_isPrefix ops more seen
  exact ⟨tracks.covered, fun op mem => tracks.above op (isPrefix.subset mem),
    tracks.increasing.sublist isPrefix.sublist⟩

end Tracks

end Tracks

section Records

variable [LinearOrder τ]

/-- The operations of one client that exceed the mark, which follows them. -/
def records (mark : τ) : List α → List α
  | [] => []
  | op :: rest => if seq op ≤ mark then records mark rest else op :: records (seq op) rest

variable {client seq} {mark : τ} {op : α} {ops : List α}

theorem records_of_le (old : seq op ≤ mark) :
    records seq mark (op :: ops) = records seq mark ops :=
  if_pos old

theorem records_of_lt (new : mark < seq op) :
    records seq mark (op :: ops) = op :: records seq (seq op) ops :=
  if_neg (not_le.2 new)

theorem lt_of_mem_records (member : op ∈ records seq mark ops) : mark < seq op := by
  induction ops generalizing mark with
  | nil => exact absurd member List.not_mem_nil
  | cons first rest ih =>
      rcases le_or_gt (seq first) mark with old | new
      · rw [records_of_le old] at member
        exact ih member
      · rw [records_of_lt new] at member
        rcases List.mem_cons.1 member with rfl | later
        · exact new
        · exact lt_trans new (ih later)

/-- No number is taken twice. -/
theorem records_increasing (mark : τ) (ops : List α) :
    (records seq mark ops).Pairwise fun earlier later => seq earlier < seq later := by
  induction ops generalizing mark with
  | nil => exact .nil
  | cons first rest ih =>
      rcases le_or_gt (seq first) mark with old | new
      · rw [records_of_le old]
        exact ih mark
      · rw [records_of_lt new]
        exact .cons (fun later member => lt_of_mem_records member) (ih _)

variable [DecidableEq κ] {seen : List (κ × τ)}

/-- Every operation of the client was seen or is taken exactly if the first occurrences exceed the
mark and come in increasing order. -/
theorem records_complete_iff {one : κ} (same : ∀ op ∈ ops, client op = one)
    (covered : ∀ id ∈ seen, id.2 ≤ mark) :
    (∀ op ∈ ops, (one, seq op) ∈ seen ∨ seq op ∈ (records seq mark ops).map seq) ↔
      (∀ op ∈ firsts client seq seen ops, mark < seq op) ∧
        (firsts client seq seen ops).Pairwise fun earlier later => seq earlier < seq later := by
  induction ops generalizing mark seen with
  | nil => simp [firsts]
  | cons op rest ih =>
      rw [List.forall_mem_cons] at same
      obtain ⟨here, others⟩ := same
      by_cases mem : (client op, seq op) ∈ seen
      · have old : seq op ≤ mark := covered _ mem
        rw [firsts_of_mem mem, records_of_le old, ← ih others covered, List.forall_mem_cons]
        exact and_iff_right (.inl (here ▸ mem))
      rw [firsts_of_notMem mem, List.forall_mem_cons, List.forall_mem_cons, List.pairwise_cons]
      rcases le_or_gt (seq op) mark with old | new
      · -- The mark hides the operation: neither side holds.
        refine iff_of_false ?_ fun above => absurd above.1.1 (not_lt.2 old)
        rintro ⟨seenHere | taken, -⟩
        · exact mem (here ▸ seenHere)
        · rw [records_of_le old] at taken
          obtain ⟨other, member, equal⟩ := List.mem_map.1 taken
          exact absurd (equal ▸ lt_of_mem_records member) (not_lt.2 old)
      · have covered' : ∀ id ∈ (client op, seq op) :: seen, id.2 ≤ seq op := by
          rw [List.forall_mem_cons]
          exact ⟨le_rfl, fun id member => le_trans (covered id member) new.le⟩
        have known : ∀ other,
            ((one, seq other) ∈ seen ∨ seq other ∈ (op :: records seq (seq op) rest).map seq) ↔
              ((one, seq other) ∈ (client op, seq op) :: seen ∨
                seq other ∈ (records seq (seq op) rest).map seq) := by
          intro other
          rw [List.map_cons, List.mem_cons, List.mem_cons, Prod.mk.injEq, here, eq_self, true_and,
            or_comm (a := seq other = seq op) (b := (one, seq other) ∈ seen), or_assoc]
        rw [records_of_lt new, forall₂_congr fun other _ => known other, ih others covered']
        constructor
        · rintro ⟨-, above, increasing⟩
          exact ⟨⟨new, fun other member => lt_trans new (above other member)⟩, above, increasing⟩
        · rintro ⟨-, above, increasing⟩
          exact ⟨.inr List.mem_cons_self, above, increasing⟩

end Records

end Mit6824.Dedup
