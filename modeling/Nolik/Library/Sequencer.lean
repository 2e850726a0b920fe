import Mathlib.Data.List.Nodup
import Mathlib.Data.List.Range

/-! A sequencer gives each admitted request the next number and drops the others. What a request
is and what is kept of it are parameters. -/
namespace Sequencing

variable {C P K : Type}

/-- What is kept of the admitted requests, the first of them numbered `n`. -/
def sequence (admission : Nat → C → Option P) : Nat → List C → List P
  | _, [] => []
  | n, c :: cs => match admission n c with
    | none => sequence admission n cs
    | some p => p :: sequence admission (n + 1) cs

variable {admission : Nat → C → Option P}

@[simp] theorem sequence_nil (n : Nat) : sequence admission n [] = [] := rfl

theorem sequence_cons_none {n : Nat} {c : C} (refused : admission n c = none) (cs : List C) :
    sequence admission n (c :: cs) = sequence admission n cs := by
  simp only [sequence, refused]

theorem sequence_cons_some {n : Nat} {c : C} {p : P} (admitted : admission n c = some p)
    (cs : List C) : sequence admission n (c :: cs) = p :: sequence admission (n + 1) cs := by
  simp only [sequence, admitted]

theorem sequence_append (n : Nat) (first second : List C) :
    sequence admission n (first ++ second) = sequence admission n first ++
      sequence admission (n + (sequence admission n first).length) second := by
  induction first generalizing n with
  | nil => rfl
  | cons c cs ih =>
      cases decision : admission n c with
      | none =>
          rw [List.cons_append, sequence_cons_none decision, sequence_cons_none decision, ih]
      | some p =>
          rw [List.cons_append, sequence_cons_some decision, sequence_cons_some decision, ih,
            List.length_cons, List.cons_append, Nat.add_assoc, Nat.add_comm 1]

theorem mem_sequence_iff {n : Nat} {cs : List C} {p : P} :
    p ∈ sequence admission n cs ↔ ∃ before c after, cs = before ++ c :: after ∧
      admission (n + (sequence admission n before).length) c = some p := by
  constructor
  · intro member
    induction cs generalizing n with
    | nil => cases member
    | cons c cs ih =>
        cases decision : admission n c with
        | none =>
            rw [sequence_cons_none decision] at member
            obtain ⟨before, c', after, rfl, admitted⟩ := ih member
            refine ⟨c :: before, c', after, rfl, ?_⟩
            rwa [sequence_cons_none decision]
        | some q =>
            rw [sequence_cons_some decision] at member
            rcases List.mem_cons.mp member with rfl | later
            · exact ⟨[], c, cs, rfl, decision⟩
            · obtain ⟨before, c', after, rfl, admitted⟩ := ih later
              refine ⟨c :: before, c', after, rfl, ?_⟩
              rwa [sequence_cons_some decision, List.length_cons, Nat.add_comm _ 1, ← Nat.add_assoc]
  · rintro ⟨before, c, after, rfl, admitted⟩
    rw [sequence_append, sequence_cons_some admitted]
    exact List.mem_append_right _ List.mem_cons_self

/-- What is kept of a request carries the number the request was given. -/
def Numbers (admission : Nat → C → Option P) (number : P → Nat) : Prop :=
  ∀ {n c p}, admission n c = some p → number p = n

theorem map_number_sequence {number : P → Nat} (numbers : Numbers admission number) (n : Nat)
    (cs : List C) :
    (sequence admission n cs).map number = List.range' n (sequence admission n cs).length := by
  induction cs generalizing n with
  | nil => rfl
  | cons c cs ih =>
      cases decision : admission n c with
      | none => rw [sequence_cons_none decision, ih]
      | some p =>
          rw [sequence_cons_some decision, List.map_cons, ih, numbers decision, List.length_cons,
            List.range'_succ]

/-- Keys that determine the number never repeat. -/
theorem nodup_map_sequence {number : P → Nat} {key : P → K} (numbers : Numbers admission number)
    (determines : ∀ {p q}, key p = key q → number p = number q) (n : Nat) (cs : List C) :
    ((sequence admission n cs).map key).Nodup := by
  have distinct : ((sequence admission n cs).map number).Nodup := by
    rw [map_number_sequence numbers]
    exact List.nodup_range'
  apply (distinct.of_map number).map_on
  intro p hp q hq same
  exact List.inj_on_of_nodup_map distinct hp hq (determines same)

end Sequencing
