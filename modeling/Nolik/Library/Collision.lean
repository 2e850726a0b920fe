import Mathlib.Data.List.Basic
import Mathlib.Data.Set.Function

/-! Binding is stated relative to a finite list of strings that were really hashed. No global
injectivity of a digest is assumed anywhere. -/
namespace Digest

variable {S D : Type} {H : S → D}

/-- Two different strings of the list have one digest. -/
def Collision (H : S → D) (strings : List S) : Prop :=
  ∃ x ∈ strings, ∃ y ∈ strings, x ≠ y ∧ H x = H y

instance [DecidableEq S] [DecidableEq D] (H : S → D) (strings : List S) :
    Decidable (Collision H strings) :=
  inferInstanceAs (Decidable (∃ x ∈ strings, ∃ y ∈ strings, x ≠ y ∧ H x = H y))

theorem injOn_of_not_collision {strings : List S} (free : ¬ Collision H strings) :
    Set.InjOn H {x | x ∈ strings} := by
  intro x hx y hy same
  by_contra different
  exact free ⟨x, hx, y, hy, different, same⟩

theorem map_eq_of_injOn {known : Set S} (binding : Set.InjOn H known) {xs ys : List S}
    (hx : ∀ x ∈ xs, x ∈ known) (hy : ∀ y ∈ ys, y ∈ known) (same : xs.map H = ys.map H) :
    xs = ys := by
  induction xs generalizing ys with
  | nil => exact (List.map_eq_nil_iff.mp same.symm).symm
  | cons x xs ih =>
      cases ys with
      | nil => cases same
      | cons y ys =>
          obtain ⟨head, tail⟩ := List.cons_eq_cons.mp same
          obtain ⟨hx, hxs⟩ := List.forall_mem_cons.mp hx
          obtain ⟨hy, hys⟩ := List.forall_mem_cons.mp hy
          rw [binding hx hy head, ih hxs hys tail]

end Digest
