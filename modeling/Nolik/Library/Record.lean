import Nolik.Library.Effects
import Mathlib.Data.Fin.Tuple.Basic

/-! A record with `n` fields of different types is a dependent function on `Fin n`. Its fields
are computed in order, and the first error ends the traversal. -/
namespace Effects

/-- `Self { f₀: a₀?, f₁: a₁?, .. }`. -/
def collectFields {m : Type → Type} [Monad m] :
    {n : Nat} → {P : Fin n → Type} → (∀ i, m (P i)) → m (∀ i, P i)
  | 0, _, _ => pure fun i => i.elim0
  | _ + 1, _, f => do
      let first ← f 0
      let others ← collectFields fun i => f i.succ
      pure (Fin.cons first others)

/-- The fields of a record as a list of one type. -/
theorem mapM_ofFn_map {m : Type → Type} [Monad m] [LawfulMonad m] {β : Type} {n : Nat}
    {P : Fin n → Type} (f : ∀ i, m (P i)) (g : ∀ i, P i → β) :
    (List.ofFn fun i => g i <$> f i).mapM id =
      (fun x => List.ofFn fun i => g i (x i)) <$> collectFields f := by
  induction n with
  | zero => simp only [List.ofFn_zero, List.mapM_nil, collectFields, map_pure]
  | succ n ih =>
      rw [List.ofFn_succ, List.mapM_cons, ih, collectFields]
      simp only [id, map_eq_pure_bind, bind_assoc, pure_bind, List.ofFn_succ, Fin.cons_zero,
        Fin.cons_succ]

variable {W ε : Type}

theorem Traced.result_collectFields {n : Nat} {P : Fin n → Type}
    (f : ∀ i, Traced W ε (P i)) :
    (collectFields f).result = collectFields fun i => (f i).result := by
  induction n with
  | zero => rfl
  | succ n ih =>
      rw [collectFields, collectFields, Traced.result_bind]
      congr 1
      funext first
      rw [Traced.result_bind, ih]
      rfl

theorem except_collectFields_ok_iff {n : Nat} {P : Fin n → Type} {f : ∀ i, Except ε (P i)}
    {x : ∀ i, P i} : collectFields f = .ok x ↔ ∀ i, f i = .ok (x i) := by
  induction n with
  | zero => exact ⟨fun _ i => i.elim0, fun _ => congrArg Except.ok (funext fun i => i.elim0)⟩
  | succ n ih =>
      rw [collectFields, Fin.forall_fin_succ]
      have tail := @ih (fun i => P i.succ) (fun i => f i.succ) (fun i => x i.succ)
      rw [← tail]
      cases f 0 with
      | error e => exact ⟨fun h => (by cases h), fun h => (by cases h.1)⟩
      | ok first =>
          cases collectFields fun i => f i.succ with
          | error e => exact ⟨fun h => (by cases h), fun h => (by cases h.2)⟩
          | ok others =>
              constructor
              · intro h
                cases Except.ok.inj h
                exact ⟨rfl, rfl⟩
              · rintro ⟨head, rest⟩
                cases Except.ok.inj head
                cases Except.ok.inj rest
                exact congrArg Except.ok (Fin.cons_self_tail x)

theorem except_collectFields_error {n : Nat} {P : Fin n → Type} {f : ∀ i, Except ε (P i)}
    {i : Fin n} (refused : ∃ e, f i = .error e) : ∃ e, collectFields f = .error e := by
  obtain ⟨e, refused⟩ := refused
  cases built : collectFields f with
  | error e => exact ⟨e, rfl⟩
  | ok x =>
      rw [except_collectFields_ok_iff.mp built i] at refused
      cases refused

end Effects
