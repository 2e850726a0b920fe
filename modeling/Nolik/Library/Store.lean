import Mathlib.Data.List.Nodup
import Mathlib.Logic.Function.Basic

/-! A store that only ever receives puts answers a key with its last write. Which of the writes
survive is then a property of the list of pairs alone. -/
namespace KeyValue

variable {K V : Type}

/-- The pairs relate a key to at most one value. -/
def Functional (pairs : List (K × V)) : Prop :=
  ∀ p ∈ pairs, ∀ q ∈ pairs, p.1 = q.1 → p.2 = q.2

instance [DecidableEq K] [DecidableEq V] (pairs : List (K × V)) : Decidable (Functional pairs) :=
  inferInstanceAs (Decidable (∀ p ∈ pairs, ∀ q ∈ pairs, p.1 = q.1 → p.2 = q.2))

theorem functional_of_nodup {pairs : List (K × V)} (distinct : (pairs.map Prod.fst).Nodup) :
    Functional pairs := by
  intro p hp q hq same
  exact congrArg Prod.snd (List.inj_on_of_nodup_map distinct hp hq same)

abbrev Store (K V : Type) := K → Option V

def Store.empty : Store K V := fun _ => none

section Puts
variable [DecidableEq K]

def Store.put (s : Store K V) (p : K × V) : Store K V := Function.update s p.1 (some p.2)

def Store.putAll (s : Store K V) (pairs : List (K × V)) : Store K V := pairs.foldl put s

@[simp] theorem putAll_nil (s : Store K V) : s.putAll [] = s := rfl

@[simp] theorem putAll_cons (s : Store K V) (p : K × V) (pairs : List (K × V)) :
    s.putAll (p :: pairs) = (s.put p).putAll pairs := rfl

theorem putAll_append (s : Store K V) (first second : List (K × V)) :
    s.putAll (first ++ second) = (s.putAll first).putAll second := List.foldl_append

theorem putAll_of_notMem {pairs : List (K × V)} {k : K} (absent : k ∉ pairs.map Prod.fst)
    (s : Store K V) : s.putAll pairs k = s k := by
  induction pairs generalizing s with
  | nil => rfl
  | cons p pairs ih =>
      simp only [List.map_cons, List.mem_cons, not_or] at absent
      rw [putAll_cons, ih absent.2, Store.put, Function.update_of_ne absent.1]

/-- A written key holds one of the values written under it. -/
theorem putAll_of_mem {pairs : List (K × V)} {k : K} (written : k ∈ pairs.map Prod.fst)
    (s : Store K V) : ∃ v, (k, v) ∈ pairs ∧ s.putAll pairs k = some v := by
  induction pairs generalizing s with
  | nil => cases written
  | cons p pairs ih =>
      by_cases later : k ∈ pairs.map Prod.fst
      · obtain ⟨v, member, holds⟩ := ih later (s.put p)
        exact ⟨v, List.mem_cons_of_mem p member, holds⟩
      · have newest : k = p.1 := (List.mem_cons.mp written).resolve_right later
        subst newest
        refine ⟨p.2, List.mem_cons_self, ?_⟩
        rw [putAll_cons, putAll_of_notMem later, Store.put, Function.update_self]

/-- What a store filled from the empty one holds was written. -/
theorem mem_of_putAll_empty {pairs : List (K × V)} {k : K} {v : V}
    (holds : Store.empty.putAll pairs k = some v) : (k, v) ∈ pairs := by
  by_cases written : k ∈ pairs.map Prod.fst
  · obtain ⟨v', member, holds'⟩ := putAll_of_mem written Store.empty
    rw [holds] at holds'
    cases holds'
    exact member
  · rw [putAll_of_notMem written] at holds
    cases holds

/-- Every write is still there exactly when no key was written with two values. -/
theorem putAll_holds_iff {pairs : List (K × V)} (s : Store K V) :
    (∀ p ∈ pairs, s.putAll pairs p.1 = some p.2) ↔ Functional pairs := by
  constructor
  · intro holds p hp q hq same
    have both := holds q hq
    rw [← same, holds p hp] at both
    exact Option.some.inj both
  · intro functional p hp
    obtain ⟨v, member, holds⟩ := putAll_of_mem (List.mem_map_of_mem hp) s
    exact holds.trans (congrArg some (functional _ member p hp rfl))

/-- The order of the writes is lost where no key is written with two values. -/
theorem putAll_congr_of_functional {pairs pairs' : List (K × V)}
    (functional : Functional pairs) (same : ∀ p, p ∈ pairs ↔ p ∈ pairs') (s : Store K V) :
    s.putAll pairs = s.putAll pairs' := by
  funext k
  by_cases written : k ∈ pairs.map Prod.fst
  · obtain ⟨p, member, rfl⟩ := List.mem_map.mp written
    have written' : p.1 ∈ pairs'.map Prod.fst := List.mem_map_of_mem ((same p).mp member)
    obtain ⟨v, first, holds⟩ := putAll_of_mem written s
    obtain ⟨v', second, holds'⟩ := putAll_of_mem written' s
    have agree : v = v' := functional _ first _ ((same _).mpr second) rfl
    rw [holds, holds', agree]
  · have written' : k ∉ pairs'.map Prod.fst := by
      intro listed
      obtain ⟨p, member, rfl⟩ := List.mem_map.mp listed
      exact written (List.mem_map_of_mem ((same p).mpr member))
    rw [putAll_of_notMem written, putAll_of_notMem written']

end Puts
end KeyValue
