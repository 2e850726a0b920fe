import Mathlib.Data.List.Forall2
import Mathlib.Tactic.Common

/-! `Logged` keeps the list of calls made on the way to a value. `Traced` adds the early return
of a `Result`, so the log stops at the first error. `Outcome` is a `Result` next to an abort.
Mathlib's `WriterT` is lawful only for a monoid of logs, and a plain list is no instance of one.
-/
namespace Effects

/-- A value and the calls made on the way to it, oldest first. -/
structure Logged (W α : Type) where
  value : α
  log : List W

variable {W ε α β : Type}

instance : Monad (Logged W) where
  pure a := ⟨a, []⟩
  bind x f := ⟨(f x.value).value, x.log ++ (f x.value).log⟩

@[simp] theorem Logged.value_pure (a : α) : (pure a : Logged W α).value = a := rfl
@[simp] theorem Logged.log_pure (a : α) : (pure a : Logged W α).log = [] := rfl
@[simp] theorem Logged.value_bind (x : Logged W α) (f : α → Logged W β) :
    (x >>= f).value = (f x.value).value := rfl
@[simp] theorem Logged.log_bind (x : Logged W α) (f : α → Logged W β) :
    (x >>= f).log = x.log ++ (f x.value).log := rfl

@[ext] theorem Logged.ext {x y : Logged W α} (value : x.value = y.value)
    (log : x.log = y.log) : x = y := by
  cases x; cases y; cases value; cases log; rfl

instance : LawfulMonad (Logged W) := LawfulMonad.mk' (Logged W)
  (fun x => Logged.ext rfl (List.append_nil x.log))
  (fun _ _ => Logged.ext rfl (List.nil_append _))
  (fun _ _ _ => Logged.ext rfl (List.append_assoc _ _ _))

/-- One call on the log. -/
def Logged.call (w : W) (a : α) : Logged W α := ⟨a, [w]⟩

@[simp] theorem Logged.value_call (w : W) (a : α) : (Logged.call w a).value = a := rfl
@[simp] theorem Logged.log_call (w : W) (a : α) : (Logged.call w a).log = [w] := rfl

theorem Logged.value_foldlM (f : β → α → Logged W β) (l : List α) (b : β) :
    (l.foldlM f b).value = l.foldl (fun b a => (f b a).value) b := by
  induction l generalizing b with
  | nil => rfl
  | cons a l ih => simp only [List.foldlM_cons, value_bind, List.foldl_cons, ih]

/-- A loop whose calls depend on its elements only, never on its state. -/
theorem Logged.log_foldlM {f : β → α → Logged W β} (calls : α → List W)
    (stateless : ∀ b a, (f b a).log = calls a) (l : List α) (b : β) :
    (l.foldlM f b).log = l.flatMap calls := by
  induction l generalizing b with
  | nil => rfl
  | cons a l ih => simp only [List.foldlM_cons, log_bind, List.flatMap_cons, ih, stateless]

/-- A logged computation that returns early at its first error. -/
abbrev Traced (W ε : Type) := ExceptT ε (Logged W)

namespace Traced

def result (x : Traced W ε α) : Except ε α := x.run.value
def trace (x : Traced W ε α) : List W := x.run.log

/-- One call, logged whether or not it succeeds. -/
def call (w : W) (r : Except ε α) : Traced W ε α := ExceptT.mk (Logged.call w r)

@[simp] theorem result_pure (a : α) : result (pure a : Traced W ε α) = .ok a := rfl
@[simp] theorem result_call (w : W) (r : Except ε α) : result (call w r) = r := rfl

theorem result_bind (x : Traced W ε α) (f : α → Traced W ε β) :
    result (x >>= f) = result x >>= fun a => result (f a) := by
  obtain ⟨r, log⟩ := x
  cases r <;> rfl

theorem trace_bind_ok {x : Traced W ε α} {a : α} (ok : result x = .ok a)
    (f : α → Traced W ε β) : trace (x >>= f) = trace x ++ trace (f a) := by
  obtain ⟨r, log⟩ := x
  cases r with
  | error e => cases ok
  | ok b => cases ok; rfl

/-- A last step that only rebuilds the value makes no call. -/
theorem trace_bind_pure (x : Traced W ε α) (g : α → β) :
    trace (x >>= fun a => pure (g a)) = trace x := by
  obtain ⟨r, log⟩ := x
  cases r <;> exact List.append_nil log

theorem result_mapM (f : α → Traced W ε β) (l : List α) :
    result (l.mapM f) = l.mapM (fun a => result (f a)) := by
  induction l with
  | nil => rfl
  | cons a l ih =>
      simp only [List.mapM_cons, result_bind, result_pure, ih]
      rfl

theorem trace_mapM_ok (f : α → Traced W ε β) (l : List α)
    (ok : ∀ a ∈ l, ∃ b, result (f a) = .ok b) :
    trace (l.mapM f) = l.flatMap (fun a => trace (f a)) := by
  induction l with
  | nil => rfl
  | cons a l ih =>
      obtain ⟨b, first⟩ := ok a List.mem_cons_self
      have later : ∀ x ∈ l, ∃ y, result (f x) = .ok y :=
        fun x member => ok x (List.mem_cons_of_mem a member)
      rw [List.mapM_cons, trace_bind_ok first, trace_bind_pure, ih later, List.flatMap_cons]

end Traced

/-- A pure function after every step moves out of the traversal. -/
theorem mapM_map_comm {m : Type → Type} [Monad m] [LawfulMonad m] {γ : Type} (f : α → m β)
    (g : β → γ) (l : List α) : l.mapM (fun a => g <$> f a) = List.map g <$> l.mapM f := by
  induction l with
  | nil => simp only [List.mapM_nil, map_pure, List.map_nil]
  | cons a l ih =>
      simp only [List.mapM_cons, ih, map_bind, map_pure, bind_map_left, List.map_cons]

/-- A function on the elements that every step carries over is carried over by the traversal. -/
theorem mapM_map_of_comm {m : Type → Type} [Monad m] [LawfulMonad m] {f : α → m β} {g : α → α}
    {h : β → β} (carries : ∀ a, f (g a) = h <$> f a) (l : List α) :
    (l.map g).mapM f = List.map h <$> l.mapM f := by
  rw [List.mapM_map, ← mapM_map_comm]
  congr 1
  funext a
  exact carries a

theorem except_bind_ok_iff {x : Except ε α} {f : α → Except ε β} {b : β} :
    (x >>= f) = .ok b ↔ ∃ a, x = .ok a ∧ f a = .ok b := by
  cases x with
  | error e => exact ⟨fun h => (by cases h), fun ⟨_, h, _⟩ => (by cases h)⟩
  | ok a =>
      constructor
      · exact fun h => ⟨a, rfl, h⟩
      · rintro ⟨a', same, h⟩
        cases same
        exact h

theorem except_bind_error_iff {x : Except ε α} {f : α → Except ε β} {e : ε} :
    (x >>= f) = .error e ↔ x = .error e ∨ ∃ a, x = .ok a ∧ f a = .error e := by
  cases x with
  | error e' =>
      constructor
      · exact fun h => .inl (congrArg _ (Except.error.inj h))
      · rintro (same | ⟨a, same, -⟩)
        · exact congrArg _ (Except.error.inj same)
        · cases same
  | ok a =>
      constructor
      · exact fun h => .inr ⟨a, rfl, h⟩
      · rintro (same | ⟨a', same, h⟩)
        · cases same
        · cases same
          exact h

theorem except_mapError_ok_iff {δ : Type} {x : Except ε α} {f : ε → δ} {a : α} :
    x.mapError f = .ok a ↔ x = .ok a := by
  cases x with
  | error e => exact ⟨fun h => (by cases h), fun h => (by cases h)⟩
  | ok a' => exact ⟨fun h => congrArg _ (Except.ok.inj h), fun h => congrArg _ (Except.ok.inj h)⟩

theorem except_mapError_error_iff {δ : Type} {x : Except ε α} {f : ε → δ} {d : δ} :
    x.mapError f = .error d ↔ ∃ e, x = .error e ∧ f e = d := by
  cases x with
  | ok a => exact ⟨fun h => (by cases h), fun ⟨_, h, _⟩ => (by cases h)⟩
  | error e =>
      constructor
      · exact fun h => ⟨e, rfl, Except.error.inj h⟩
      · rintro ⟨e', same, h⟩
        cases same
        exact congrArg Except.error h

theorem except_pure_ok_iff {a b : α} : (pure a : Except ε α) = .ok b ↔ a = b :=
  ⟨Except.ok.inj, congrArg Except.ok⟩

/-- Every step succeeded, and the log plays no part in it. -/
theorem Traced.bind_ok_iff {x : Traced W ε α} {f : α → Traced W ε β} {b : β} :
    (x >>= f).result = .ok b ↔ ∃ a, x.result = .ok a ∧ (f a).result = .ok b := by
  rw [Traced.result_bind]
  exact except_bind_ok_iff

theorem Traced.pure_ok_iff {a b : α} :
    (pure a : Traced W ε α).result = .ok b ↔ a = b := except_pure_ok_iff

theorem except_mapM_ok_iff {f : α → Except ε β} {l : List α} {bs : List β} :
    l.mapM f = .ok bs ↔ List.Forall₂ (fun a b => f a = .ok b) l bs := by
  induction l generalizing bs with
  | nil =>
      rw [List.forall₂_nil_left_iff]
      exact ⟨fun h => (Except.ok.inj h).symm, fun h => h ▸ rfl⟩
  | cons a l ih =>
      rw [List.mapM_cons, List.forall₂_cons_left_iff]
      cases first : f a with
      | error e => exact ⟨fun h => (by cases h), fun ⟨b, _, h, _⟩ => (by cases h)⟩
      | ok b =>
          cases rest : l.mapM f with
          | error e =>
              refine ⟨fun h => (by cases h), fun ⟨_, tail, _, related, _⟩ => ?_⟩
              cases rest.symm.trans (ih.mpr related)
          | ok tail =>
              constructor
              · intro h
                exact ⟨b, tail, rfl, ih.mp rest, (Except.ok.inj h).symm⟩
              · rintro ⟨b', tail', same, related, rfl⟩
                cases same
                cases rest.symm.trans (ih.mpr related)
                rfl

/-- A traversal gets through when every element does. -/
theorem except_mapM_total_iff {f : α → Except ε β} {l : List α} :
    (∃ bs, l.mapM f = .ok bs) ↔ ∀ a ∈ l, ∃ b, f a = .ok b := by
  simp only [except_mapM_ok_iff]
  induction l with
  | nil => exact ⟨fun _ a member => (by cases member), fun _ => ⟨[], .nil⟩⟩
  | cons a l ih =>
      rw [List.forall_mem_cons, ← ih]
      simp only [List.forall₂_cons_left_iff]
      constructor
      · rintro ⟨_, b, bs, first, rest, rfl⟩
        exact ⟨⟨b, first⟩, bs, rest⟩
      · rintro ⟨⟨b, first⟩, bs, rest⟩
        exact ⟨b :: bs, b, bs, first, rest, rfl⟩

/-- With one error to report, a traversal that does not get through reports it. -/
theorem except_mapM_or_error {e : ε} {f : α → Except ε β} {l : List α}
    (each : ∀ a ∈ l, (∃ b, f a = .ok b) ∨ f a = .error e) :
    (∃ bs, l.mapM f = .ok bs) ∨ (∃ a ∈ l, f a = .error e) ∧ l.mapM f = .error e := by
  induction l with
  | nil => exact .inl ⟨[], rfl⟩
  | cons a l ih =>
      obtain ⟨first, rest⟩ := List.forall_mem_cons.mp each
      rw [List.mapM_cons]
      rcases first with ⟨b, passed⟩ | refused
      · rw [passed]
        rcases ih rest with ⟨bs, traversed⟩ | ⟨⟨x, member, refused⟩, stopped⟩
        · exact .inl ⟨b :: bs, by rw [traversed]; rfl⟩
        · exact .inr ⟨⟨x, List.mem_cons_of_mem a member, refused⟩, by rw [stopped]; rfl⟩
      · exact .inr ⟨⟨a, List.mem_cons_self, refused⟩, by rw [refused]; rfl⟩

/-- The results have a property when every element can only give one that has it. -/
theorem except_mapM_forall_iff {f : α → Except ε β} {l : List α} {bs : List β}
    (traversed : l.mapM f = .ok bs) {P : β → Prop} :
    (∀ b ∈ bs, P b) ↔ ∀ a ∈ l, ∀ b, f a = .ok b → P b := by
  induction except_mapM_ok_iff.mp traversed with
  | nil => simp only [List.not_mem_nil, false_implies, implies_true]
  | cons first related ih =>
      rw [List.forall_mem_cons, List.forall_mem_cons, ih (except_mapM_ok_iff.mpr related), first]
      simp only [Except.ok.injEq, forall_eq']

/-- What each result owes to its source holds of every result. -/
theorem forall_mem_of_forall₂ {R : α → β → Prop} {P : β → Prop} {l : List α} {bs : List β}
    (related : List.Forall₂ R l bs) (owed : ∀ a b, R a b → P b) : ∀ b ∈ bs, P b := by
  induction related with
  | nil => exact fun b member => (by cases member)
  | cons first _ ih => exact List.forall_mem_cons.mpr ⟨owed _ _ first, ih⟩

theorem map_eq_map_of_forall₂ {γ : Type} {R : α → β → Prop} {f : β → γ} {g : α → γ} {l : List α}
    {bs : List β} (related : List.Forall₂ R l bs) (owed : ∀ a b, R a b → f b = g a) :
    bs.map f = l.map g := by
  induction related with
  | nil => rfl
  | cons first _ ih => rw [List.map_cons, List.map_cons, owed _ _ first, ih]

theorem exists_mem_of_forall₂ {R : α → β → Prop} {l : List α} {bs : List β}
    (related : List.Forall₂ R l bs) {a : α} (member : a ∈ l) : ∃ b ∈ bs, R a b := by
  induction related with
  | nil => cases member
  | cons first _ ih =>
      rcases List.mem_cons.mp member with rfl | later
      · exact ⟨_, List.mem_cons_self, first⟩
      · obtain ⟨b, found, relates⟩ := ih later
        exact ⟨b, List.mem_cons_of_mem _ found, relates⟩

/-- One element that fails fails the traversal. -/
theorem except_mapM_error {f : α → Except ε β} {l : List α} {a : α} (member : a ∈ l)
    (refused : ∃ e, f a = .error e) : ∃ e, l.mapM f = .error e := by
  cases traversed : l.mapM f with
  | error e => exact ⟨e, rfl⟩
  | ok bs =>
      obtain ⟨b, passed⟩ := except_mapM_total_iff.mp ⟨bs, traversed⟩ a member
      obtain ⟨e, refused⟩ := refused
      rw [refused] at passed
      cases passed

theorem except_forM_ok_iff {f : α → Except ε Unit} {l : List α} :
    l.forM f = .ok () ↔ ∀ a ∈ l, f a = .ok () := by
  induction l with
  | nil => exact ⟨fun _ a member => (by cases member), fun _ => rfl⟩
  | cons a l ih =>
      rw [List.forall_mem_cons, ← ih]
      change (f a >>= fun _ => l.forM f) = _ ↔ _
      cases f a with
      | error e => exact ⟨fun h => (by cases h), fun h => (by cases h.1)⟩
      | ok u => exact ⟨fun h => ⟨rfl, h⟩, fun h => h.2⟩

/-- A loop with one error to report reports it, or passes. -/
theorem except_forM_or_error {e : ε} {f : α → Except ε Unit} {l : List α}
    (each : ∀ a ∈ l, f a = .ok () ∨ f a = .error e) :
    l.forM f = .ok () ∨ l.forM f = .error e := by
  induction l with
  | nil => exact .inl rfl
  | cons a l ih =>
      obtain ⟨first, rest⟩ := List.forall_mem_cons.mp each
      change (f a >>= fun _ => l.forM f) = _ ∨ (f a >>= fun _ => l.forM f) = _
      rcases first with passed | refused
      · rw [passed]
        exact ih rest
      · rw [refused]
        exact .inr rfl

/-- A guard passes when its condition fails; what follows it is then run. -/
theorem except_guard_ok_iff {c : Prop} [Decidable c] {e : ε} {rest : Except ε Unit} :
    (if c then (throw e >>= fun (_ : Unit) => rest) else rest) = .ok () ↔ ¬ c ∧ rest = .ok () := by
  by_cases refused : c
  · rw [if_pos refused]
    exact ⟨fun h => (by cases h), fun h => absurd refused h.1⟩
  · rw [if_neg refused]
    exact ⟨fun h => ⟨refused, h⟩, fun h => h.2⟩

theorem except_last_guard_ok_iff {c : Prop} [Decidable c] {e : ε} :
    (if c then throw e else pure () : Except ε Unit) = .ok () ↔ ¬ c := by
  by_cases refused : c
  · rw [if_pos refused]
    exact ⟨fun h => (by cases h), fun h => absurd refused h⟩
  · rw [if_neg refused]
    exact ⟨fun _ => refused, fun _ => rfl⟩

/-- A `Result` that may also abort, as a Rust panic does. -/
inductive Outcome (ε α : Type) where
  | ok (a : α)
  | err (e : ε)
  | panic
  deriving DecidableEq, Repr

namespace Outcome

instance : Monad (Outcome ε) where
  pure := ok
  bind x f := match x with
    | ok a => f a
    | err e => err e
    | panic => panic

@[simp] theorem pure_eq (a : α) : (pure a : Outcome ε α) = ok a := rfl
@[simp] theorem ok_bind (a : α) (f : α → Outcome ε β) : (ok a >>= f) = f a := rfl
@[simp] theorem err_bind (e : ε) (f : α → Outcome ε β) : (err e >>= f) = err e := rfl
@[simp] theorem panic_bind (f : α → Outcome ε β) : (panic >>= f) = panic := rfl

instance : LawfulMonad (Outcome ε) := LawfulMonad.mk' (Outcome ε)
  (fun x => by cases x <;> rfl)
  (fun _ _ => rfl)
  (fun x _ _ => by cases x <;> rfl)

@[simp] theorem map_ok (f : α → β) (a : α) : f <$> (ok a : Outcome ε α) = ok (f a) := rfl

def ofExcept : Except ε α → Outcome ε α
  | .ok a => ok a
  | .error e => err e

@[simp] theorem ofExcept_ok (a : α) : ofExcept (.ok a : Except ε α) = ok a := rfl
@[simp] theorem ofExcept_error (e : ε) : ofExcept (.error e : Except ε α) = err e := rfl

theorem ofExcept_ok_iff {x : Except ε α} {a : α} : ofExcept x = ok a ↔ x = .ok a := by
  cases x <;> simp

theorem ofExcept_ne_panic (x : Except ε α) : ofExcept x ≠ panic := by
  cases x <;> simp

theorem bind_ok_iff {x : Outcome ε α} {f : α → Outcome ε β} {b : β} :
    (x >>= f) = ok b ↔ ∃ a, x = ok a ∧ f a = ok b := by
  cases x <;> simp

/-- A sequence aborts at its first step, or after it. -/
theorem bind_panic_iff {x : Outcome ε α} {f : α → Outcome ε β} :
    (x >>= f) = panic ↔ x = panic ∨ ∃ a, x = ok a ∧ f a = panic := by
  cases x <;> simp

/-- `map_err`. -/
def mapErr {ε' : Type} (f : ε → ε') : Outcome ε α → Outcome ε' α
  | ok a => ok a
  | err e => err (f e)
  | panic => panic

/-- Visit every element in order and keep what each visit yields. -/
def collect (visit : α → Outcome ε (List β)) : List α → Outcome ε (List β)
  | [] => ok []
  | a :: l => visit a >>= fun first => (first ++ ·) <$> collect visit l

/-- A loop whose body only appends to its accumulator is a `collect`. -/
theorem foldlM_eq_collect {step : List β → α → Outcome ε (List β)}
    {visit : α → Outcome ε (List β)} (appends : ∀ acc a, step acc a = (acc ++ ·) <$> visit a)
    (l : List α) (acc : List β) : l.foldlM step acc = (acc ++ ·) <$> collect visit l := by
  induction l generalizing acc with
  | nil => exact congrArg ok (List.append_nil acc).symm
  | cons a l ih =>
      rw [List.foldlM_cons, appends, collect]
      cases visit a with
      | ok first =>
          simp only [map_ok, ok_bind, ih]
          cases collect visit l <;> simp [Functor.map]
      | err e => rfl
      | panic => rfl

/-- The sources of the visited elements decide what each visit yields. -/
theorem collect_of_forall₂ {γ : Type} {visit : α → Outcome ε (List β)} {g : γ → List β}
    {sources : List γ} {l : List α}
    (visited : List.Forall₂ (fun c a => visit a = ok (g c)) sources l) :
    collect visit l = ok (sources.flatMap g) := by
  induction visited with
  | nil => rfl
  | cons first _ ih =>
      rw [collect, first, ih]
      rfl

theorem collect_ok_visited {visit : α → Outcome ε (List β)} {l : List α} {bs : List β}
    (collected : collect visit l = ok bs) : ∀ a ∈ l, ∃ r, visit a = ok r := by
  induction l generalizing bs with
  | nil => exact fun a member => (List.not_mem_nil member).elim
  | cons a l ih =>
      rw [collect] at collected
      cases first : visit a with
      | panic => simp only [first, panic_bind, reduceCtorEq] at collected
      | err e => simp only [first, err_bind, reduceCtorEq] at collected
      | ok r =>
          cases rest : collect visit l with
          | ok later => exact List.forall_mem_cons.mpr ⟨⟨r, first⟩, ih rest⟩
          | err e => rw [first, rest] at collected; cases collected
          | panic => rw [first, rest] at collected; cases collected

/-- Where bad elements all end in one error, the traversal drops nothing but the
elements that yield nothing, or ends in that error. -/
theorem collect_good_or_error {visit : α → Outcome ε (List β)} {g : α → Option β} {e : ε}
    {bad : α → Prop} {l : List α}
    (each : ∀ a ∈ l, (¬ bad a ∧ visit a = ok (g a).toList) ∨ (bad a ∧ visit a = err e)) :
    ((∀ a ∈ l, ¬ bad a) ∧ collect visit l = ok (l.filterMap g)) ∨
      ((∃ a ∈ l, bad a) ∧ collect visit l = err e) := by
  induction l with
  | nil => exact .inl ⟨fun a member => (List.not_mem_nil member).elim, rfl⟩
  | cons a l ih =>
      obtain ⟨first, rest⟩ := List.forall_mem_cons.mp each
      rw [collect]
      rcases first with ⟨good, visited⟩ | ⟨isBad, stopped⟩
      · rw [visited, ok_bind]
        rcases ih rest with ⟨allGood, collected⟩ | ⟨⟨b, member, isBad⟩, stopped⟩
        · refine .inl ⟨List.forall_mem_cons.mpr ⟨good, allGood⟩, ?_⟩
          rw [collected, map_ok]
          cases shown : g a with
          | none => rw [List.filterMap_cons_none shown]; rfl
          | some b => rw [List.filterMap_cons_some shown]; rfl
        · rw [stopped]
          exact .inr ⟨⟨b, List.mem_cons_of_mem a member, isBad⟩, rfl⟩
      · rw [stopped]
        exact .inr ⟨⟨a, List.mem_cons_self, isBad⟩, rfl⟩

/-- The traversal aborts exactly when the first visit that is not a success aborts. -/
theorem collect_panic_iff {visit : α → Outcome ε (List β)} {l : List α} :
    collect visit l = panic ↔ ∃ before a after, l = before ++ a :: after ∧
      (∀ b ∈ before, ∃ r, visit b = ok r) ∧ visit a = panic := by
  induction l with
  | nil =>
      refine ⟨fun h => (by cases h), ?_⟩
      rintro ⟨before, a, after, split, -, -⟩
      cases before <;> cases split
  | cons x l ih =>
      rw [collect]
      constructor
      · intro aborts
        cases first : visit x with
        | panic => exact ⟨[], x, l, rfl, fun b member => (List.not_mem_nil member).elim, first⟩
        | err e => simp only [first, err_bind, reduceCtorEq] at aborts
        | ok r =>
            have later : collect visit l = panic := by
              rw [first, ok_bind] at aborts
              cases rest : collect visit l <;> rw [rest] at aborts <;> first | rfl | cases aborts
            obtain ⟨before, a, after, rfl, passed, stop⟩ := ih.mp later
            refine ⟨x :: before, a, after, rfl, ?_, stop⟩
            exact List.forall_mem_cons.mpr ⟨⟨r, first⟩, passed⟩
      · rintro ⟨before, a, after, split, passed, stop⟩
        cases before with
        | nil =>
            cases split
            rw [stop, panic_bind]
        | cons y before =>
            cases split
            obtain ⟨⟨r, first⟩, rest⟩ := List.forall_mem_cons.mp passed
            rw [first, ok_bind, ih.mpr ⟨before, a, after, rfl, rest, stop⟩]
            rfl

end Outcome
end Effects
