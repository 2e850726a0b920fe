import Nolik.Library.Effects

/-! A fragment of Rust. A body is `Ok(Self { name: expression, .. })` over field accesses,
method calls and `?`. The values and their methods are parameters. Evaluation is stuck where a
type checker refuses the body. -/
namespace EarlyReturn
open Effects

abbrev Ident := String

inductive Expr where
  | var (name : Ident)
  | field (receiver : Expr) (name : Ident)
  | methodCall (receiver : Expr) (method : Ident) (args : List Ident)
  | try (e : Expr)
  deriving DecidableEq

/-- `Ok(Self { name: expression, .. })`, in the order of the text. -/
structure Body where
  fields : List (Ident × Expr)
  deriving DecidableEq

variable {V A W ε α β : Type}

/-- What an expression evaluates to. -/
inductive Object (V A ε : Type) where
  | value (v : V)
  | record (fields : List (Ident × V))
  | argument (a : A)
  | result (r : Except ε V)

abbrev Env (V A ε : Type) := Ident → Option (Object V A ε)

/-- The methods of a value; `none` where it has no such method. -/
abbrev Methods (V A W ε : Type) := V → Ident → List A → Option (Traced W ε V)

inductive Stop (ε : Type) where
  | returned (e : ε)
  | stuck

/-- A call that returns to the caller of the body at its first error. -/
def returning (x : Traced W ε α) : Traced W (Stop ε) α :=
  ExceptT.mk ⟨x.result.mapError .returned, x.trace⟩

/-- A call whose result is kept as a value. -/
def keeping (x : Traced W ε V) : Traced W (Stop ε) (Object V A ε) :=
  ExceptT.mk ⟨.ok (.result x.result), x.trace⟩

section Eval
variable (methods : Methods V A W ε) (env : Env V A ε)

def evalArg (name : Ident) : Option A :=
  match env name with
  | some (.argument a) => some a
  | _ => none

def eval : Expr → Traced W (Stop ε) (Object V A ε)
  | .var name => match env name with
    | some x => pure x
    | none => throw .stuck
  | .field receiver name => do
    match ← eval receiver with
    | .record fields => match fields.lookup name with
      | some v => pure (.value v)
      | none => throw .stuck
    | _ => throw .stuck
  | .methodCall receiver method args => do
    match ← eval receiver with
    | .value v => match (args.mapM (evalArg env)).bind (methods v method) with
      | some call => keeping call
      | none => throw .stuck
    | _ => throw .stuck
  | .try e => do
    match ← eval e with
    | .result (.ok v) => pure (.value v)
    | .result (.error e) => throw (.returned e)
    | _ => throw .stuck

def evalField (field : Ident × Expr) : Traced W (Stop ε) (Ident × V) := do
  match ← eval methods env field.2 with
  | .value v => pure (field.1, v)
  | _ => throw .stuck

/-- The fields of the record that is returned; `none` is a stuck body. -/
def Body.call (body : Body) : Option (Traced W ε (List (Ident × V))) :=
  let run := body.fields.mapM (evalField methods env)
  match run.result with
  | .ok fields => some (ExceptT.mk ⟨.ok fields, run.trace⟩)
  | .error (.returned e) => some (ExceptT.mk ⟨.error e, run.trace⟩)
  | .error .stuck => none

end Eval

@[simp] theorem returning_pure (a : α) :
    returning (pure a : Traced W ε α) = pure a := rfl

theorem returning_bind (x : Traced W ε α) (f : α → Traced W ε β) :
    returning (x >>= f) = returning x >>= fun a => returning (f a) := by
  obtain ⟨r, log⟩ := x
  cases r with
  | ok a => rfl
  | error e => rfl

theorem returning_map (g : α → β) (x : Traced W ε α) :
    returning (g <$> x) = g <$> returning x := by
  obtain ⟨r, log⟩ := x
  cases r with
  | ok a => rfl
  | error e => rfl

theorem returning_mapM (f : α → Traced W ε β) (l : List α) :
    returning (l.mapM f) = l.mapM fun a => returning (f a) := by
  induction l with
  | nil => rfl
  | cons a l ih => simp only [List.mapM_cons, returning_bind, returning_pure, ih]

/-- `?` on a kept result returns early. -/
theorem eval_try {methods : Methods V A W ε} {env : Env V A ε} {e : Expr} {x : Traced W ε V}
    (kept : eval methods env e = keeping x) :
    eval methods env (.try e) = .value <$> returning x := by
  rw [eval, kept]
  obtain ⟨r, log⟩ := x
  cases r with
  | ok v => rfl
  | error e => rfl

/-- A body whose fields each come from one call makes these calls in order. -/
theorem Body.call_eq {methods : Methods V A W ε} {env : Env V A ε} {body : Body}
    {calls : List (Traced W ε (Ident × V))}
    (each : List.Forall₂ (fun field call => evalField methods env field = returning call)
      body.fields calls) :
    body.call methods env = some (calls.mapM id) := by
  obtain ⟨fields⟩ := body
  change List.Forall₂ _ fields calls at each
  have run : fields.mapM (evalField methods env) = returning (calls.mapM id) := by
    rw [returning_mapM]
    induction each with
    | nil => rfl
    | cons first _ ih => simp only [List.mapM_cons, first, ih, id]
  rw [call, run]
  obtain ⟨r, log⟩ := calls.mapM id
  cases r with
  | ok fields => rfl
  | error e => rfl

end EarlyReturn
