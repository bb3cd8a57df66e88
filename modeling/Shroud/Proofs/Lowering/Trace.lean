import Shroud.Proofs.Bindings
import Shroud.Proofs.Circuit
import Shroud.Proofs.Lowering.Boundary
import Shroud.Proofs.Lowering.Slots
import Shroud.Proofs.Lowering.Uses

/-! # Traces

Lowering builds two things side by side: the steps of a circuit, and public code. A `Trace` relates
what happens to the circuit to what a `Reading` finds in the code, whether this stands in the value of
an action or in what it puts before the statement. The actions at the boundary must keep to the trace;
then whole bodies do (`Tracing`, `Bodies`). Every statement about whole circuits is a trace of its own,
and none of them walks through the program again.

What is known inside may depend on the guards around it. So a trace has contexts: what becomes known
between the marks of a guard is forgotten after it.

What is held inside depends on the functions that are held already. So code is lowered under a
`Discipline`: it tells what is on the stack and which names may have versions. Runs that fail are left
out, except that a strict discipline excludes the errors in `Confused`.
-/

namespace Shroud.Lowering

open Circuit (Term Wire)
open Solidity (Reading)
open scoped List

variable {base : Env} {α β : Type} {σ τ : State} {env : Env} {plain : Wire} {x : Lower α} {k : α → Lower β}

/-! ## Places -/

/-- The environment of code at a place, with at most so many functions held inside each other. -/
def Env.placed (base : Env) (h : Here) (depth : Nat) : Env :=
  { base with here := h, inline := inlineBody base depth }

@[simp] theorem program_placed (h : Here)
  (n : Nat) : (base.placed h n).program = base.program := rfl
@[simp] theorem settings_placed (h : Here) (n : Nat) :
    (base.placed h n).settings = base.settings := rfl

/-- The place of a statement of the same function. -/
def Here.inStmt (h : Here) (s : Stmt) : Here := { h with span := s.span, before? := s.before? }

/-- The place of a function's body. -/
def Here.ofFunction (p : Program) (f : FunctionId) : Here where
  function := f
  span := (p.function f).span

@[simp] theorem inStmt_placed (h : Here) (n : Nat) (s : Stmt) :
    (base.placed h n).inStmt s = base.placed (h.inStmt s) n := rfl

/-- The places of the statements of a program. -/
def statementPlaces (p : Program) : Set Here :=
  { h | ∃ f, ∃ s ∈ (p.function f).body.walk, h = (Here.ofFunction p f).inStmt s }

/-- The place of a statement, in a program whose variables can be moved. -/
structure Sited (p : Program) (h : Here) : Prop where
  place : h ∈ statementPlaces p
  vars : ∀ v, (p.var v).type.type.toAbstract.IsMoved

/-! ## Disciplines -/

/-- What inlining must not run into. -/
inductive Confused : Error → Prop
  | recursive (f : String) : Confused (.internal (.recursiveInlining f))
  | live : Confused (.internal .liveBindings)

/-- An action does not run into that where this counts, and its results satisfy a condition. -/
def Meets (strict : Prop) (x : Lower α) (σ : State) (Q : α → State → Prop) : Prop :=
  (x.run σ).casesOn (fun e => strict → ¬ Confused e) fun r => Q r.1 r.2

namespace Meets

variable {strict : Prop} {Q Q' : α → State → Prop} {S : β → State → Prop}

@[simp] theorem bind_iff :
    Meets strict (x >>= k) σ S ↔ Meets strict x σ fun a τ => Meets strict (k a) τ S := by
  unfold Meets
  rw [StateT.run_bind]
  cases x.run σ <;> rfl

@[simp] theorem pure_iff {a : α} : Meets strict (pure a) σ Q ↔ Q a σ := .rfl

@[simp] theorem get_iff {Q : State → State → Prop} : Meets strict get σ Q ↔ Q σ σ := .rfl

@[simp] theorem modify_iff {f : State → State} {Q : Unit → State → Prop} :
    Meets strict (modify f) σ Q ↔ Q ⟨⟩ (f σ) := .rfl

theorem mono (h : Meets strict x σ Q) (hQ : ∀ a τ, Q a τ → Q' a τ) : Meets strict x σ Q' := by
  unfold Meets at h ⊢
  cases hx : x.run σ <;> simp_all

theorem yields (h : Meets strict x σ Q) {a : α} (hx : Yields x σ a τ) : Q a τ := by
  rw [Meets, hx] at h
  exact h

theorem and_yields (h : Meets strict x σ Q) :
    Meets strict x σ fun a τ => Q a τ ∧ Yields x σ a τ := by
  unfold Meets Yields at *
  cases hx : x.run σ <;> simp_all

end Meets

/-- The functions that are held, the variables that may have versions, and whether confusion counts. -/
structure Discipline where
  strict : Prop := True
  stack : List FunctionId := []
  may : VarId → Prop := fun _ => False

/-- The names that may have versions. -/
def Discipline.Allows (D : Discipline) : Key → Prop
  | .var v => D.may v
  | .ret _ _ => D.stack ≠ [] ∨ ¬ D.strict

/-- The discipline of a function's body where the function is held: all but state may have versions. -/
def Discipline.hold (D : Discipline) (p : Program) (f : FunctionId) : Discipline where
  strict := D.strict
  stack := f :: D.stack
  may v := D.may v ∨ p.isState v = false

theorem Discipline.Allows.hold {D : Discipline} {p : Program} {f : FunctionId} {k : Key}
    (h : D.Allows k) : (D.hold p f).Allows k := by
  cases k with
  | var v => exact .inl h
  | ret g i => exact .inl (List.cons_ne_nil f D.stack)

/-! ## What the boundary leaves alone -/

/-- An action leaves versions and stack alone and is never confused. -/
def Aside (x : Lower α) : Prop :=
  ∀ strict σ, Meets strict x σ fun _ τ => τ.versions = σ.versions ∧ τ.stack = σ.stack

theorem Aside.bind (hx : Aside x) (hk : ∀ a, Aside (k a)) : Aside (x >>= k) := by
  intro strict σ
  refine Meets.bind_iff.2 ((hx strict σ).mono fun a ρ h => (hk a strict ρ).mono fun b τ h' => ?_)
  exact ⟨h'.1.trans h.1, h'.2.trans h.2⟩

theorem Aside.throw {e : Error} (he : ¬ Confused e) : Aside (throw e : Lower α) := fun _ _ _ => he

theorem publicKey_aside {l : Label} : Aside (publicKey env l) := by
  unfold publicKey
  dsimp only
  split
  · exact fun _ _ => ⟨rfl, rfl⟩
  split
  · refine .bind (fun _ _ => ⟨rfl, rfl⟩) fun _ => ?_
    split
    · exact .throw nofun
    · exact fun _ _ => ⟨rfl, rfl⟩
  · exact .throw nofun

theorem encrypted_aside {name : String} {cipher : Wire} {l : Label} {b : Bool} :
    Aside (encrypted env name plain l cipher b) :=
  .bind (fun _ _ => ⟨rfl, rfl⟩) fun _ => publicKey_aside.bind fun _ _ _ => ⟨rfl, rfl⟩

theorem input_aside {t : OwnedType} {text : String} {value : Solidity.Expr} :
    Aside (input env t text value) := by
  unfold input
  dsimp only
  split
  · exact .bind (fun _ _ => ⟨rfl, rfl⟩) fun _ => .bind (fun _ _ => ⟨rfl, rfl⟩) fun _ =>
      encrypted_aside.bind fun _ _ _ => ⟨rfl, rfl⟩
  · exact fun _ _ => ⟨rfl, rfl⟩

theorem publish_aside {l : Label} {t : DataType} : Aside (publish env plain l t) := by
  unfold publish
  split
  · exact fun _ _ => ⟨rfl, rfl⟩
  · exact .bind (fun _ _ => ⟨rfl, rfl⟩) fun _ => encrypted_aside.bind fun _ _ _ => ⟨rfl, rfl⟩

/-- Calls are left alone, and what is put before the statement calls no function. -/
structure Framed (σ τ : State) : Prop where
  called : τ.called = σ.called
  calls : τ.calls = σ.calls
  pre : ∃ pre, τ.pre = σ.pre ++ pre ∧ Solidity.calls pre = []

theorem encrypted_frame {name : String} {cipher : Wire} {l : Label} {b : Bool} {u : Unit}
    (h : Yields (encrypted env name plain l cipher b) σ u τ) : Framed σ τ := by
  obtain ⟨k, ρ, hk, rfl⟩ := encrypted_iff.1 h
  obtain ⟨-, -, rfl⟩ | ⟨v, -, -, -, rfl⟩ := publicKey_cases hk
  · exact ⟨rfl, rfl, [], by simp, rfl⟩
  · exact ⟨rfl, rfl, _, rfl, by simp [Env.member, fetchKey, pki]⟩

theorem input_frame {t : OwnedType} {text : String} {value : Solidity.Expr} {w : Wire}
    (h : Yields (input env t text value) σ w τ) : τ.called = σ.called ∧ τ.calls = σ.calls ∧
      ∃ x, τ.pre = σ.pre ++ [.assign (.member (.ident env.settings.dataName) x) value] := by
  obtain ⟨-, cipher, ρ, -, -, henc, rfl⟩ | ⟨-, -, rfl⟩ := input_cases h
  · obtain ⟨k, ρ, hk, rfl⟩ := encrypted_iff.1 henc
    obtain rfl := publicKey_me hk
    exact ⟨rfl, rfl, cipher.name, rfl⟩
  · exact ⟨rfl, rfl, w.name, rfl⟩

theorem publish_frame {out : Wire} {l : Label} {t : DataType}
    (h : Yields (publish env plain l t) σ out τ) : Framed σ τ := by
  obtain ⟨-, -, rfl⟩ | ⟨-, _, -, henc⟩ := publish_cases h
  · exact ⟨rfl, rfl, [], by simp, rfl⟩
  · have hframe := encrypted_frame henc
    exact ⟨hframe.called, hframe.calls, hframe.pre⟩

/-! ## Constants -/

/-- The two forms of a constant: one reads nothing, and the other is closed. -/
structure ConstantForms (base : Env) (e : Expr) (c : Solidity.Expr) (t : Term) : Prop where
  literal : e.type.type.isLiteral = true
  plain : c.IsPlain
  uncalled : c.calls = []
  closed : t.wires = []
  outside : ∀ h depth, publicExpr (base.placed h depth) e = pure c
  inside : ∀ h depth, circuitExpr (base.placed h depth) e = pure t

/-! ## Traces -/

/-- What is said about a circuit and the items that a reading finds in the code. -/
structure Trace (base : Env) (R : Reading base.settings.dataName) where
  Context : Type
  /-- The terms that may be used. -/
  term : Context → State → Term → Prop
  /-- The variables that may be used in all contexts from now on. -/
  stored : State → Wire → Prop
  /-- A condition in the code and a variable of the circuit have the same value. -/
  test : Context → State → Solidity.Expr → Wire → Prop
  /-- Whether an `if` may run inside. -/
  branches : Prop
  /-- The functions that public code may call. -/
  callable : FunctionId → Prop
  /-- What an action does to the circuit, and the items that belong to it. -/
  rel : Context → State → Context → State → List R.Item → Prop
  refl (c : Context) (σ : State) : rel c σ c σ []
  trans {c c' c'' : Context} {σ ρ τ : State} {us us' : List R.Item} :
    rel c σ c' ρ us → rel c' ρ c'' τ us' → rel c σ c'' τ (us ++ us')
  perm {c c' : Context} {σ τ : State} {us us' : List R.Item} :
    rel c σ c' τ us → us.Perm us' → rel c σ c' τ us'
  closed (c : Context) (σ : State) {t : Term} : t.wires = [] → term c σ t
  op {c : Context} {σ : State} {ts : List Term} (o : Operator) :
    (∀ t ∈ ts, term c σ t) → term c σ (.op o ts)
  cast {c : Context} {σ : State} {e : Term} (t : DataType) : term c σ e → term c σ (.cast t e)
  of_stored {σ : State} {w : Wire} (c : Context) : stored σ w → term c σ w.term
  mono {c c' : Context} {σ τ : State} {us : List R.Item} {t : Term} :
    rel c σ c' τ us → term c σ t → term c' τ t
  stored_mono {c c' : Context} {σ τ : State} {us : List R.Item} {w : Wire} :
    rel c σ c' τ us → stored σ w → stored τ w
  test_mono {c c' : Context} {σ τ : State} {us : List R.Item} {e : Solidity.Expr} {w : Wire} :
    rel c σ c' τ us → test c σ e w → test c' τ e w
  term_steps {c : Context} {σ : State} {t : Term} (steps : List Circuit.Step) :
    term c σ t → term c { σ with steps } t
  stored_steps {σ : State} {w : Wire} (steps : List Circuit.Step) :
    stored σ w → stored { σ with steps } w
  /-- Bookkeeping does not count. -/
  quiet (c : Context) (σ : State) (versions : Versions) (stack : List FunctionId)
    (pre : List Solidity.Stmt) : rel c σ c { σ with versions, stack, pre } []
  comment (c : Context) (σ : State) (text : String) :
    rel c σ c { σ with steps := σ.steps ++ [.comment text] } []
  /-- A call of a function without a circuit is noted. -/
  note (c : Context) (σ : State) {f : FunctionId} : callable f →
    (base.program.function f).facts.isVerified = false →
    rel c σ c { σ with called := σ.called ++ [f] }
      (R.call (calleeName base.program base.settings f) (base.program.function f).params.length none)
  /-- A call of one with a circuit includes the circuit. -/
  call (c : Context) (σ : State) {f : FunctionId} : callable f →
    (base.program.function f).facts.isVerified = true →
    rel c σ c { σ with
      called := σ.called ++ [f]
      calls := σ.calls ++ [f]
      steps := σ.steps ++ [.call (circuitName base.program base.settings f)] }
      (R.call (calleeName base.program base.settings f) (base.program.function f).params.length
        (some σ.calls.length))
  temporary {c : Context} {σ τ : State} {t : DataType} {value : Term} {w : Wire} :
    term c σ value → Yields (newTemporary t value) σ w τ → ∃ c', rel c σ c' τ [] ∧
      term c' τ w.term ∧ ∀ e cond, ConstantForms base e cond value → test c' τ cond w
  version {c : Context} {σ τ : State} {name : String} {t : DataType} {value : Term} {w : Wire} :
    term c σ value → Yields (newVersion name t value) σ w τ →
      ∃ c', rel c σ c' τ [] ∧ stored τ w
  input {c : Context} {σ τ : State} {h : Here} {depth : Nat} {t : OwnedType} {text : String}
      {value : Solidity.Expr} {w : Wire} : Sited base.program h →
    t.type.toAbstract.IsMoved → Yields (input (base.placed h depth) t text value) σ w τ → ∃ c' x,
      τ.pre = σ.pre ++ [.assign (.member (.ident base.settings.dataName) x) value] ∧
      rel c σ c' τ (R.write x value) ∧ term c' τ w.term ∧
      (t.isPrivate = false → test c' τ (base.member w) w)
  publish {c : Context} {σ τ : State} {h : Here} {depth : Nat} {l : Label} {t : DataType}
      {plain out : Wire} : Sited base.program h → t.fillsSlot = true → term c σ plain.term →
    Yields (publish (base.placed h depth) plain l t) σ out τ → ∃ c' pre, τ.pre = σ.pre ++ pre ∧
      rel c σ c' τ (R.code pre ++ R.field out.name)
  block {c c' : Context} {σ τ : State} {us : List R.Item} (name : String) :
    rel c { σ with steps := [] } c' τ us → rel c σ c' { τ with
      steps := if τ.steps.isEmpty then σ.steps else σ.steps ++ [.block name τ.steps] } us
  /-- What a guard holds for is used under its test. -/
  guard {c c' : Context} {σ τ : State} {us : List R.Item} {e : Solidity.Expr} {w : Wire}
      (holds : Bool) : test c σ e w →
    rel c { σ with steps := σ.steps ++ [.enterGuard w.name holds] } c' τ us →
    rel c σ c { τ with steps := τ.steps ++ [.leaveGuard] } (us.map (R.under e holds))
  /-- What the branches of an `if` inside use stands before the statement. -/
  branch {c c' : Context} {σ τ : State} {us : List R.Item} {w : Wire} (holds : Bool) : branches →
    term c σ w.term → rel c { σ with steps := σ.steps ++ [.enterGuard w.name holds] } c' τ us →
    rel c σ c { τ with steps := τ.steps ++ [.leaveGuard] } us
  /-- A test may be made at any time. -/
  reread {c : Context} {σ : State} {e : Solidity.Expr} {w : Wire} : test c σ e w →
    rel c σ c σ (R.expr e)

variable {R : Reading base.settings.dataName}

namespace Trace

variable (T : Trace base R) {D : Discipline} {value : Term} {w : Wire} {e : Expr} {holds : Bool}

/-- Versions may be used everywhere, and belong to names that may have them. -/
def Entries (D : Discipline) (σ : State) (es : List (Key × Wire)) : Prop :=
  ∀ e ∈ es, T.stored σ e.2 ∧ D.Allows e.1

/-- A state is as a discipline says. -/
structure Good (D : Discipline) (σ : State) : Prop where
  stack : σ.stack = D.stack
  entries : T.Entries D σ σ.versions.entries

/-- All terms may be used. -/
abbrev terms (c : T.Context) (σ : State) (ts : List Term) : Prop := ∀ t ∈ ts, T.term c σ t

/-- From a good state, an action keeps to the trace and ends in a good state. What it is given to use,
and what it uses itself, stands in its value or in what it puts before the statement. -/
def Runs (D : Discipline) (c : T.Context) (σ : State) (given : List R.Item) (x : Lower α)
    (held : α → List R.Item) (Q : T.Context → State → α → Prop) : Prop :=
  T.Good D σ → Meets D.strict x σ fun a τ => ∃ c' new pre, T.rel c σ c' τ new ∧ T.Good D τ ∧
    Q c' τ a ∧ τ.pre = σ.pre ++ pre ∧ (R.code pre ++ held a).Perm (given ++ new)

/-- An action whose value uses no data. -/
abbrev Silent (D : Discipline) (c : T.Context) (σ : State) (x : Lower α)
    (Q : T.Context → State → α → Prop) : Prop := T.Runs D c σ [] x (fun _ => []) Q

/-- An action of which only the value counts. -/
abbrev Emits (D : Discipline) (c : T.Context) (σ : State) (x : Lower α) (held : α → List R.Item) :
    Prop := T.Runs D c σ [] x held fun _ _ _ => True

/-- An action of which only the effect counts. -/
abbrev Does (D : Discipline) (c : T.Context) (σ : State) (x : Lower α) : Prop :=
  T.Silent D c σ x fun _ _ _ => True

/-- Some uses belong to what happened between two states. -/
def Leads (c : T.Context) (σ : State) (c' : T.Context) (τ : State) : Prop := ∃ us, T.rel c σ c' τ us

variable {T} {c c' : T.Context} {σ ρ τ : State}

namespace Leads

theorem term (h : T.Leads c σ c' τ) {t : Term} (ht : T.term c σ t) : T.term c' τ t :=
  h.elim fun _ hr => T.mono hr ht

theorem terms (h : T.Leads c σ c' τ) {ts : List Term} (hts : T.terms c σ ts) : T.terms c' τ ts :=
  fun t ht => h.term (hts t ht)

theorem trans {c'' : T.Context} (h : T.Leads c σ c' ρ) (h' : T.Leads c' ρ c'' τ) :
    T.Leads c σ c'' τ :=
  h.elim fun _ hr => h'.elim fun _ hr' => ⟨_, T.trans hr hr'⟩

theorem stored (h : T.Leads c σ c' τ) (hw : T.stored σ w) : T.stored τ w :=
  h.elim fun _ hr => T.stored_mono hr hw

theorem entries (h : T.Leads c σ c' τ) {es : List (Key × Wire)} (hes : T.Entries D σ es) :
    T.Entries D τ es := fun e he => ⟨h.stored (hes e he).1, (hes e he).2⟩

theorem test (h : T.Leads c σ c' τ) {e : Solidity.Expr} (ht : T.test c σ e w) :
    T.test c' τ e w := h.elim fun _ hr => T.test_mono hr ht

end Leads

namespace Good

theorem of_rel (h : T.Good D σ) {us : List R.Item} (hr : T.rel c σ c' τ us)
    (hv : τ.versions = σ.versions ∧ τ.stack = σ.stack) : T.Good D τ :=
  ⟨hv.2.trans h.stack, hv.1 ▸ Leads.entries ⟨us, hr⟩ h.entries⟩

theorem steps (h : T.Good D σ) (steps : List Circuit.Step) : T.Good D { σ with steps } :=
  ⟨h.stack, fun e he => (h.entries e he).imp_left (T.stored_steps steps)⟩

theorem pre (h : T.Good D σ) (c : T.Context) (pre : List Solidity.Stmt) : T.Good D { σ with pre } :=
  h.of_rel (T.quiet c σ σ.versions σ.stack pre) ⟨rfl, rfl⟩

end Good

/-! ## Triples -/

namespace Runs

variable {given given' : List R.Item} {x : Lower α} {k : α → Lower β} {held : α → List R.Item}
  {held' : β → List R.Item} {Q Q' : T.Context → State → α → Prop}
  {S : T.Context → State → β → Prop} {a : α}

protected theorem pure (hq : Q c σ a) (h : (held a).Perm given) :
    T.Runs D c σ given (pure a) held Q :=
  fun hg => ⟨c, [], [], T.refl c _, hg, hq, by simp, by simpa using h⟩

theorem result (hq : Q c σ a) : T.Silent D c σ (pure a) Q := .pure hq (.refl _)

theorem gives (h : (held a).Perm given) : T.Runs D c σ given (pure a) held fun _ _ _ => True :=
  .pure trivial h

/-- The state is known to be good. -/
theorem of_good (h : T.Good D σ → T.Runs D c σ given x held Q) : T.Runs D c σ given x held Q :=
  fun hg => h hg hg

protected theorem throw {e : Error} (he : ¬ Confused e := by rintro ⟨⟩) :
    T.Runs D c σ given (throw e : Lower α) held Q := fun _ _ => he

theorem throw_bind {e : Error} (he : D.strict → ¬ Confused e := by rintro - ⟨⟩) :
    T.Runs D c σ given ((throw e : Lower α) >>= k) held' S := fun _ => he

theorem weaken (h : T.Runs D c σ given x held Q) (hQ : ∀ c τ a, Q c τ a → Q' c τ a) :
    T.Runs D c σ given x held Q' := by
  refine fun hg => (h hg).mono ?_
  rintro a τ ⟨c', new, pre, hr, hg, hq, hpre⟩
  exact ⟨c', new, pre, hr, hg, hQ _ _ _ hq, hpre⟩

/-- The second of two actions gets what the first one holds. -/
theorem bind_given (hx : T.Runs D c σ given x held Q)
    (hk : ∀ a c' ρ, Yields x σ a ρ → T.Leads c σ c' ρ → Q c' ρ a →
      T.Runs D c' ρ (given' ++ held a) (k a) held' S) :
    T.Runs D c σ (given ++ given') (x >>= k) held' S := by
  refine fun hg => Meets.bind_iff.2 ((hx hg).and_yields.mono ?_)
  rintro a ρ ⟨⟨c', new, pre, hr, hg, hq, hpre, hperm⟩, hxa⟩
  refine (hk a c' ρ hxa ⟨_, hr⟩ hq hg).mono ?_
  rintro b τ ⟨c'', new', pre', hr', hg', hq', hpre', hperm'⟩
  refine ⟨c'', new ++ new', pre ++ pre', T.trans hr hr', hg', hq', ?_, ?_⟩
  · rw [hpre', hpre, List.append_assoc]
  -- the value of the first action passes from its uses to what the second one is given
  rw [Reading.code, List.flatMap_append, List.append_assoc]
  calc R.code pre ++ (R.code pre' ++ held' b)
    _ ~ R.code pre ++ (given' ++ held a ++ new') := hperm'.append_left _
    _ ~ given' ++ (R.code pre ++ held a) ++ new' := by
        simp only [← List.append_assoc]
        exact (List.perm_append_comm.append_right _).append_right _
    _ ~ given' ++ (given ++ new) ++ new' := (hperm.append_left _).append_right _
    _ ~ given ++ given' ++ (new ++ new') := by
        simp only [← List.append_assoc]
        exact (List.perm_append_comm.append_right _).append_right _

protected theorem bind (hx : T.Runs D c σ [] x held Q)
    (hk : ∀ a c' ρ, Yields x σ a ρ → T.Leads c σ c' ρ → Q c' ρ a →
      T.Runs D c' ρ (given ++ held a) (k a) held' S) :
    T.Runs D c σ given (x >>= k) held' S := hx.bind_given hk

/-- What comes next does not depend on the state. -/
theorem next (hx : T.Runs D c σ [] x held Q)
    (hk : ∀ a c' ρ, T.Runs D c' ρ (given ++ held a) (k a) held' S) :
    T.Runs D c σ given (x >>= k) held' S := hx.bind fun a c' ρ _ _ _ => hk a c' ρ

/-- After an action whose value uses no data. -/
theorem andThen (hx : T.Silent D c σ x Q) (hk : ∀ a c' ρ, T.Leads c σ c' ρ → Q c' ρ a →
    T.Runs D c' ρ given (k a) held' S) : T.Runs D c σ given (x >>= k) held' S :=
  hx.bind fun a c' ρ _ hl hq => by simpa using hk a c' ρ hl hq

theorem get_bind {k : State → Lower β} (hk : T.Runs D c σ given (k σ) held' S) :
    T.Runs D c σ given (get >>= k) held' S := fun hg => Meets.bind_iff.2 (hk hg)

protected theorem discard (hx : T.Silent D c σ x Q) : T.Does D c σ (discard x) := by
  rw [show discard x = x >>= fun _ => pure ⟨⟩ from map_eq_pure_bind (fun _ => PUnit.unit) x]
  exact hx.andThen fun _ _ _ _ _ => .result trivial

/-- Uses that belong to no action of their own. -/
theorem of_rel (hr : T.rel c σ c σ given') (h : T.Runs D c σ (given ++ given') x held Q) :
    T.Runs D c σ given x held Q := by
  refine fun hg => (h hg).mono ?_
  rintro a τ ⟨c', new, pre, hr', hg, hq, hpre, hperm⟩
  exact ⟨c', given' ++ new, pre, T.trans hr hr', hg, hq, hpre, by rwa [← List.append_assoc]⟩

/-- Versions are replaced by others that may be used everywhere. -/
theorem setVersions {f : State → State} {v : Versions} (hf : f σ = { σ with versions := v })
    (hv : T.Good D σ → T.Entries D σ v.entries) : T.Does D c σ (modify f) := by
  refine fun hg => Meets.modify_iff.2 ?_
  have hr := T.quiet c σ v σ.stack σ.pre
  rw [hf]
  exact ⟨c, [], [], hr, ⟨hg.stack, Leads.entries ⟨_, hr⟩ (hv hg)⟩, trivial, by simp, by simp⟩

end Runs

/-! ## Steps and variables -/

variable {h : Here} {depth : Nat} {given : List R.Item} {x : Lower α} {held : α → List R.Item}
  {Q : T.Context → State → α → Prop}

theorem comment_runs (text : String) : T.Does D c σ (Lowering.comment text) := by
  intro hg
  have hr := T.comment c σ text
  exact ⟨c, [], [], hr, hg.of_rel hr ⟨rfl, rfl⟩, trivial, by simp, by simp⟩

/-- What is said about a value does not depend on the steps. -/
def Stepless (T : Trace base R) (Q : T.Context → State → α → Prop) : Prop :=
  ∀ c σ steps a, Q c σ a → Q c { σ with steps } a

theorem stepless_terms : T.Stepless T.terms :=
  fun _ _ steps _ hts t ht => T.term_steps steps (hts t ht)

theorem stepless_true : T.Stepless fun _ _ (_ : α) => True := fun _ _ _ _ => id

theorem inBlock_runs {name : String} (hQ : T.Stepless Q)
    (hx : T.Runs D c { σ with steps := [] } given x held Q) :
    T.Runs D c σ given (inBlock name x) held Q := by
  intro hg
  simp only [inBlock, Meets.bind_iff, Meets.get_iff, Meets.modify_iff, Meets.pure_iff]
  refine (hx (hg.steps [])).mono ?_
  rintro a τ ⟨c', new, pre, hr, hg, hq, hpre⟩
  exact ⟨c', new, pre, T.block name hr, hg.steps _, hQ _ _ _ _ hq, hpre⟩

/-- Between the marks of a guard, everything is used under its test. -/
theorem guarded_runs {e : Solidity.Expr} (ht : T.test c σ e w) (hg : T.Good D σ)
    (hx : T.Runs D c { σ with steps := σ.steps ++ [.enterGuard w.name holds] } [] x held Q) :
    Meets D.strict (guarded w holds x) σ fun a τ => ∃ new pre,
      T.rel c σ c τ (new.map (R.under e holds)) ∧ T.Good D τ ∧ τ.pre = σ.pre ++ pre ∧
      (R.code pre ++ held a).Perm new := by
  simp only [guarded, emit, Meets.bind_iff, Meets.modify_iff, Meets.pure_iff]
  refine (hx (hg.steps _)).mono ?_
  rintro a τ ⟨c', new, pre, hr, hg, -, hpre⟩
  exact ⟨new, pre, T.guard holds ht hr, hg.steps _, hpre⟩

/-- The branches of an `if` inside. -/
theorem branch_runs (hb : T.branches) (hw : T.term c σ w.term) {x : Lower Unit}
    (hx : T.Does D c { σ with steps := σ.steps ++ [.enterGuard w.name holds] } x) :
    T.Silent D c σ (guarded w holds x) fun c' _ _ => c' = c := by
  intro hg
  simp only [guarded, emit, Meets.bind_iff, Meets.modify_iff, Meets.pure_iff]
  refine (hx (hg.steps _)).mono ?_
  rintro a τ ⟨c', new, pre, hr, hg, -, hpre⟩
  exact ⟨c, new, pre, T.branch holds hb hw hr, hg.steps _, rfl, hpre⟩

theorem newTemporary_runs (t : DataType) (hv : T.term c σ value) :
    T.Silent D c σ (newTemporary t value) fun c τ w => T.term c τ w.term ∧
      ∀ e cond, ConstantForms base e cond value → T.test c τ cond w := by
  intro hg
  obtain ⟨c', hr, hw, htest⟩ := T.temporary hv (newTemporary_iff.2 ⟨rfl, rfl⟩)
  exact ⟨c', [], [], hr, hg.of_rel hr ⟨rfl, rfl⟩, ⟨hw, htest⟩, by simp, by simp⟩

theorem newVersion_runs (name : String) (t : DataType) (hv : T.term c σ value) :
    T.Silent D c σ (newVersion name t value) fun _ τ w => T.stored τ w := by
  intro hg
  obtain ⟨c', hr, hw⟩ := T.version hv (newVersion_iff.2 ⟨rfl, rfl⟩)
  exact ⟨c', [], [], hr, hg.of_rel hr ⟨rfl, rfl⟩, hw, by simp, by simp⟩

theorem bindVersion_runs {k : Key} (hk : D.Allows k) (hw : T.stored σ w) :
    T.Does D c σ (bindVersion k w) := by
  refine .setVersions rfl fun hg e he => ?_
  rcases Bindings.mem_bind he with rfl | he
  · exact ⟨hw, hk⟩
  · exact hg.entries e he

theorem assignVar_runs {v : VarId} (hk : D.may v) (hv : T.term c σ value) :
    T.Does D c σ (assignVar (base.placed h depth) v value) :=
  (newVersion_runs _ _ hv).andThen fun _ _ _ _ hw => bindVersion_runs hk hw

/-! ## Crossing the boundary -/

/-- A value that was moved in may be used, and a public one may be tested. -/
def Entered (T : Trace base R) (isPrivate : Bool) (c : T.Context) (τ : State) (w : Wire) : Prop :=
  T.term c τ w.term ∧ (isPrivate = false → T.test c τ (base.member w) w)

theorem input_runs (hp : Sited base.program h) {t : OwnedType}
    (ht : t.type.toAbstract.IsMoved) (text : String) (value : Solidity.Expr) :
    T.Runs D c σ (R.expr value) (Lowering.input (base.placed h depth) t text value) (fun _ => [])
      (T.Entered t.isPrivate) := by
  refine fun hg => (input_aside _ σ).and_yields.mono ?_
  rintro w τ ⟨hframe, hx⟩
  obtain ⟨c', field, hpre, hr, hw, htest⟩ := T.input hp ht hx
  refine ⟨c', _, _, hr, hg.of_rel hr hframe, ⟨hw, htest⟩, hpre, ?_⟩
  simpa using List.perm_append_comm

theorem inputVar_runs (hp : Sited base.program h) (v : VarId) :
    T.Silent D c σ (inputVar (base.placed h depth) v) fun c τ w => T.term c τ w.term := by
  have hruns : T.Runs D c σ (R.expr (.ident (base.program.var v).name v))
      (inputVar (base.placed h depth) v) (fun _ => []) _ := input_runs hp (hp.vars v) _ _
  rw [R.expr_ident] at hruns
  exact hruns.weaken fun _ _ _ hw => hw.1

theorem inputLocation_runs (hp : Sited base.program h) (he : e.type.type.toAbstract.IsMoved)
    {asPublic : Lower Solidity.Expr} (hx : T.Emits D c σ asPublic R.expr) :
    T.Silent D c σ (inputLocation (base.placed h depth) e asPublic) (T.Entered e.type.isPrivate) := by
  refine .get_bind ?_
  split
  · exact .throw_bind
  · exact hx.next fun value _ _ => by simpa using input_runs hp he _ value

theorem compute_runs {asTerm : Lower Term} (hx : T.Silent D c σ asTerm T.term) :
    T.Silent D c σ (compute e asTerm) fun c τ w => T.term c τ w.term :=
  hx.andThen fun _ _ _ _ ht => (newTemporary_runs _ ht).weaken fun _ _ _ hw => hw.1

theorem output_runs (hp : Sited base.program h) {o : Owner} {t : DataType} {text : String}
    {value : Lower Wire} (ht : t.fillsSlot = true ∨ ∀ σ w τ, ¬ Yields value σ w τ)
    (hx : T.Silent D c { σ with steps := [] } value fun c τ w => T.term c τ w.term) :
    T.Emits D c σ (output (base.placed h depth) o t text value) R.expr := by
  unfold output
  split
  · rename_i l _
    have hpublish : T.Emits D c { σ with steps := [] } (do
        let plain ← value
        Lowering.publish (base.placed h depth) plain l t) (fun out => R.field out.name) := by
      refine hx.bind fun plain c' ρ hvalue _ hw hg => (publish_aside _ ρ).and_yields.mono ?_
      rintro out τ ⟨hframe, hout⟩
      obtain ⟨c'', pre, hpre, hr⟩ := T.publish hp (ht.resolve_right fun h => h _ _ _ hvalue) hw hout
      exact ⟨c'', _, pre, hr, hg.of_rel hr hframe, trivial, hpre, by simp⟩
    refine (inBlock_runs stepless_true hpublish).next fun out _ _ => ?_
    exact (comment_runs _).andThen fun _ _ _ _ _ => .gives (by simp [Env.member])
  · exact .throw

/-- What is computed inside is published, unless it has several values at once. -/
theorem outputExpr_runs (hp : Sited base.program h) {o : Owner} {value : Lower Wire}
    (he : e.type.type.toAbstract.fillsSlot = true ∨ ∀ σ w τ, ¬ Yields value σ w τ)
    (hx : T.Silent D c { σ with steps := [] } value fun c τ w => T.term c τ w.term) :
    T.Emits D c σ (outputExpr (base.placed h depth) e o value) R.expr := by
  refine .get_bind ?_
  split
  · exact .throw_bind
  · exact output_runs hp he hx

end Trace

end Shroud.Lowering
