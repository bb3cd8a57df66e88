import Shroud.Proofs.Lowering.Untouched

/-! # Uses of a circuit's data

The public form of a body reads and writes the fields of a struct with the data of its circuit. Each
`DataUse` stands under some tests: the conditions of the branches around it, and the first operands of
the lazy operators around it. A `Reading` is any such account of code, of which `uses` is one. A loop
counts as one round, without a test.
-/

namespace Shroud

namespace Solidity

/-- A condition, with the value that it has where some code runs. -/
structure Test where
  cond : Expr
  holds : Bool

/-- The test of a condition. A negation holds where its operand does not. -/
def Test.of : Expr → Bool → Test
  | .op .not [c], holds => Test.of c (!holds)
  | c, holds => ⟨c, holds⟩

inductive Access where
  | read (field : String)
  | write (field : String) (value : Expr)

/-- A field that is read or written, with the tests around it, from the outside in. -/
structure DataUse where
  tests : List Test := []
  access : Access

namespace DataUse

/-- A use under one more condition. -/
def under (c : Expr) (holds : Bool) (u : DataUse) : DataUse :=
  { u with tests := .of c holds :: u.tests }

def underOption : Option (Expr × Bool) → DataUse → DataUse
  | none, u => u
  | some (c, holds), u => u.under c holds

@[simp] theorem underOption_none : underOption none = id := rfl

end DataUse

/-- Whether an operand is evaluated only if the first one has some value. -/
def operandTest? (o : Operator) (position : Nat) : Option Bool :=
  if position = 0 then none
  else match o with
    | .and => some true
    | .or => some false
    | .ite => some (position ≠ 2)
    | _ => none

/-- The condition under which an operand is evaluated. -/
def operandTest (o : Operator) (args : List Expr) (position : Nat) : Option (Expr × Bool) :=
  args.head?.bind fun c => (operandTest? o position).map fun holds => (c, holds)

/-- Whether an expression stands for the data of the circuit. -/
def Expr.isData (data : String) : Expr → Bool
  | .ident name none => name == data
  | _ => false

mutual

/-- The uses of the circuit's data in an expression. -/
def Expr.uses (data : String) : Expr → List DataUse
  | .member base name => if base.isData data then [⟨[], .read name⟩] else base.uses data
  | .index base idx => base.uses data ++ idx.uses data
  | .op o args => Expr.usesFrom data (operandTest o args) 0 args
  | .cast _ e | .newWords e => e.uses data
  | .call _ args _ | .tuple args => Expr.usesFrom data (fun _ => none) 0 args
  | .method target _ args => target.uses data ++ Expr.usesFrom data (fun _ => none) 0 args
  | _ => []

/-- The uses in operands from a position on. -/
def Expr.usesFrom (data : String) (test : Nat → Option (Expr × Bool)) :
    Nat → List Expr → List DataUse
  | _, [] => []
  | n, e :: es => (e.uses data).map (.underOption (test n)) ++ Expr.usesFrom data test (n + 1) es

end

/-- The uses in an assignment: the field of the circuit's data that it writes, and what it reads. -/
def assignUses (data : String) (lhs rhs : Expr) : List DataUse :=
  match lhs with
  | .member base field =>
    if base.isData data then ⟨[], .write field rhs⟩ :: rhs.uses data
    else base.uses data ++ rhs.uses data
  | lhs => lhs.uses data ++ rhs.uses data

mutual

/-- The uses of the circuit's data in a statement. -/
def Stmt.uses (data : String) : Stmt → List DataUse
  | .block body => Stmt.usesAll data body
  | .cond c yes no => c.uses data ++ (Stmt.usesAll data yes).map (.under c true) ++
      (Stmt.usesElse data no).map (.under c false)
  | .loop c body => c.uses data ++ Stmt.usesAll data body
  | .doLoop body c => Stmt.usesAll data body ++ c.uses data
  | .forLoop init c update body => Stmt.usesOption data init ++ c.toList.flatMap (Expr.uses data) ++
      Stmt.usesOption data update ++ Stmt.usesAll data body
  | .decl _ _ _ init _ => init.toList.flatMap (Expr.uses data)
  | .assign lhs rhs => assignUses data lhs rhs
  | .expr e | .require e => e.uses data
  | .ret e => e.toList.flatMap (Expr.uses data)
  | _ => []

def Stmt.usesAll (data : String) : List Stmt → List DataUse
  | [] => []
  | s :: ss => s.uses data ++ Stmt.usesAll data ss

def Stmt.usesElse (data : String) : Option (List Stmt) → List DataUse
  | none => []
  | some body => Stmt.usesAll data body

def Stmt.usesOption (data : String) : Option Stmt → List DataUse
  | none => []
  | some s => s.uses data

end

/-- The uses of the circuit's data in a body. -/
def uses (data : String) (body : List Stmt) : List DataUse := body.flatMap (Stmt.uses data)

variable {data : String}

/-! ## Expressions -/

namespace Expr

variable {o : Operator} {es : List Expr}

theorem usesFrom_none (n : Nat) (es : List Expr) :
    usesFrom data (fun _ => none) n es = es.flatMap (uses data) := by
  induction es generalizing n with
  | nil => rfl
  | cons e es ih => rw [usesFrom, ih, List.flatMap_cons, DataUse.underOption_none, List.map_id]

@[simp] theorem uses_ident (name : String) (v : Option VarId) : (ident name v).uses data = [] := rfl

@[simp] theorem uses_index (base idx : Expr) :
    (index base idx).uses data = base.uses data ++ idx.uses data := rfl

@[simp] theorem uses_field (name : String) :
    (member (ident data) name).uses data = [⟨[], .read name⟩] := by
  simp [uses, isData]

@[simp] theorem uses_call (f : String) (args : List Expr) (site : Option Nat) :
    (call f args site).uses data = args.flatMap (uses data) := usesFrom_none 0 args

@[simp] theorem uses_tuple (es : List Expr) : (tuple es).uses data = es.flatMap (uses data) :=
  usesFrom_none 0 es

@[simp] theorem uses_method (target : Expr) (name : String) (args : List Expr) :
    (method target name args).uses data = target.uses data ++ args.flatMap (uses data) :=
  congrArg _ (usesFrom_none 0 args)

theorem uses_op (o : Operator) (args : List Expr) :
    (op o args).uses data = usesFrom data (operandTest o args) 0 args := rfl

theorem uses_op_cons (o : Operator) (c : Expr) (es : List Expr) : (op o (c :: es)).uses data =
    c.uses data ++ usesFrom data (operandTest o (c :: es)) 1 es := by
  rw [uses_op, usesFrom]
  show (c.uses data).map (DataUse.underOption none) ++ _ = _
  rw [DataUse.underOption_none, List.map_id]

/-- Operands that use nothing are under any tests. -/
theorem usesFrom_eq_nil (test : Nat → Option (Expr × Bool)) (n : Nat)
    (h : ∀ e ∈ es, e.uses data = []) : usesFrom data test n es = [] := by
  induction es generalizing n with
  | nil => rfl
  | cons e es ih =>
    rw [List.forall_mem_cons] at h
    rw [usesFrom, h.1, ih _ h.2]
    rfl

theorem operandTest?_of_not_isLazy (h : o.isLazy = false) (n : Nat) : operandTest? o n = none := by
  unfold operandTest?
  split
  · rfl
  · cases o with
    | and | or | ite => cases h
    | _ => rfl

/-- All operands of other operators are evaluated. -/
theorem uses_op_of_not_isLazy (h : o.isLazy = false) (args : List Expr) :
    (op o args).uses data = args.flatMap (uses data) := by
  have htest : operandTest o args = fun _ => none := by
    funext n
    rw [operandTest, operandTest?_of_not_isLazy h]
    cases args <;> rfl
  rw [uses_op, htest, usesFrom_none]

/-- Nothing is used under the tests of an operator if its other operands use nothing. -/
theorem uses_op_of_rest (o : Operator) (c : Expr) (h : ∀ e ∈ es, e.uses data = []) :
    (op o (c :: es)).uses data = c.uses data := by
  rw [uses_op_cons, usesFrom_eq_nil _ _ h, List.append_nil]

@[simp] theorem uses_not (c : Expr) : (op .not [c]).uses data = c.uses data := by
  simp [uses_op_of_not_isLazy (o := .not) rfl]

mutual

/-- What is plain uses no data. -/
theorem IsPlain.uses_eq : ∀ {e : Expr}, e.IsPlain → e.uses data = []
  | .bool _, _ | .number _, _ | .ident _ _, _ | .sender, _ => rfl
  | .member base name, h => by
    have hself := h (.member base name) (by simp [subterms])
    cases hself
  | .index base idx, h => by
    rw [isPlain_index] at h
    rw [uses_index, h.1.uses_eq, h.2.uses_eq]
    rfl
  | .op o args, h => by
    rw [isPlain_op] at h
    exact usesFrom_eq_nil _ _ (uses_eq_of_isPlain h)
  | .cast t e, h => by
    rw [isPlain_cast] at h
    exact h.uses_eq
  | .call f args site, h => by
    have hargs : ∀ a ∈ args, a.IsPlain := by
      intro a ha x hx
      exact h x (List.mem_cons_of_mem _ (forall_subtermsList.1 (fun _ => id) a ha x hx))
    exact usesFrom_eq_nil _ _ (uses_eq_of_isPlain hargs)
  | .method target name args, h => by
    have hself := h (.method target name args) (by simp [subterms])
    cases hself
  | .newWords len, h => by
    have hlen : len.IsPlain := fun x hx => h x (List.mem_cons_of_mem _ hx)
    exact hlen.uses_eq
  | .tuple es, h => by
    rw [isPlain_tuple] at h
    exact usesFrom_eq_nil _ _ (uses_eq_of_isPlain h)

theorem uses_eq_of_isPlain : ∀ {es : List Expr}, (∀ e ∈ es, e.IsPlain) →
    ∀ e ∈ es, e.uses data = []
  | [], _ => nofun
  | _ :: _, h =>
    List.forall_mem_cons.2 ⟨(List.forall_mem_cons.1 h).1.uses_eq,
      uses_eq_of_isPlain (List.forall_mem_cons.1 h).2⟩

end

/-- A lazy operand is used under the condition that the operator puts on it. -/
theorem operandTest_of_isLazy (h : o.isLazy = true) (c : Expr) (es : List Expr) {n : Nat}
    (hn : n ≠ 0) : operandTest o (c :: es) n = some (c, Lowering.lazyPolarity o n) := by
  have htest : operandTest? o n = some (Lowering.lazyPolarity o n) := by
    unfold operandTest? Lowering.lazyPolarity
    rw [if_neg hn]
    cases o with
    | and | or | ite => simp
    | _ => cases h
  simp [operandTest, htest]

end Expr

/-! ## Statements -/

theorem Stmt.usesAll_eq (body : List Stmt) : usesAll data body = Solidity.uses data body := by
  induction body with
  | nil => rfl
  | cons s ss ih =>
    rw [usesAll, ih]
    rfl

@[simp] theorem uses_nil : uses data [] = [] := rfl

@[simp] theorem uses_cons (s : Stmt) (ss : List Stmt) :
    uses data (s :: ss) = s.uses data ++ uses data ss := rfl

namespace Stmt

theorem usesElse_eq (no : Option (List Stmt)) :
    usesElse data no = (no.map (Solidity.uses data)).getD [] := by
  cases no with
  | none => rfl
  | some body => exact usesAll_eq body

theorem usesOption_eq (o : Option Stmt) : usesOption data o = o.toList.flatMap (uses data) := by
  cases o with
  | none => rfl
  | some s => exact (List.append_nil _).symm

@[simp] theorem uses_block (body : List Stmt) : (block body).uses data = Solidity.uses data body :=
  usesAll_eq body

@[simp] theorem uses_cond (c : Expr) (yes : List Stmt) (no : Option (List Stmt)) :
    (cond c yes no).uses data = c.uses data ++ (Solidity.uses data yes).map (.under c true) ++
      ((no.map (Solidity.uses data)).getD []).map (.under c false) := by
  rw [uses, usesAll_eq, usesElse_eq]

@[simp] theorem uses_loop (c : Expr) (body : List Stmt) :
    (loop c body).uses data = c.uses data ++ Solidity.uses data body := by
  rw [uses, usesAll_eq]

@[simp] theorem uses_doLoop (body : List Stmt) (c : Expr) :
    (doLoop body c).uses data = Solidity.uses data body ++ c.uses data := by
  rw [uses, usesAll_eq]

@[simp] theorem uses_forLoop (init : Option Stmt) (c : Option Expr) (update : Option Stmt)
    (body : List Stmt) : (forLoop init c update body).uses data =
      init.toList.flatMap (uses data) ++ c.toList.flatMap (Expr.uses data) ++
        update.toList.flatMap (uses data) ++ Solidity.uses data body := by
  rw [uses, usesAll_eq, usesOption_eq, usesOption_eq]

/-- An assignment of a field. -/
theorem uses_assign_field (field : String) (rhs : Expr) :
    (assign (.member (.ident data) field) rhs).uses data =
      ⟨[], .write field rhs⟩ :: rhs.uses data := by
  simp [uses, assignUses, Expr.isData]

end Stmt

/-- Whether an expression is a field of something. -/
def Expr.isMember : Expr → Bool
  | .member _ _ => true
  | _ => false

/-- An assignment of anything else. -/
theorem Stmt.uses_assign_of_not_isMember {lhs : Expr} (h : lhs.isMember = false) (rhs : Expr) :
    (assign lhs rhs).uses data = lhs.uses data ++ rhs.uses data := by
  rw [uses, assignUses.eq_def]
  split
  · cases h
  · rfl

theorem uses_option_eq {o : Option Expr} (h : ∀ e ∈ o, e.IsPlain) :
    o.toList.flatMap (Expr.uses data) = [] :=
  List.flatMap_eq_nil_iff.2 fun e he => (h e (Option.mem_toList.1 he)).uses_eq

mutual

theorem Stmt.IsPlain.uses_eq : ∀ {s : Stmt}, s.IsPlain → s.uses data = []
  | .comment _, _ | .leave, _ | .next, _ => rfl
  | .block body, h => by
    rw [Stmt.isPlain_block] at h
    rw [Stmt.uses_block]
    exact uses_eq_of_isPlain h
  | .cond c yes none, h => by
    rw [Stmt.isPlain_cond] at h
    rw [Stmt.uses_cond, h.1.uses_eq, uses_eq_of_isPlain h.2.1]
    rfl
  | .cond c yes (some no), h => by
    rw [Stmt.isPlain_cond] at h
    rw [Stmt.uses_cond, h.1.uses_eq, uses_eq_of_isPlain h.2.1, Option.map_some, Option.getD_some,
      uses_eq_of_isPlain (h.2.2 no rfl)]
    rfl
  | .loop c body, h => by
    rw [Stmt.isPlain_loop] at h
    rw [Stmt.uses_loop, h.1.uses_eq, uses_eq_of_isPlain h.2]
    rfl
  | .doLoop body c, h => by
    rw [Stmt.isPlain_doLoop] at h
    rw [Stmt.uses_doLoop, h.1.uses_eq, uses_eq_of_isPlain h.2]
    rfl
  | .forLoop init c update body, h => by
    rw [Stmt.isPlain_forLoop] at h
    rw [Stmt.uses, usesOption_of_isPlain h.1, uses_option_eq h.2.1, usesOption_of_isPlain h.2.2.1,
      Stmt.usesAll_eq, uses_eq_of_isPlain h.2.2.2]
    rfl
  | .decl t name location init v, h => by
    refine uses_option_eq fun e he => h e ?_
    simpa [Stmt.exprs] using he
  | .assign lhs rhs, h => by
    have hl : lhs.IsPlain := h lhs (by simp [Stmt.exprs])
    have hr : rhs.IsPlain := h rhs (by simp [Stmt.exprs])
    have hmember : lhs.isMember = false := by
      cases lhs with
      | member base name =>
        have hself := hl (.member base name) (by simp [Expr.subterms])
        cases hself
      | _ => rfl
    rw [Stmt.uses_assign_of_not_isMember hmember, hl.uses_eq, hr.uses_eq]
    rfl
  | .expr e, h | .require e, h => by
    have he : e.IsPlain := h e (by simp [Stmt.exprs])
    exact he.uses_eq
  | .ret e, h => by
    refine uses_option_eq fun x hx => h x ?_
    simpa [Stmt.exprs] using hx

theorem uses_eq_of_isPlain : ∀ {ss : List Stmt}, (∀ s ∈ ss, s.IsPlain) → uses data ss = []
  | [], _ => rfl
  | s :: ss, h => by
    rw [List.forall_mem_cons] at h
    rw [uses_cons, h.1.uses_eq, uses_eq_of_isPlain h.2]
    rfl

theorem usesOption_of_isPlain : ∀ {o : Option Stmt}, (∀ s ∈ o, s.IsPlain) →
    Stmt.usesOption data o = []
  | none, _ => rfl
  | some s, h => (h s rfl).uses_eq

end

/-! ## Conditions -/

/-- A condition stands for the same test as its negation with the other value. -/
theorem Test.of_lazyCondition (c : Expr) (holds : Bool) :
    Test.of (Lowering.lazyCondition c holds) true = Test.of c holds := by
  cases holds with
  | true => rfl
  | false => simp [Lowering.lazyCondition, Test.of]

theorem DataUse.under_lazyCondition (c : Expr) (holds : Bool) :
    DataUse.under (Lowering.lazyCondition c holds) true = DataUse.under c holds := by
  funext u
  rw [under, under, Test.of_lazyCondition]

theorem Expr.uses_lazyCondition (c : Expr) (holds : Bool) :
    (Lowering.lazyCondition c holds).uses data = c.uses data := by
  cases holds with
  | true => rfl
  | false => exact uses_not c

/-! ## Readings -/

/-- The items in lazy operands from a position on, under the conditions that the operator puts on
them. -/
def lazyItems {ι : Type} (expr : Expr → List ι) (under : Expr → Bool → ι → ι) (o : Operator) (c : Expr) :
    Nat → List Expr → List ι
  | _, [] => []
  | n, e :: es => (expr e).map (under c (Lowering.lazyPolarity o n)) ++
      lazyItems expr under o c (n + 1) es

/-- What is looked for in code that works on the data of a circuit. Items in what is plain need not
be under the tests around it. -/
structure Reading (data : String) where
  Item : Type
  expr : Expr → List Item
  stmt : Stmt → List Item
  /-- An item under one more condition. -/
  under : Expr → Bool → Item → Item
  /-- The items of a call itself: of a name, with so many arguments, and with a number. -/
  call : String → Nat → Option Nat → List Item
  /-- The items of a field that gets a value. -/
  write : String → Expr → List Item
  expr_bool (b : Bool) : expr (.bool b) = []
  expr_number (n : Int) : expr (.number n) = []
  expr_sender : expr .sender = []
  expr_ident (name : String) (v : Option VarId) : expr (.ident name v) = []
  expr_cast (t : DataType) (e : Expr) : expr (.cast t e) = expr e
  expr_index (a i : Expr) : expr (.index a i) = expr a ++ expr i
  expr_tuple (es : List Expr) : expr (.tuple es) = es.flatMap expr
  expr_call (f : String) (args : List Expr) (site : Option Nat) :
    expr (.call f args site) = call f args.length site ++ args.flatMap expr
  expr_op_nil (o : Operator) : expr (.op o []) = []
  expr_op (o : Operator) (c : Expr) (es : List Expr) : (o.isLazy = true → ∀ e ∈ es, e.IsPlain) →
    expr (.op o (c :: es)) = expr c ++ es.flatMap expr
  expr_lazy (o : Operator) (c : Expr) (es : List Expr) : o.isLazy = true →
    expr (.op o (c :: es)) = expr c ++ lazyItems expr under o c 1 es
  stmt_comment (text : String) : stmt (.comment text) = []
  stmt_leave : stmt .leave = []
  stmt_next : stmt .next = []
  stmt_expr (e : Expr) : stmt (.expr e) = expr e
  stmt_require (e : Expr) : stmt (.require e) = expr e
  stmt_ret (e : Option Expr) : stmt (.ret e) = e.toList.flatMap expr
  stmt_decl (t : DataType) (name : String) (location : Option Location) (init : Option Expr)
    (v : Option VarId) : stmt (.decl t name location init v) = init.toList.flatMap expr
  stmt_block (body : List Stmt) : stmt (.block body) = body.flatMap stmt
  stmt_cond (c : Expr) (yes : List Stmt) (no : Option (List Stmt)) :
    stmt (.cond c yes no) = expr c ++ (yes.flatMap stmt).map (under c true) ++
      ((no.map (List.flatMap stmt)).getD []).map (under c false)
  stmt_cond_plain (c : Expr) (yes : List Stmt) (no : Option (List Stmt)) :
    (∀ s ∈ yes, s.IsPlain) → (∀ body ∈ no, ∀ s ∈ body, s.IsPlain) →
    stmt (.cond c yes no) = expr c ++ yes.flatMap stmt ++ (no.map (List.flatMap stmt)).getD []
  stmt_cond_lazy (c : Expr) (holds : Bool) (body : List Stmt) :
    stmt (.cond (Lowering.lazyCondition c holds) body none) =
      expr c ++ (body.flatMap stmt).map (under c holds)
  stmt_loop (c : Expr) (body : List Stmt) : stmt (.loop c body) = expr c ++ body.flatMap stmt
  stmt_doLoop (body : List Stmt) (c : Expr) :
    (stmt (.doLoop body c)).Perm (body.flatMap stmt ++ expr c)
  stmt_forLoop (init : Option Stmt) (c : Option Expr) (update : Option Stmt) (body : List Stmt) :
    stmt (.forLoop init c update body) = init.toList.flatMap stmt ++ c.toList.flatMap expr ++
      update.toList.flatMap stmt ++ body.flatMap stmt
  stmt_assign_field (field : String) (value : Expr) :
    stmt (.assign (.member (.ident data) field) value) = write field value ++ expr value
  stmt_assign (lhs rhs : Expr) : lhs.isMember = false → stmt (.assign lhs rhs) = expr lhs ++ expr rhs

namespace Reading

attribute [simp] expr_bool expr_number expr_sender expr_ident expr_cast expr_index expr_tuple
  expr_call expr_op_nil stmt_comment stmt_leave stmt_next stmt_expr stmt_require stmt_ret stmt_decl
  stmt_block stmt_cond stmt_loop stmt_forLoop stmt_assign_field

/-- The items in a body. -/
abbrev code {data : String} (R : Reading data) (body : List Stmt) : List R.Item :=
  body.flatMap R.stmt

/-- The field with the value of a boundary variable. -/
abbrev field {data : String} (R : Reading data) (name : String) : List R.Item :=
  R.expr (.member (.ident data) name)

/-- Nothing is looked for. -/
def nothing (data : String) : Reading data where
  Item := Empty
  expr _ := []
  stmt _ := []
  under _ _ := id
  call _ _ _ := []
  write _ _ := []
  expr_bool _ := rfl
  expr_number _ := rfl
  expr_sender := rfl
  expr_ident _ _ := rfl
  expr_cast _ _ := rfl
  expr_index _ _ := rfl
  expr_tuple _ := by simp
  expr_call _ _ _ := by simp
  expr_op_nil _ := rfl
  expr_op _ _ _ _ := by simp
  expr_lazy _ _ _ _ := Subsingleton.elim _ _
  stmt_comment _ := rfl
  stmt_leave := rfl
  stmt_next := rfl
  stmt_expr _ := rfl
  stmt_require _ := rfl
  stmt_ret _ := by simp
  stmt_decl _ _ _ _ _ := by simp
  stmt_block _ := by simp
  stmt_cond _ _ no := by cases no <;> simp
  stmt_cond_plain _ _ no _ _ := by cases no <;> simp
  stmt_cond_lazy _ _ _ := by simp
  stmt_loop _ _ := by simp
  stmt_doLoop _ _ := by simp
  stmt_forLoop _ _ _ _ := by simp
  stmt_assign_field _ _ := rfl
  stmt_assign _ _ _ := rfl

/-- The uses of the circuit's data. -/
def ofUses (data : String) : Reading data where
  Item := DataUse
  expr := Expr.uses data
  stmt := Stmt.uses data
  under := DataUse.under
  call _ _ _ := []
  write field value := [⟨[], .write field value⟩]
  expr_bool _ := rfl
  expr_number _ := rfl
  expr_sender := rfl
  expr_ident _ _ := rfl
  expr_cast _ _ := rfl
  expr_index _ _ := rfl
  expr_tuple := Expr.uses_tuple
  expr_call := Expr.uses_call
  expr_op_nil _ := rfl
  expr_op o c es h := by
    by_cases hop : o.isLazy = true
    · have hnone : ∀ e ∈ es, e.uses data = [] := Expr.uses_eq_of_isPlain (h hop)
      rw [Expr.uses_op_of_rest o c hnone, List.flatMap_eq_nil_iff.2 hnone, List.append_nil]
    · rw [Expr.uses_op_of_not_isLazy (by simpa using hop), List.flatMap_cons]
  expr_lazy o c es hop := by
    have hfrom : ∀ n xs, n ≠ 0 → Expr.usesFrom data (operandTest o (c :: es)) n xs =
        lazyItems (Expr.uses data) DataUse.under o c n xs := by
      intro n xs hn
      induction xs generalizing n with
      | nil => rfl
      | cons e xs ih =>
        rw [Expr.usesFrom, lazyItems, Expr.operandTest_of_isLazy hop c es hn, ih (n + 1) n.succ_ne_zero]
        rfl
    rw [Expr.uses_op_cons, hfrom 1 es Nat.one_ne_zero]
  stmt_comment _ := rfl
  stmt_leave := rfl
  stmt_next := rfl
  stmt_expr _ := rfl
  stmt_require _ := rfl
  stmt_ret _ := rfl
  stmt_decl _ _ _ _ _ := rfl
  stmt_block := Stmt.uses_block
  stmt_cond := Stmt.uses_cond
  stmt_cond_plain c yes no hyes hno := by
    have hnone : (no.map (uses data)).getD [] = [] := by
      cases no with
      | none => rfl
      | some body => exact uses_eq_of_isPlain (hno body rfl)
    have hsome : uses data yes = [] := uses_eq_of_isPlain hyes
    rw [Stmt.uses_cond, hsome, hnone]
    show _ = _ ++ uses data yes ++ (no.map (uses data)).getD []
    rw [hsome, hnone]
    rfl
  stmt_cond_lazy c holds body := by
    rw [Stmt.uses_cond, Expr.uses_lazyCondition, DataUse.under_lazyCondition]
    exact List.append_nil _
  stmt_loop := Stmt.uses_loop
  stmt_doLoop body c := .of_eq (Stmt.uses_doLoop body c)
  stmt_forLoop := Stmt.uses_forLoop
  stmt_assign_field := Stmt.uses_assign_field
  stmt_assign _ rhs h := Stmt.uses_assign_of_not_isMember h rhs

theorem field_ofUses (data name : String) :
    (ofUses data).field name = [⟨[], .read name⟩] := by
  show Expr.uses data (.member (.ident data) name) = ([⟨[], .read name⟩] : List DataUse)
  simp

end Reading

end Solidity

end Shroud
