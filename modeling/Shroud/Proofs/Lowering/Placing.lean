import Shroud.Proofs.Lowering.Bodies

/-! # The calls of a lowered body

Calls are never copied and never lost: each call that is noted stands exactly once in the code. This
is the trace `callNotes`, with calls as what `Reading.ofCalls` finds. The one expression that lowering
copies is the condition of lazy operands; it is an input or a constant, and has no calls. Bodies that
are held in the places of calls count, because the indices in them are computed outside.
-/

namespace Shroud

namespace Solidity

theorem lazyItems_id (o : Operator) (c : Expr) (n : Nat) (es : List Expr) :
    lazyItems Expr.calls (fun _ _ => id) o c n es = es.flatMap Expr.calls := by
  induction es generalizing n with
  | nil => rfl
  | cons e es ih => rw [lazyItems, List.map_id, ih, List.flatMap_cons]

/-- The calls in the code. -/
def Reading.ofCalls (data : String) : Reading data where
  Item := Call
  expr := Expr.calls
  stmt := Stmt.calls
  under _ _ := id
  call name count site := [⟨name, count, site⟩]
  write _ _ := []
  expr_bool _ := rfl
  expr_number _ := rfl
  expr_sender := rfl
  expr_ident _ _ := rfl
  expr_cast _ _ := rfl
  expr_index := Expr.calls_index
  expr_tuple := Expr.calls_tuple
  expr_call := Expr.calls_call
  expr_op_nil _ := rfl
  expr_op o c es _ := by simp
  expr_lazy o c es _ := by simp [lazyItems_id]
  stmt_comment _ := rfl
  stmt_leave := rfl
  stmt_next := rfl
  stmt_expr := Stmt.calls_expr
  stmt_require := Stmt.calls_require
  stmt_ret := Stmt.calls_ret
  stmt_decl := Stmt.calls_decl
  stmt_block := Stmt.calls_block
  stmt_cond c yes no := by cases no <;> simp [calls]
  stmt_cond_plain c yes no _ _ := by cases no <;> simp [calls]
  stmt_cond_lazy c holds body := by cases holds <;> simp [Lowering.lazyCondition, calls]
  stmt_loop := Stmt.calls_loop
  stmt_doLoop body c := by
    rw [Stmt.calls_doLoop]
    exact List.perm_append_comm
  stmt_forLoop := Stmt.calls_forLoop
  stmt_assign_field _ _ := by simp
  stmt_assign lhs rhs _ := Stmt.calls_assign lhs rhs

end Solidity

namespace Lowering

open Relation (TransGen)
open Solidity (calls Call Reading)

variable {p : Program} {s : Settings} {G : FunctionId → Prop} {σ ρ τ : State} {cs cs' : List Call}

/-- Functions in `G` were called, and the calls of those with circuits are numbered. -/
def Noted (p : Program) (s : Settings) (G : FunctionId → Prop) (σ τ : State) (cs : List Call) : Prop :=
  ∃ new, τ.called = σ.called ++ new ∧ τ.calls = σ.calls ++ verified p new ∧ (∀ g ∈ new, G g) ∧
    cs.Perm (numbered p s σ.calls.length new)

namespace Noted

/-- What is around the calls makes no difference. -/
theorem around (h : Noted p s G σ τ cs) {σ' τ' : State} (hσ : σ'.called = σ.called)
    (hσ' : σ'.calls = σ.calls) (hτ : τ'.called = τ.called) (hτ' : τ'.calls = τ.calls) :
    Noted p s G σ' τ' cs := by
  obtain ⟨new, hcalled, hcalls, hG, hperm⟩ := h
  exact ⟨new, by rw [hτ, hσ, hcalled], by rw [hτ', hσ', hcalls], hG, by rwa [hσ']⟩

theorem refl (σ : State) : Noted p s G σ σ [] := ⟨[], by simp, by simp [verified], nofun, .refl _⟩

theorem of_eq (h : τ.called = σ.called) (h' : τ.calls = σ.calls) : Noted p s G σ τ [] :=
  (refl σ).around rfl rfl h h'

theorem trans (h : Noted p s G σ ρ cs) (h' : Noted p s G ρ τ cs') :
    Noted p s G σ τ (cs ++ cs') := by
  obtain ⟨new, hcalled, hcalls, hG, hperm⟩ := h
  obtain ⟨new', hcalled', hcalls', hG', hperm'⟩ := h'
  refine ⟨new ++ new', ?_, ?_, List.forall_mem_append.2 ⟨hG, hG'⟩, ?_⟩
  · rw [hcalled', hcalled, List.append_assoc]
  · rw [hcalls', hcalls, verified_append, List.append_assoc]
  · rw [numbered_append]
    rw [hcalls, List.length_append] at hperm'
    exact hperm.append hperm'

end Noted

/-- The calls that are noted are those in the code. -/
def callNotes (base : Env) (G : FunctionId → Prop) : Trace base (.ofCalls _) where
  Context := Unit
  term _ _ _ := True
  stored _ _ := True
  test _ _ e _ := e.calls = []
  branches := True
  callable := G
  rel _ σ _ τ cs := Noted base.program base.settings G σ τ cs
  refl _ := .refl
  trans := .trans
  perm := fun ⟨new, hcalled, hcalls, hG, hperm⟩ h => ⟨new, hcalled, hcalls, hG, h.symm.trans hperm⟩
  closed _ _ _ _ := trivial
  op _ _ := trivial
  cast _ _ := trivial
  of_stored _ _ := trivial
  mono _ _ := trivial
  stored_mono _ _ := trivial
  test_mono _ h := h
  term_steps _ _ := trivial
  stored_steps _ _ := trivial
  quiet _ _ _ _ _ := .of_eq rfl rfl
  comment _ _ _ := .of_eq rfl rfl
  note _ _ f hf hv := ⟨[f], rfl, by simp [verified, hv], by simpa using hf, by simp [numbered, hv,
    Reading.ofCalls]⟩
  call _ _ f hf hv := ⟨[f], rfl, by simp [verified, hv], by simpa using hf, by simp [numbered, hv,
    Reading.ofCalls]⟩
  temporary _ h := by
    obtain ⟨-, rfl⟩ := newTemporary_iff.1 h
    exact ⟨(), .of_eq rfl rfl, trivial, fun _ _ hforms => hforms.uncalled⟩
  version _ h := by
    obtain ⟨-, rfl⟩ := newVersion_iff.1 h
    exact ⟨(), .of_eq rfl rfl, trivial⟩
  input _ _ h := by
    obtain ⟨hcalled, hcalls, x, hpre⟩ := input_frame h
    exact ⟨(), x, hpre, .of_eq hcalled hcalls, trivial, fun _ => rfl⟩
  publish _ _ _ h := by
    have hframe := publish_frame h
    obtain ⟨pre, hpre, hnone⟩ := hframe.pre
    refine ⟨(), pre, hpre, ?_⟩
    show Noted _ _ _ _ _ (calls pre ++ ([] : List Call))
    rw [hnone]
    exact .of_eq hframe.called hframe.calls
  block _ h := h.around rfl rfl rfl rfl
  guard _ _ h := by
    rw [show Reading.under (.ofCalls _) _ _ = id from rfl, List.map_id]
    exact h.around rfl rfl rfl rfl
  branch _ _ _ h := h.around rfl rfl rfl rfl
  reread {_ σ _ _} h := by
    show Noted _ _ _ _ _ (Solidity.Expr.calls _)
    rw [h]
    exact .refl σ

/-- The calls that stand in a lowered body are those that were noted, the calls of functions with
circuits are numbered in order, and all go to functions that the body calls directly or through the
functions that it holds. -/
theorem lowerFunction_calls {unit : SourceUnit} {u : ContractEnv} (h : Passes unit.check u.program)
    {f : FunctionId} {l : Lowered} (hl : lowerFunction u f = .ok l) :
    l.circuit.calls = verified u.program l.circuit.called ∧
      (∀ g ∈ l.circuit.called, TransGen u.program.Calls f g) ∧
      (calls l.body).Perm (numbered u.program u.settings 0 l.circuit.called) := by
  obtain ⟨_, new, hcalled, hcalls, hnew, hperm⟩ := lowerFunction_traced h
    (callNotes _ (TransGen u.program.Calls f)) (fun _ => id) (fun _ _ _ => trivial)
    (fun _ _ _ _ _ _ _ => trivial) hl ()
  obtain rfl : l.circuit.called = new := hcalled
  exact ⟨hcalls, hnew, hperm⟩

end Lowering

end Shroud
