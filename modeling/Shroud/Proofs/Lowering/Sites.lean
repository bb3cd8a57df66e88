import Shroud.Proofs.Lowering.Calls

/-! # Call sites and slices

`Patched` relates a body before and after its numbered calls get their slices, and follows the syntax.
It tells in which order the numbers stand, which two sums and sizes each call gets, and that nothing
else changes. Giving out slices computes this relation, and refuses a body just if its numbers do not
match the slices. Where the offsets come from is left to `Buffers.Layout`.
-/

namespace Shroud.Solidity

variable (extra : Nat → List Expr)

namespace Expr

mutual

/-- An expression with the numbers of its calls, and the same without the numbers, where each
numbered call has further arguments after its own. -/
inductive Patched : Expr → List Nat → Expr → Prop
  | bool (b : Bool) : Patched (.bool b) [] (.bool b)
  | number (n : Int) : Patched (.number n) [] (.number n)
  | ident (x : String) (v : Option VarId) : Patched (.ident x v) [] (.ident x v)
  | sender : Patched .sender [] .sender
  | member {e is e'} (x : String) : Patched e is e' → Patched (.member e x) is (.member e' x)
  | index {e is e' k js k'} : Patched e is e' → Patched k js k' →
      Patched (.index e k) (is ++ js) (.index e' k')
  | op {es is es'} (o : Operator) : PatchedAll es is es' → Patched (.op o es) is (.op o es')
  | cast {e is e'} (t : DataType) : Patched e is e' → Patched (.cast t e) is (.cast t e')
  | call {es is es'} (f : String) : PatchedAll es is es' →
      Patched (.call f es none) is (.call f es' none)
  | site {es is es'} (f : String) (i : Nat) : PatchedAll es is es' →
      Patched (.call f es (some i)) (i :: is) (.call f (es' ++ extra i) none)
  | method {e is e' es js es'} (x : String) : Patched e is e' → PatchedAll es js es' →
      Patched (.method e x es) (is ++ js) (.method e' x es')
  | newWords {e is e'} : Patched e is e' → Patched (.newWords e) is (.newWords e')
  | tuple {es is es'} : PatchedAll es is es' → Patched (.tuple es) is (.tuple es')

inductive PatchedAll : List Expr → List Nat → List Expr → Prop
  | nil : PatchedAll [] [] []
  | cons {e is e' es js es'} : Patched e is e' → PatchedAll es js es' →
      PatchedAll (e :: es) (is ++ js) (e' :: es')

end

end Expr

namespace Stmt

mutual

/-- A statement with the numbers of its calls, and the same with patched expressions. -/
inductive Patched : Stmt → List Nat → Stmt → Prop
  | comment (text : String) : Patched (.comment text) [] (.comment text)
  | block {ss is ss'} : PatchedAll ss is ss' → Patched (.block ss) is (.block ss')
  | cond {c is c' yes js yes'} : c.Patched extra is c' → PatchedAll yes js yes' →
      Patched (.cond c yes none) (is ++ js) (.cond c' yes' none)
  | condElse {c is c' yes js yes' no ks no'} : c.Patched extra is c' → PatchedAll yes js yes' →
      PatchedAll no ks no' →
      Patched (.cond c yes (some no)) (is ++ js ++ ks) (.cond c' yes' (some no'))
  | loop {c is c' ss js ss'} : c.Patched extra is c' → PatchedAll ss js ss' →
      Patched (.loop c ss) (is ++ js) (.loop c' ss')
  | doLoop {c is c' ss js ss'} : c.Patched extra is c' → PatchedAll ss js ss' →
      Patched (.doLoop ss c) (is ++ js) (.doLoop ss' c')
  | forLoop {init is init' c js c' update ks update' ss ls ss'} :
      PatchedAll init.toList is init'.toList → Expr.PatchedAll extra c.toList js c'.toList →
      PatchedAll update.toList ks update'.toList → PatchedAll ss ls ss' →
      Patched (.forLoop init c update ss) (is ++ js ++ ks ++ ls) (.forLoop init' c' update' ss')
  | decl {init is init'} (t : DataType) (x : String) (l : Option Location) (v : Option VarId) :
      Expr.PatchedAll extra init.toList is init'.toList →
      Patched (.decl t x l init v) is (.decl t x l init' v)
  | assign {lhs is lhs' rhs js rhs'} : lhs.Patched extra is lhs' → rhs.Patched extra js rhs' →
      Patched (.assign lhs rhs) (is ++ js) (.assign lhs' rhs')
  | expr {e is e'} : e.Patched extra is e' → Patched (.expr e) is (.expr e')
  | require {e is e'} : e.Patched extra is e' → Patched (.require e) is (.require e')
  | ret {e is e'} : Expr.PatchedAll extra e.toList is e'.toList → Patched (.ret e) is (.ret e')
  | leave : Patched .leave [] .leave
  | next : Patched .next [] .next

inductive PatchedAll : List Stmt → List Nat → List Stmt → Prop
  | nil : PatchedAll [] [] []
  | cons {s is s' ss js ss'} : Patched s is s' → PatchedAll ss js ss' →
      PatchedAll (s :: ss) (is ++ js) (s' :: ss')

end

end Stmt

variable {s : Settings} {offsets : List (Nat × Nat)}

namespace Expr

attribute [local simp] patch patchList siteArgs

mutual

/-- Giving out slices computes the relation. -/
theorem patched_patch : ∀ e : Expr,
    e.Patched (fun i => siteArgs s offsets (some i)) (e.calls.filterMap Call.site) (e.patch s offsets)
  | .bool b => .bool b
  | .number n => .number n
  | .ident x v => .ident x v
  | .sender => .sender
  | .member e x => .member x (patched_patch e)
  | .index e k => by simpa using Patched.index (patched_patch e) (patched_patch k)
  | .op o es => by simpa using Patched.op o (patchedAll_patchList es)
  | .cast t e => .cast t (patched_patch e)
  | .call f es none => by simpa using Patched.call f (patchedAll_patchList es)
  | .call f es (some i) => by simpa using Patched.site f i (patchedAll_patchList es)
  | .method e x es => by
    simpa using Patched.method x (patched_patch e) (patchedAll_patchList es)
  | .newWords e => .newWords (patched_patch e)
  | .tuple es => by simpa using Patched.tuple (patchedAll_patchList es)

theorem patchedAll_patchList : ∀ es : List Expr,
    PatchedAll (fun i => siteArgs s offsets (some i)) es ((es.flatMap calls).filterMap Call.site)
      (patchList s offsets es)
  | [] => .nil
  | e :: es => by simpa using PatchedAll.cons (patched_patch e) (patchedAll_patchList es)

end

theorem patchedAll_map : ∀ e : Option Expr,
    PatchedAll (fun i => siteArgs s offsets (some i)) e.toList
      ((e.toList.flatMap calls).filterMap Call.site) (e.map (patch s offsets)).toList
  | none => .nil
  | some e => patchedAll_patchList [e]

end Expr

namespace Stmt

attribute [local simp] patch patchElse patchList patchOption

mutual

theorem patched_patch : ∀ t : Stmt, t.Patched (fun i => Expr.siteArgs s offsets (some i))
    (t.calls.filterMap Call.site) (t.patch s offsets)
  | .comment text => .comment text
  | .block ss => by simpa using Patched.block (patchedAll_patchList ss)
  | .cond c yes none => by simpa using Patched.cond c.patched_patch (patchedAll_patchList yes)
  | .cond c yes (some no) => by
    simpa using Patched.condElse c.patched_patch (patchedAll_patchList yes) (patchedAll_patchList no)
  | .loop c ss => by simpa using Patched.loop c.patched_patch (patchedAll_patchList ss)
  | .doLoop ss c => by simpa using Patched.doLoop c.patched_patch (patchedAll_patchList ss)
  | .forLoop init c update ss => by
    simpa using Patched.forLoop (patchedAll_patchOption init) (Expr.patchedAll_map c)
      (patchedAll_patchOption update) (patchedAll_patchList ss)
  | .decl t x l init v => .decl t x l v (Expr.patchedAll_map init)
  | .assign lhs rhs => by simpa using Patched.assign lhs.patched_patch rhs.patched_patch
  | .expr e => by simpa using Patched.expr e.patched_patch
  | .require e => by simpa using Patched.require e.patched_patch
  | .ret e => .ret (Expr.patchedAll_map e)
  | .leave => .leave
  | .next => .next

theorem patchedAll_patchOption : ∀ t : Option Stmt,
    PatchedAll (fun i => Expr.siteArgs s offsets (some i)) t.toList
      ((t.toList.flatMap calls).filterMap Call.site) (patchOption s offsets t).toList
  | none => .nil
  | some t => by simpa using PatchedAll.cons (patched_patch t) .nil

theorem patchedAll_patchList : ∀ ss : List Stmt,
    PatchedAll (fun i => Expr.siteArgs s offsets (some i)) ss ((Solidity.calls ss).filterMap Call.site)
      (patchList s offsets ss)
  | [] => .nil
  | t :: ss => by simpa using PatchedAll.cons (patched_patch t) (patchedAll_patchList ss)

end

end Stmt

/-- Slices can be given out just if each number of a call has a slice and there are as many numbered
calls as slices. Each numbered call then has the buffers and the starts of its slice as further
arguments, where a start is the caller's own plus an offset and no zero is written, and nothing else
changes. -/
theorem patchSites_eq_ok_iff_patched (s : Settings) (offsets : List (Nat × Nat)) (body : List Stmt) :
    ∃ numbers patched,
      Stmt.PatchedAll (fun i => (offsets[i]?.map fun o =>
        [Expr.ident s.inName,
          if o.1 = 0 then .ident s.inStart else .op .add [.ident s.inStart, .number o.1],
          .ident s.outName,
          if o.2 = 0 then .ident s.outStart else .op .add [.ident s.outStart, .number o.2]]).getD [])
        body numbers patched ∧
      ∀ result, patchSites s offsets body = .ok result ↔
        (∀ i ∈ numbers, i < offsets.length) ∧ numbers.length = offsets.length ∧
          result = patched := by
  refine ⟨sites body, Stmt.patchList s offsets body, ?_, fun result => ?_⟩
  · rw [sites_eq]
    convert Stmt.patchedAll_patchList body using 2 with i
    rw [Expr.siteArgs]
    cases offsets[i]? <;> rfl
  · have hrange : (sites body).countP (fun i => i < offsets.length) = (sites body).length ↔
        ∀ i ∈ sites body, i < offsets.length := by
      simp [List.countP_eq_length]
    rw [← hrange, patchSites]
    grind

end Shroud.Solidity
