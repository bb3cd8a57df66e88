import Shroud.Proofs.Alias.Sound

/-! # Conditions with effects

A condition may call functions that change state. What is known before it is dropped first, as far as
these functions may change it, but then all its equalities are learned, also those that were tested
before such a function was called. They are true afterwards if the function leaves their variables
alone, as `Alias.isLasting` asks for, and may be wrong otherwise.
-/

namespace Shroud.SourceUnit

open Alias in
/-- Whenever an execution of a function gets to a statement, what is learned from its condition is
true: once the condition of a `require` holds, labels that are known to be equal after it denote equal
values, and where control enters a statement inside, labels that are known to be equal before that
do. -/
theorem conditions_denote_equal {u : SourceUnit} {q : Program} (h : Passes u.check q)
    (htracked : ∀ g, g.index < q.functions.length → ∀ t ∈ (q.function g).body.walk,
      isTracked q t = true) {m : Machine q} (hm : m.Framed q.modified) {f : FunctionId}
    (hf : f.index < q.functions.length) {σ ρ : Store q} {args : List Value} {t : Stmt}
    (ht : m.Reaches (q.function f).body (σ.activate ((q.function f).params.zip args)) t ρ) :
    (∀ i c, t = .require i c → ∃ flow, i.flow? = some flow ∧
      ∀ τ, Runs (m.eval c) ρ (.bool true) τ → ∀ x y, flow.after.same x y = true →
        ∀ k ∈ m.denote τ x, ∀ l ∈ m.denote τ y, k = l) ∧
    ∀ s τ, m.Enters t ρ s τ → ∃ flow, s.info.flow? = some flow ∧
      ∀ x y, flow.before.same x y = true → ∀ k ∈ m.denote τ x, ∀ l ∈ m.denote τ y, k = l := by
  have H : Setting u q m f := ⟨h, hm, htracked, hf⟩
  obtain ⟨a, hflows⟩ := check_flows h hf
  obtain ⟨hmem, b, a, hflows, hready⟩ :=
    H.reaches_ready (Stmt.mem_walk_self _) hflows (H.start_ready σ args) ht
  refine ⟨?_, fun s τ henters => ?_⟩
  · rintro i c rfl
    refine ⟨⟨b, a⟩, hflows.recorded, fun τ hc => ?_⟩
    exact (H.sound hmem hflows hready (Machine.runs_require.2 ⟨hc, rfl⟩)).holds.same
  · obtain ⟨b', a', hflows', hready'⟩ := H.enters_ready hmem hflows hready henters
    exact ⟨⟨b', a'⟩, hflows'.recorded, hready'.holds.same⟩

namespace Stale

open Source Alias

def isSender : Source.Expr := .builtin {} .eq ["x", .me {}]

def change : Source.Expr := .call {} "g" []

/-- A party is tested to be the sender and changed, in one order or the other, and its data is then
read as the sender's own. -/
def unit (first second : Source.Expr) : SourceUnit := .single "Stale" parties [
  { name := "g"
    visibility := .internal
    returns := [.mk .bool .all]
    body := [.assign {} "x" none "y", .ret {} (some (.bool {} true))] },
  { name := "f"
    body := [
      .require {} (.builtin {} .and [first, second]),
      .assign {} "r" none (.index {} "m" "x")] }]

/-- The store in which the second function starts, with values of the two parties. -/
def start (q : Program) (x y : Nat) : Store q :=
  (((Store.zeros q).set ⟨0⟩ (.number .address x)).set ⟨1⟩ (.number .address y)).activate
    ((q.function ⟨1⟩).params.zip [])

theorem outcome_changed :
    (unit change isSender).outcome isTracked ⟨1⟩ ⟨0⟩ (start · 0 7) =
    .ok (true, some (true, [some (.number 7), some (.number 7)])) := by
  decide +kernel

theorem outcome_stale :
    (unit isSender change).outcome isTracked ⟨1⟩ ⟨0⟩ (start · 7 0) =
    .ok (false, some (true, [some (.number 7), some (.number 0)])) := by
  decide +kernel

end Stale

open Stale

/-- A party that is tested after it was changed is the sender. -/
theorem conditions_denote_equal_changed : ∃ q t ρ flow, Passes (unit change isSender).check q ∧
    (∀ g, g.index < q.functions.length → ∀ t ∈ (q.function g).body.walk,
      Alias.isTracked q t = true) ∧ (q.machine 7 true 1 1).Framed q.modified ∧
    (q.machine 7 true 1 1).Enters (q.function ⟨1⟩).body (start q 0 7) t ρ ∧
    t.info.flow? = some flow ∧ flow.before.same .me (.var ⟨0⟩) = true ∧
    ∀ k ∈ (q.machine 7 true 1 1).denote ρ .me, ∀ l ∈ (q.machine 7 true 1 1).denote ρ (.var ⟨0⟩),
      k = l := by
  obtain ⟨q, t, ρ, flow, hq, htracked, henters, hflow, hsame, -⟩ := of_outcome outcome_changed
  obtain ⟨hlength, htracked⟩ := htracked rfl
  have hframed := Program.machine_framed (check_checked hq) 7 true 1 1
  have hreaches : (q.machine 7 true 1 1).Reaches (q.function ⟨1⟩).body (start q 0 7)
      (q.function ⟨1⟩).body (start q 0 7) := .here
  obtain ⟨flow', hflow', hequal⟩ :=
    (conditions_denote_equal hq htracked hframed hlength hreaches).2 t ρ henters
  obtain rfl := Option.some.inj (hflow.symm.trans hflow')
  exact ⟨q, t, ρ, flow, hq, htracked, hframed, henters, hflow, hsame, hequal _ _ hsame⟩

/-- A party that is changed after it was tested is still taken for the sender. -/
theorem stale_denotes_another : ∃ q t ρ flow, Passes (unit isSender change).check q ∧
    (q.machine 7 true 1 1).Enters (q.function ⟨1⟩).body (start q 7 0) t ρ ∧
    t.info.flow? = some flow ∧ flow.before.same .me (.var ⟨0⟩) = true ∧
    (q.machine 7 true 1 1).denote ρ .me = some (.number 7) ∧
    (q.machine 7 true 1 1).denote ρ (.var ⟨0⟩) = some (.number 0) := by
  obtain ⟨q, t, ρ, flow, hq, -, henters, hflow, hsame, hvalues⟩ := of_outcome outcome_stale
  obtain ⟨hme, hx⟩ := List.cons.inj hvalues
  exact ⟨q, t, ρ, flow, hq, henters, hflow, hsame, hme, (List.cons.inj hx).1⟩

end Shroud.SourceUnit
