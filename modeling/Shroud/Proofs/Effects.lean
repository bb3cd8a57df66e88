import Shroud.Proofs.Sorted
import Shroud.Proofs.Stages

/-! # Effects of functions

The call graph is closed: what a function reaches contains what it calls, and what these reach. So
the state that a function is recorded to write contains the state that its own body writes and the
state that the functions called in it are recorded to write.
-/

namespace Shroud

namespace Effects

/-! ## The call graph -/

variable {next : FunctionId → List FunctionId} {N : Nat} {known fresh : List FunctionId}
  {g : FunctionId} {body : Stmt} {S : FunctionId → Prop} {v : VarId} {n : Nat}

/-- The functions that are not known yet. -/
def unknown (N : Nat) (known : List FunctionId) : List Nat :=
  (List.range N).filter fun i => !known.contains ⟨i⟩

/-- A new function leaves fewer that are not known. -/
theorem length_unknown_lt {known' : List FunctionId} (hsub : ∀ f ∈ known, f ∈ known')
    (hg : g.index < N) (hnot : g ∉ known) (hin : g ∈ known') :
    (unknown N known').length < (unknown N known).length := by
  have hle : (unknown N known').Sublist ((unknown N known).erase g.index) := by
    have hnodup : (unknown N known).Nodup := List.nodup_range.filter _
    rw [hnodup.erase_eq_filter, unknown, unknown, List.filter_filter]
    refine List.monotone_filter_right _ ?_
    intro i hi
    simp only [List.contains_eq_mem, Bool.not_eq_eq_eq_not, Bool.not_true, decide_eq_false_iff_not,
      Bool.and_eq_true, bne_iff_ne, ne_eq] at hi ⊢
    refine ⟨?_, fun hm => hi (hsub _ hm)⟩
    rintro rfl
    exact hi hin
  have hmem : g.index ∈ unknown N known := by
    simp [unknown, hg, hnot]
  have := hle.length_le
  rw [List.length_erase_of_mem hmem] at this
  have hpos := List.length_pos_of_mem hmem
  omega

theorem subset_closure : ∀ f ∈ known, f ∈ closure next n known fresh := by
  induction n generalizing known fresh with
  | zero => exact fun f hf => hf
  | succ n ih =>
    intro f hf
    rw [closure]
    split
    · exact hf
    · exact ih f (Sorted.mem_union.2 (.inl hf))

/-- The closure is closed: the fresh functions are the only ones whose calls may be missing, and
each round knows one more function. -/
theorem closure_closed (hnext : ∀ f, ∀ g ∈ next f, g.index < N) (hfresh : ∀ f ∈ fresh, f ∈ known)
    (hknown : ∀ f ∈ known, f ∉ fresh → ∀ g ∈ next f, g ∈ known) (hn : (unknown N known).length ≤ n) :
    ∀ f ∈ closure next n known fresh, ∀ g ∈ next f, g ∈ closure next n known fresh := by
  induction n generalizing known fresh with
  | zero =>
    intro f hf g hg
    have hempty : unknown N known = [] := List.eq_nil_of_length_eq_zero (Nat.le_zero.1 hn)
    have := List.filter_eq_nil_iff.1 hempty g.index (List.mem_range.2 (hnext f g hg))
    simpa [closure] using this
  | succ n ih =>
    rw [closure]
    set more := Sorted.ofList ((fresh.flatMap next).filter fun g => !known.contains g) with hmore
    have hmem : ∀ g, g ∈ more ↔ (∃ f ∈ fresh, g ∈ next f) ∧ g ∉ known := by
      intro g
      simp [hmore]
    split
    · rename_i hempty
      rw [List.isEmpty_iff] at hempty
      intro f hf g hg
      by_cases hff : f ∈ fresh
      · by_contra hgk
        have : g ∈ more := (hmem g).2 ⟨⟨f, hff, hg⟩, hgk⟩
        rw [hempty] at this
        cases this
      · exact hknown f hf hff g hg
    · rename_i hempty
      refine ih (fun f hf => Sorted.mem_union.2 (.inr hf)) ?_ ?_
      · intro f hf hff g hg
        have hfk : f ∈ known := (Sorted.mem_union.1 hf).resolve_right hff
        rw [Sorted.mem_union]
        by_cases hgk : g ∈ known
        · exact .inl hgk
        · by_cases hf' : f ∈ fresh
          · exact .inr ((hmem g).2 ⟨⟨f, hf', hg⟩, hgk⟩)
          · exact absurd (hknown f hfk hf' g hg) hgk
      · obtain ⟨g, hg⟩ : ∃ g, g ∈ more := by
          rw [List.isEmpty_iff] at hempty
          exact List.exists_mem_of_ne_nil _ hempty
        obtain ⟨⟨f, hf, hgf⟩, hgk⟩ := (hmem g).1 hg
        have hlt : (unknown N (Sorted.union known more)).length < (unknown N known).length :=
          length_unknown_lt (fun f hf => Sorted.mem_union.2 (.inl hf)) (hnext f g hgf) hgk
            (Sorted.mem_union.2 (.inr hg))
        omega

/-- The closure is the least closed set. -/
theorem closure_subset (hS : ∀ f, S f → ∀ g ∈ next f, S g) (hknown : ∀ f ∈ known, S f)
    (hfresh : ∀ f ∈ fresh, S f) : ∀ f ∈ closure next n known fresh, S f := by
  induction n generalizing known fresh with
  | zero => exact hknown
  | succ n ih =>
    rw [closure]
    split
    · exact hknown
    · have hmore : ∀ f ∈ Sorted.ofList ((fresh.flatMap next).filter fun g => !known.contains g),
          S f := by
        intro g hg
        simp only [Sorted.mem_ofList, List.mem_filter, List.mem_flatMap] at hg
        obtain ⟨⟨f, hf, hg⟩, -⟩ := hg
        exact hS f (hfresh f hf) g hg
      refine ih ?_ hmore
      intro f hf
      rcases Sorted.mem_union.1 hf with hf | hf
      · exact hknown f hf
      · exact hmore f hf

theorem mem_calls {f : FunctionId} : f ∈ calls body ↔ ∃ e ∈ body.exprs, e.callee? = some f := by
  simp [calls, List.mem_eraseDups]

@[simp] theorem Access.mem_modified_gather {as : List Access} :
    v ∈ (Access.gather as).modified ↔ ∃ a ∈ as, v ∈ a.modified := by
  simp [Access.gather]

/-! ## The recorded facts -/

/-- The program before statements are annotated. -/
def graph (p : Program) : Program := recordFacts (recordReached (recordCalls p))

theorem withEffects_eq (p : Program) : p.withEffects = recordAccess (graph p) := rfl

@[simp] theorem length_graph (p : Program) : (graph p).functions.length = p.functions.length := by
  simp [graph, recordFacts, recordReached, recordCalls]

variable {p : Program} {f : FunctionId}

/-- The functions that are reached, as they are recorded. -/
def reached (p : Program) (f : FunctionId) : List FunctionId :=
  let first := Sorted.ofList (calls (p.function f).body)
  closure (fun g => calls (p.function g).body) p.functions.length first first

/-- Calling leads nowhere from functions that are not there. -/
theorem calls_default : calls (default : Function).body = [] := rfl

theorem recordReached_eq (h : p.Has f) :
    ((recordReached (recordCalls p)).function f) =
      { p.function f with facts := { (p.function f).facts with
          calls := calls (p.function f).body, reached := reached p f } } := by
  rw [recordReached, Program.function_mapFunctions (by simpa [recordCalls] using h), recordCalls,
    Program.function_mapFunctions h]
  have hnext : (fun g : FunctionId => (((p.mapFunctions fun _ f =>
      { f with facts := { f.facts with calls := calls f.body } }).functions.map
        fun f => f.facts.calls).toArray.getD g.index [])) = fun g => calls (p.function g).body := by
    funext g
    by_cases hg : p.Has g
    · rw [Program.getD_table (by simpa using hg), Program.function_mapFunctions hg]
    · rw [Program.getD_table_of_not_has (by simpa using hg),
        Program.function_of_not_has hg, calls_default]
  simp only [hnext, Program.length_mapFunctions, reached]

/-- What is true of everything that is called is true of everything that is reached. -/
theorem reached_induct (hS : ∀ g, ∀ k ∈ calls (p.function g).body, S k) :
    ∀ g ∈ reached p f, S g := by
  refine closure_subset (fun g _ => hS g) ?_ ?_ <;>
    exact fun k hk => hS f k (Sorted.mem_ofList.1 hk)

/-- What a function and all that it reaches write and read. -/
def fullAccess (p : Program) (f : FunctionId) : Access :=
  .gather ((f :: reached p f).map fun g => ownState p (p.function g).body)

/-- What is recorded about a function in the end. -/
def factsOf (p : Program) (f : FunctionId) : Function.Facts :=
  { (p.function f).facts with
    calls := calls (p.function f).body
    reached := reached p f
    isRecursive := (reached p f).contains f
    isStatic := !hasLoop (p.function f).body && !(reached p f).contains f
    hasEffects := !(fullAccess p f).modified.isEmpty
    modified := (fullAccess p f).modified
    read := (fullAccess p f).read }

theorem facts_graph (h : f.index < p.functions.length) :
    ((graph p).function f).facts = factsOf p f := by
  have hlen : (recordReached (recordCalls p)).functions.length = p.functions.length := by
    simp [recordReached, recordCalls]
  have hown : ∀ g : FunctionId, (((recordReached (recordCalls p)).functions.map fun f =>
      ownState (recordReached (recordCalls p)) f.body).toArray.getD g.index {}) =
        ownState p (p.function g).body := by
    intro g
    by_cases hg : g.index < p.functions.length
    · rw [Program.getD_table (by rwa [hlen]), recordReached_eq hg]
      rfl
    · rw [Program.getD_table_of_not_has (by simpa [hlen] using hg),
        Program.function_of_not_has hg]
      rfl
  rw [graph, recordFacts, Program.function_mapFunctions (by rwa [hlen]), recordReached_eq h]
  simp only [hown]
  rfl

/-! ## What is changed is recorded -/

theorem exists_occurrence_iff {s : Stmt} :
    (∃ u ∈ s.uses, v ∈ (occurrence u).modified) ↔ ∃ t ∈ s.walk, v ∈ t.targets := by
  have hocc : ∀ u : Use × Expr, v ∈ (occurrence u).modified ↔ ∃ i, u = (.target, .ident i v) := by
    rintro ⟨u, e⟩
    cases u <;> cases e <;> simp [occurrence, eq_comm]
  simp only [hocc, ← Stmt.exists_target_uses_iff]
  constructor
  · rintro ⟨u, hu, i, rfl⟩
    exact ⟨i, hu⟩
  · rintro ⟨i, hu⟩
    exact ⟨_, hu, i, rfl⟩

theorem mem_modified_ownState :
    v ∈ (ownState p body).modified ↔ p.isState v = true ∧ ∃ t ∈ body.walk, v ∈ t.targets := by
  simp only [ownState, List.mem_filter, Access.mem_modified_gather, List.mem_map,
    exists_exists_and_eq_and, exists_occurrence_iff]
  exact and_comm

theorem mem_calls_iff : g ∈ calls body ↔ ∃ t ∈ body.walk, ∃ r ∈ t.roots, g ∈ r.2.callees := by
  simp only [mem_calls, Stmt.mem_exprs_iff, Expr.callees, List.mem_filterMap]
  constructor
  · rintro ⟨e, ⟨t, ht, r, hr, he⟩, hg⟩
    exact ⟨t, ht, r, hr, e, he, hg⟩
  · rintro ⟨t, ht, r, hr, e, he, hg⟩
    exact ⟨e, ⟨t, ht, r, hr, he⟩, hg⟩

/-- A function and what it calls are functions of the program, in one contract. Constructors are not
called. -/
theorem called_of_scoped (hp : p.Scoped) (hg : g ∈ calls (p.function f).body) :
    p.Has f ∧ p.Has g ∧
      (p.function g).isConstructor = false ∧ (p.function g).contract = (p.function f).contract := by
  have hf : p.Has f := by
    by_contra hf
    rw [Program.function_of_not_has hf, calls_default] at hg
    cases hg
  obtain ⟨t, ht, r, hr, hg⟩ := mem_calls_iff.1 hg
  obtain ⟨fs, n, hs, hfs⟩ := hp.function f hf
  exact ⟨hf, hfs g ((hs.body.within t ht r hr).2 g hg)⟩

/-- What a function reaches contains what it calls and what these reach. -/
theorem reached_closed (hp : p.Scoped) (hg : g ∈ calls (p.function f).body) :
    g ∈ reached p f ∧ ∀ h ∈ reached p g, h ∈ reached p f := by
  have hclosed : ∀ h ∈ reached p f, ∀ k ∈ calls (p.function h).body, k ∈ reached p f := by
    refine closure_closed (fun _ _ hk => (called_of_scoped hp hk).2.1) (fun h hh => hh) (fun h hh hnot => absurd hh hnot) ?_
    exact Nat.le_trans (List.length_filter_le _ _) (Nat.le_of_eq List.length_range)
  have hmem : g ∈ reached p f := subset_closure g (Sorted.mem_ofList.2 hg)
  refine ⟨hmem, fun h hh => ?_⟩
  refine closure_subset (S := fun k => k ∈ reached p f) hclosed ?_ ?_ h hh <;>
    exact fun k hk => hclosed g hmem k (Sorted.mem_ofList.1 hk)

end Effects

/-- A statement declares a variable, stores into it, or calls a function that changes it. -/
def Stmt.Changes (modified : FunctionId → List VarId) (s : Stmt) (v : VarId) : Prop :=
  v ∈ s.declared ∨ ∃ t ∈ s.walk, v ∈ t.targets ∨ ∃ r ∈ t.roots, ∃ g ∈ r.2.callees, v ∈ modified g

/-- The state that a function is recorded to write. -/
def Program.modified (p : Program) (f : FunctionId) : List VarId := (p.function f).facts.modified

/-- Everything that statements and functions change is recorded. -/
structure Program.Recorded (p : Program) : Prop where
  state : ∀ f, ∀ v ∈ p.modified f, p.isState v = true
  targets : ∀ f, f.index < p.functions.length → ∀ t ∈ (p.function f).body.walk, ∀ v ∈ t.targets,
    p.isState v = true → v ∈ p.modified f
  calls : ∀ f, f.index < p.functions.length → ∀ t ∈ (p.function f).body.walk, ∀ r ∈ t.roots,
    ∀ g ∈ r.2.callees, p.modified g ⊆ p.modified f
  stmts : ∀ f, f.index < p.functions.length → ∀ t ∈ (p.function f).body.walk, ∀ v,
    t.Changes p.modified v → v ∈ t.info.modified

namespace Effects

variable {p : Program} {f : FunctionId} {I : Stmt.Info → Stmt.Info → Prop} {v : VarId} {s : Stmt}

/-- The same information up to what is written and read. -/
def SamePlace (i j : Stmt.Info) : Prop := j = { i with modified := j.modified, read := j.read }

theorem body_graph (p : Program) (f : FunctionId) :
    ((graph p).function f).body = (p.function f).body := by
  by_cases hf : p.Has f
  · rw [graph, recordFacts, Program.function_mapFunctions (by simpa [recordReached, recordCalls]),
      recordReached_eq hf]
  · rw [Program.function_of_not_has (by simpa using hf),
      Program.function_of_not_has hf]

theorem modified_withEffects (p : Program) : p.withEffects.modified = (graph p).modified := by
  funext f
  by_cases hf : p.Has f
  · rw [Program.modified, withEffects_eq, recordAccess,
      Program.function_mapFunctions (by simpa using hf), Program.modified]
  · rw [Program.modified, Program.function_of_not_has (by simpa [withEffects_eq, recordAccess]
      using hf), Program.modified, Program.function_of_not_has (by simpa using hf)]

theorem body_withEffects (hf : p.Has f) :
    (p.withEffects.function f).body = (p.function f).body.annotate fun s =>
      { s.info with modified := (access (graph p) s).modified, read := (access (graph p) s).read } := by
  rw [withEffects_eq, recordAccess, Program.function_mapFunctions (by simpa using hf), body_graph]

/-- The analysis annotates statements and records facts. -/
theorem withEffects_alike (p : Program) : Program.Alike SamePlace Eq p p.withEffects where
  contracts := rfl
  vars := rfl
  length := by simp [withEffects_eq, recordAccess]
  function f := by
    by_cases hf : p.Has f
    · rw [withEffects_eq, recordAccess, Program.function_mapFunctions (by simpa using hf), graph,
        recordFacts, Program.function_mapFunctions (by simpa [recordReached, recordCalls]),
        recordReached_eq hf]
    · rw [Program.function_of_not_has (by simpa [withEffects_eq, recordAccess] using hf),
        Program.function_of_not_has hf]
  body f hf := by
    rw [body_withEffects hf]
    refine Stmt.alike_annotate _ (fun _ => rfl) (fun s => ?_) _
    rfl

theorem mem_modified_callAccess {e : Expr} :
    v ∈ (callAccess p e).modified ↔ ∃ g ∈ e.callee?, v ∈ p.modified g := by
  cases e <;> simp [callAccess, Expr.callee?, Program.modified]

/-- What is recorded for a statement is what it changes. -/
theorem mem_modified_access : v ∈ (access p s).modified ↔ s.Changes p.modified v := by
  have hcalls : (∃ u ∈ s.uses, v ∈ (callAccess p u.2).modified) ↔
      ∃ t ∈ s.walk, ∃ r ∈ t.roots, ∃ g ∈ r.2.callees, v ∈ p.modified g := by
    simp only [mem_modified_callAccess, Expr.callees, List.mem_filterMap]
    constructor
    · rintro ⟨u, hu, g, hg, hv⟩
      obtain ⟨t, ht, r, hr, he⟩ := Stmt.mem_exprs_iff.1 (List.mem_map_of_mem hu)
      exact ⟨t, ht, r, hr, g, ⟨u.2, he, hg⟩, hv⟩
    · rintro ⟨t, ht, r, hr, g, ⟨e, he, hg⟩, hv⟩
      obtain ⟨u, hu, rfl⟩ := List.mem_map.1 (Stmt.mem_exprs_iff.2 ⟨t, ht, r, hr, he⟩)
      exact ⟨u, hu, g, hg, hv⟩
  simp only [access, Access.mem_modified_gather, List.mem_cons, List.mem_flatMap, List.not_mem_nil,
    or_false, exists_eq_or_imp, Stmt.Changes, and_or_left, exists_or, ← hcalls,
    ← exists_occurrence_iff]
  refine or_congr_right ⟨?_, ?_⟩
  · rintro ⟨a, ⟨u, hu, rfl⟩ | ⟨u, hu, rfl⟩, hv⟩
    · exact .inl ⟨u, hu, hv⟩
    · exact .inr ⟨u, hu, hv⟩
  · rintro (⟨u, hu, hv⟩ | ⟨u, hu, hv⟩)
    · exact ⟨_, .inl ⟨u, hu, rfl⟩, hv⟩
    · exact ⟨_, .inr ⟨u, hu, rfl⟩, hv⟩

theorem facts_withEffects (hf : p.Has f) :
    (p.withEffects.function f).facts = factsOf p f := by
  rw [withEffects_eq, recordAccess, Program.function_mapFunctions (by simpa using hf)]
  exact facts_graph hf

theorem calls_withEffects (p : Program) (f : FunctionId) :
    (p.withEffects.function f).facts.calls = calls (p.function f).body := by
  by_cases hf : p.Has f
  · rw [facts_withEffects hf]
    rfl
  · rw [Program.function_of_not_has hf, Program.function_of_not_has]
    · rfl
    · simpa [withEffects_eq, recordAccess] using hf

theorem mem_modified_withEffects (hf : p.Has f) :
    v ∈ p.withEffects.modified f ↔
      ∃ g ∈ f :: reached p f, p.isState v = true ∧ ∃ t ∈ (p.function g).body.walk, v ∈ t.targets := by
  rw [Program.modified, facts_withEffects hf]
  simp only [factsOf, fullAccess, Access.mem_modified_gather, List.mem_map, exists_exists_and_eq_and,
    mem_modified_ownState]

/-- A function without effects writes no state. -/
theorem modified_of_hasEffects (h : (p.withEffects.function f).facts.hasEffects = false) :
    p.withEffects.modified f = [] := by
  by_cases hf : p.Has f
  · rw [facts_withEffects hf] at h
    rw [Program.modified, facts_withEffects hf]
    simpa [factsOf] using h
  · rw [Program.modified, Program.function_of_not_has]
    · rfl
    · simpa [withEffects_eq, recordAccess] using hf

/-- Alike statements change the same variables, if they store into the same ones. -/
theorem Changes.congr {R : Expr → Expr → Prop} {s' : Stmt} {modified : FunctionId → List VarId}
    (h : Stmt.Alike I R s s')
    (htargets : ∀ t ∈ s.walk, ∀ t', Stmt.Alike I R t t' → t'.targets ⊆ t.targets)
    (hcallees : ∀ e e', R e e' → e'.callees = e.callees) (hs : s'.Changes modified v) :
    s.Changes modified v := by
  rcases hs with hv | ⟨t', ht', hv⟩
  · exact .inl (h.declared_eq ▸ hv)
  obtain ⟨t, ht, htt⟩ := h.walk.exists_left ht'
  refine .inr ⟨t, ht, hv.imp (fun hv => htargets t ht t' htt hv) ?_⟩
  rintro ⟨r', hr', g, hg, hv⟩
  obtain ⟨r, hr, -, hrr⟩ := htt.roots.exists_left hr'
  exact ⟨r, hr, g, hcallees _ _ hrr ▸ hg, hv⟩

theorem targets_eq {s' : Stmt} (h : Stmt.Alike I Eq s s') : s'.targets = s.targets := by
  cases h with
  | assign _ hl _ =>
    cases hl
    rfl
  | _ => rfl

theorem withEffects_recorded (hp : p.Scoped) : p.withEffects.Recorded where
  state f v hv := by
    by_cases hf : p.Has f
    · obtain ⟨g, -, hstate, -⟩ := (mem_modified_withEffects hf).1 hv
      exact hstate
    · rw [Program.modified, Program.function_of_not_has (by simpa [withEffects_eq, recordAccess]
        using hf)] at hv
      cases hv
  targets f hf t' ht' v hv hstate := by
    rw [(withEffects_alike p).length] at hf
    obtain ⟨t, ht, htt⟩ := ((withEffects_alike p).body f hf).walk.exists_left ht'
    rw [targets_eq htt] at hv
    exact (mem_modified_withEffects hf).2 ⟨f, List.mem_cons_self, hstate, t, ht, hv⟩
  calls f hf t' ht' r' hr' g hg v hv := by
    rw [(withEffects_alike p).length] at hf
    obtain ⟨t, ht, htt⟩ := ((withEffects_alike p).body f hf).walk.exists_left ht'
    obtain ⟨r, hr, -, hrr⟩ := htt.roots.exists_left hr'
    rw [← hrr] at hg
    have hcall := mem_calls_iff.2 ⟨t, ht, r, hr, hg⟩
    obtain ⟨hmem, hsub⟩ := reached_closed hp hcall
    obtain ⟨h, hh, hv⟩ := (mem_modified_withEffects (called_of_scoped hp hcall).2.1).1 hv
    refine (mem_modified_withEffects hf).2 ⟨h, List.mem_cons_of_mem _ ?_, hv⟩
    rcases List.mem_cons.1 hh with rfl | hh
    · exact hmem
    · exact hsub h hh
  stmts f hf t' ht' v hv := by
    rw [(withEffects_alike p).length] at hf
    rw [body_withEffects hf, Stmt.walk_annotate] at ht'
    obtain ⟨t, -, rfl⟩ := List.mem_map.1 ht'
    rw [Stmt.info_annotate, mem_modified_access, ← modified_withEffects]
    refine Changes.congr (Stmt.alike_annotate (I := fun _ _ => True) (R := Eq) _ (fun _ => rfl)
      (fun _ => trivial) t) (fun s _ s' hs => targets_eq hs ▸ List.Subset.refl _) ?_ hv
    rintro e _ rfl
    rfl

end Effects

/-- What is recorded stays recorded in a program of the same shape. -/
theorem Program.Recorded.congr {I : Stmt.Info → Stmt.Info → Prop} {R : Expr → Expr → Prop}
    {p q : Program} (hp : p.Recorded) (h : Program.Alike I R p q)
    (hI : ∀ i j, I i j → j.modified = i.modified)
    (htargets : ∀ f, p.Has f → ∀ t ∈ (p.function f).body.walk, ∀ t',
      Stmt.Alike I R t t' → t'.targets ⊆ t.targets)
    (hcallees : ∀ e e', R e e' → e'.callees = e.callees) (hm : q.modified = p.modified) :
    q.Recorded where
  state f v hv := by
    rw [hm] at hv
    rw [h.isState_eq]
    exact hp.state f v hv
  targets f hf t' ht' v hv hstate := by
    rw [h.length] at hf
    rw [h.isState_eq] at hstate
    rw [hm]
    obtain ⟨t, ht, htt⟩ := (h.body f hf).walk.exists_left ht'
    exact hp.targets f hf t ht v (htargets f hf t ht t' htt hv) hstate
  calls f hf t' ht' r' hr' g hg := by
    rw [h.length] at hf
    rw [hm]
    obtain ⟨t, ht, htt⟩ := (h.body f hf).walk.exists_left ht'
    obtain ⟨r, hr, -, hrr⟩ := htt.roots.exists_left hr'
    rw [hcallees _ _ hrr] at hg
    exact hp.calls f hf t ht r hr g hg
  stmts f hf t' ht' v hv := by
    rw [h.length] at hf
    rw [hm] at hv
    obtain ⟨t, ht, htt⟩ := (h.body f hf).walk.exists_left ht'
    rw [hI _ _ htt.info]
    refine hp.stmts f hf t ht v (Effects.Changes.congr htt (fun s hs => ?_) hcallees hv)
    exact htargets f hf s (Stmt.mem_walk_trans hs ht)

end Shroud
