import Shroud.Proofs.Constants

/-! # Types of private values

Only single values can be declared private, and the widest signed numbers cannot. The rules for
expressions do not look at this again. Most of them only pass on a type that some operand has, or
that is declared, so the private types that cannot be declared start at conversions: at casts, at
changes of the owner, and at private choices between tuples.
-/

namespace Shroud

variable {t : OwnedType}

namespace Expr

theorem Within.subterms {vis : List VarId} {fs : List FunctionId} {e : Expr} (h : e.Within vis fs) :
    ∀ x ∈ e.subterms, x.Within vis fs :=
  forall_subterms h fun h => (within_iff.1 h).2.2

/-- A cast, a change of the owner, or a private choice between tuples. -/
inductive Converts : Expr → Prop
  | cast {i : Info} {t : DataType} {e : Expr} {implicit : Bool} : Converts (.cast i t e implicit)
  | reclassify {i : Info} {e : Expr} {o : Owner} {implicit : Bool} :
      Converts (.reclassify i e o implicit)
  | choice {i : Info} {c a b : Expr} {ts : List OwnedType} (h : a.type.type = .tuple ts) :
      Converts (.builtin i .ite [c, a, b] true)

/-- The value is public, or of a type that can be declared private. -/
def CanBeOwned (e : Expr) : Prop := e.type.isPrivate = true → e.type.type.canBePrivate = true

end Expr

theorem OwnedType.WellOwned.canBePrivate (h : t.WellOwned) (hp : t.isPrivate = true) :
    t.type.canBePrivate = true := by
  cases t
  exact h.1 hp

theorem OwnedType.WellOwned.type (h : t.WellOwned) : t.type.WellOwned := by
  cases t
  exact h.2

theorem OwnedType.wellOwned_iff :
    t.WellOwned ↔ (t.isPrivate = true → t.type.canBePrivate = true) ∧ t.type.WellOwned := by
  cases t
  exact Iff.rfl

theorem DataType.wellOwned_of_isPrimitive {t : DataType} (h : t.isPrimitive = true) :
    t.WellOwned := by
  cases t <;> trivial

theorem OwnedType.wellOwned_ofAll {t : DataType} (h : t.WellOwned) : (OwnedType.ofAll t).WellOwned :=
  ⟨nofun, h⟩

namespace Typing

variable {env : Env} {e : Expr}

theorem Typed.isPrivate_eq (h : Typed env e) : e.isPrivate = e.type.isPrivate := by
  obtain ⟨t, ht⟩ : ∃ t, e.HasType t := by
    cases h <;> exact ⟨_, ‹Expr.HasType _ _›⟩
  rw [ht.isPrivate_eq, ht.type_eq]

theorem EntryType.wellOwned {l : Option String} {x : Option Label} {u : OwnedType}
    (h : EntryType l x t u) (ht : t.WellOwned) : u.WellOwned := by
  cases h with
  | anonymous | named _ => exact ht
  | owned hkey =>
    refine ⟨fun _ => ht.canBePrivate ?_, ht.type⟩
    rw [OwnedType.isPrivate, hkey]
    rfl

/-- What stands for a single value of the sender is private itself. -/
theorem Stands.wellOwned (hapart : env.Apart) {s : OwnedType} {t : DataType}
    (h : Stands env s (.ofMe t)) (ht : t.IsDeclarable) (hs : s.WellOwned) :
    (OwnedType.ofMe t).WellOwned := by
  obtain ⟨htype, hsame⟩ := (stands_iff (b := .ofMe t) ht).1 h
  have hprivate : s.isPrivate = true := by
    cases ho : s.owner with
    | all =>
      rw [ho, Env.sameOwner_comm] at hsame
      cases hapart.eq_all hsame
    | _ =>
      rw [OwnedType.isPrivate, ho]
      rfl
  refine OwnedType.wellOwned_iff.2 ⟨fun _ => ?_, ?_⟩
  · rw [← htype]
    exact hs.canBePrivate hprivate
  · rw [← htype]
    exact hs.type

theorem returned_wellOwned {ts : List OwnedType} (h : ∀ t ∈ ts, t.WellOwned) :
    (returned ts).WellOwned := by
  match ts with
  | [t] => exact h t (by simp)
  | [] | _ :: _ :: _ => exact OwnedType.wellOwned_ofAll trivial

/-- The owner that two branches have in common is the owner of one of them. -/
theorem commonOwner?_cases {a b o : Owner} (h : commonOwner? env a b = some o) : o = a ∨ o = b := by
  unfold commonOwner? at h
  split_ifs at h <;> simp_all

/-- An expression has a type that can be declared if its operands do, unless it is a conversion. -/
theorem Typed.wellOwned_step (hapart : env.Apart) (h : Typed env e)
    (hident : ∀ v ∈ e.ident?, (env.program.var v).type.WellOwned)
    (hcallee : ∀ f ∈ e.callee?, ∀ t ∈ (env.program.function f).returns, t.WellOwned)
    (hchildren : ∀ c ∈ e.children, c.type.WellOwned) (hself : e.Converts → e.CanBeOwned) :
    e.type.WellOwned := by
  have hconverts : e.Converts → e.type.type.WellOwned → e.type.WellOwned := fun hc hd =>
    OwnedType.wellOwned_iff.2 ⟨hself hc, hd⟩
  cases h with
  | bool h | number _ h | me h | tuple _ h =>
    rw [h.type_eq]
    exact OwnedType.wellOwned_ofAll trivial
  | @fold i op args l _ _ _ _ _ _ h =>
    rw [h.type_eq]
    refine OwnedType.wellOwned_ofAll ?_
    cases l <;> trivial
  | ident h =>
    rw [h.type_eq]
    exact hident _ rfl
  | @entry i base idx k l t u _ _ ht _ hu h =>
    have hb := (hchildren base (.head _)).type
    rw [ht] at hb
    rw [h.type_eq]
    exact hu.wellOwned hb.2
  | @element i base idx t len _ _ ht _ _ h =>
    have hb := (hchildren base (.head _)).type
    rw [ht] at hb
    rw [h.type_eq]
    exact hb
  | call _ _ h =>
    rw [h.type_eq]
    exact returned_wellOwned (hcallee _ rfl)
  | @raise i x o _ _ _ _ h =>
    refine hconverts .reclassify ?_
    rw [h.type_eq]
    exact (hchildren x (.head _)).type
  | @reveal i x o t _ hp _ _ ht _ _ h =>
    refine hconverts .reclassify (DataType.wellOwned_of_isPrimitive ?_)
    rw [h.type_eq]
    rcases ht with rfl | rfl
    · exact hp
    · simpa using hp
  | convert _ _ _ ht _ h | cast _ _ _ ht _ _ h =>
    refine hconverts .cast (DataType.wellOwned_of_isPrimitive ?_)
    rw [h.type_eq]
    exact ht
  | @paren i args _ h =>
    rw [h.type_eq]
    cases args with
    | nil => exact OwnedType.wellOwned_ofAll trivial
    | cons a rest => exact hchildren a (.head _)
  | @choose i c a b t o _ _ _ _ _ _ _ hta htb ho _ _ h =>
    rw [h.type_eq]
    rcases commonOwner?_cases ho with rfl | rfl
    · have ha := hchildren a (.tail _ (.head _))
      rw [← hta]
      exact ⟨ha.canBePrivate, ha.type⟩
    · have hb := hchildren b (by simp [Expr.children])
      rw [← htb]
      exact ⟨hb.canBePrivate, hb.type⟩
  | @decide i c a b t _ _ _ _ hd hl hta _ _ _ _ hsa _ h =>
    cases hd with
    | declarable hd =>
      rw [h.type_eq]
      exact hsa.wellOwned hapart hd (hchildren a (.tail _ (.head _)))
    | number _ | bool => cases hl
    | tuple _ =>
      refine hconverts (.choice hta) ?_
      rw [h.type_eq]
      trivial
  | operate _ _ _ _ _ _ _ ht _ h =>
    rw [h.type_eq]
    refine OwnedType.wellOwned_ofAll ?_
    split
    · trivial
    · exact DataType.wellOwned_of_isPrimitive ht
  | @compute i op args t _ _ _ _ hx _ _ _ _ hd ht hs _ h =>
    rw [h.type_eq]
    split
    · exact ⟨fun _ => rfl, trivial⟩
    · obtain ⟨x, hx, -⟩ := hx
      obtain ⟨a, ha, hm⟩ : ∃ a ∈ args, a ∈ converted op args := by
        cases args with
        | nil => cases hx
        | cons a rest =>
          refine ⟨a, by simp, ?_⟩
          rw [converted]
          split <;> simp
      exact (hs a hm).wellOwned hapart hd (hchildren a (by simpa [Expr.children] using ha))

/-- Where the conversions give only types that can be declared, all types can be. -/
theorem Typed.wellOwned (hapart : env.Apart) {vis : List VarId} {fs : List FunctionId}
    (hvis : ∀ v ∈ vis, (env.program.var v).type.WellOwned)
    (hfs : ∀ f ∈ fs, ∀ t ∈ (env.program.function f).returns, t.WellOwned) (h : Typed env e)
    (hw : e.Within vis fs) (hc : ∀ x ∈ e.subterms, x.Converts → x.CanBeOwned) :
    e.type.WellOwned := by
  induction e using Expr.induct_children with
  | h e ih =>
    obtain ⟨hident, hcallee, hchildren⟩ := Expr.within_iff.1 hw
    refine h.wellOwned_step hapart (fun v hv => hvis v (hident v hv))
      (fun f hf => hfs f (hcallee f hf)) (fun c hm => ?_) (hc e (Expr.mem_subterms_self e))
    exact ih c hm (h.children c hm) (hchildren c hm) fun x hx =>
      hc x (Expr.mem_subterms_iff.2 (.inr ⟨c, hm, hx⟩))

end Typing

namespace Program

/-- All expressions of a program: those of its bodies and its initializers. -/
def exprs (p : Program) : List Expr :=
  p.functions.flatMap (fun f => f.body.exprs) ++
    p.contracts.flatMap fun c => c.stateVars.flatMap fun v =>
      (p.var v).init.toList.flatMap Expr.subterms

theorem mem_exprs_iff {p : Program} {e : Expr} : e ∈ p.exprs ↔
    (∃ f ∈ p.functions, e ∈ f.body.exprs) ∨
      ∃ c ∈ p.contracts, ∃ v ∈ c.stateVars, ∃ x ∈ (p.var v).init, e ∈ x.subterms := by
  simp only [exprs, List.mem_append, List.mem_flatMap, Option.mem_toList, Option.mem_def]

namespace Checked

variable {p : Program} {f : FunctionId}

/-- The variables that a function can mention have types that can be declared. -/
theorem wellOwned (h : p.Checked) (hf : p.Has f) {v : VarId}
    (hv : v ∈ (p.function f).body.declared ++ ((p.function f).params ++
      (p.contract (p.function f).contract).stateVars)) : (p.var v).type.WellOwned := by
  have htyped := h.types.function f hf
  rcases List.mem_append.1 hv with hv | hv
  · obtain ⟨t, ht, hd⟩ := List.mem_filterMap.1 hv
    cases t with
    | decl i w init =>
      cases hd
      exact Typing.wellOwned_of_declaredFault? (htyped.body _ ht).1
    | _ => cases hd
  · rcases List.mem_append.1 hv with hv | hv
    · exact Typing.wellOwned_of_declaredFault? (htyped.params v hv).2
    · exact Typing.wellOwned_of_declaredFault?
        (h.types.state _ (h.names.mem f hf).1 v hv).declared

/-- The expressions of a function have types that can be declared, if its conversions do. -/
theorem wellOwned_exprs (h : p.Checked) (hf : p.Has f)
    (hc : ∀ x ∈ (p.function f).body.exprs, x.Converts → x.CanBeOwned) :
    ∀ e ∈ (p.function f).body.exprs, e.type.WellOwned := by
  intro e he
  obtain ⟨t, ht, r, hr, hsub⟩ := Stmt.mem_exprs_iff.1 he
  obtain ⟨fs, n, hscoped, hfs⟩ := h.names.function f hf
  have htyped := ((h.types.function f hf).body t ht).roots r hr
  refine (htyped.subterms e hsub).wellOwned (fun b hb => h.apart f hf t ht b hb)
    (fun v hv => h.wellOwned hf hv) (fun g hg u hu => ?_)
    ((hscoped.body.within t ht r hr).subterms e hsub) fun x hx => ?_
  · exact Typing.wellOwned_of_declaredFault? ((h.types.function g (hfs g hg).1).returns u hu).2
  · exact hc x (Stmt.mem_exprs_iff.2 ⟨t, ht, r, hr, Expr.mem_subterms_trans hsub hx⟩)

/-- Every expression of a checked program is typed. Those of initializers are public. -/
theorem exists_typed (h : p.Checked) {e : Expr} (he : e ∈ p.exprs) :
    (∃ env, Typing.Typed env e) ∧ ((∃ f ∈ p.functions, e ∈ f.body.exprs) ∨
      e.type.isPrivate = false ∧ Typing.isReclassify e = false) := by
  rcases mem_exprs_iff.1 he with ⟨f, hf, hm⟩ | ⟨c, hc, v, hv, x, hx, hm⟩
  · refine ⟨?_, .inl ⟨f, hf, hm⟩⟩
    obtain ⟨g, hg, rfl⟩ := exists_function hf
    obtain ⟨t, ht, r, hr, hsub⟩ := Stmt.mem_exprs_iff.1 hm
    exact ⟨_, (((h.types.function g hg).body t ht).roots r hr).subterms e hsub⟩
  · obtain ⟨d, hd, rfl⟩ := exists_contract hc
    obtain ⟨ht, -, hpublic⟩ := (h.types.state d hd v hv).init x hx
    have htyped := ht.subterms e hm
    have hopen := List.any_eq_false.1 hpublic e hm
    rw [Bool.or_eq_true, not_or, Bool.not_eq_true, Bool.not_eq_true] at hopen
    refine ⟨⟨_, htyped⟩, .inr ⟨?_, hopen.2⟩⟩
    rw [← htyped.isPrivate_eq]
    exact hopen.1

end Checked

end Program

namespace Typing

variable {env : Env} {i : Expr.Info} {implicit : Bool}

/-- What a cast gives is private if what it takes is. -/
theorem Typed.isPrivate_cast {t : DataType} {e : Expr} (h : Typed env (.cast i t e implicit)) :
    (Expr.cast i t e implicit).type.type = t ∧ t.IsDeclarable ∧ t.isPrimitive = true ∧
      (Expr.cast i t e implicit).type.isPrivate = e.type.isPrivate := by
  cases h with
  | convert _ _ hd ht _ h =>
    rw [h.type_eq]
    exact ⟨rfl, hd, ht, rfl⟩
  | cast _ _ hd ht ho _ h =>
    rw [h.type_eq]
    refine ⟨rfl, hd, ht, ?_⟩
    rcases ho with ⟨-, rfl⟩ | ⟨hp, -, rfl⟩
    · rfl
    · rw [hp]
      rfl

theorem Typed.owner_reclassify {e : Expr} {o : Owner} (h : Typed env (.reclassify i e o implicit)) :
    (Expr.reclassify i e o implicit).type.owner = o := by
  cases h with
  | raise _ _ _ _ h | reveal _ _ _ _ _ _ _ h => rw [h.type_eq]; rfl

/-- What a private choice gives is private, and of the type of its branches. -/
theorem Typed.type_choice {c a b : Expr} (h : Typed env (.builtin i .ite [c, a, b] true)) :
    (Expr.builtin i .ite [c, a, b] true).type = .ofMe a.type.type := by
  cases h with
  | decide _ _ _ _ _ _ hta _ _ _ _ _ _ h => rw [h.type_eq, hta]
  | compute _ _ hite _ _ _ _ _ _ _ _ _ _ _ => exact (hite rfl).elim

end Typing

namespace SourceUnit

/-- The private values of a checked program are of types that can be declared private just where no
private value is cast to the widest signed type, no change of the owner makes private what cannot
be, and no private condition chooses between tuples. -/
theorem private_canBePrivate_iff {u : SourceUnit} {q : Program} (h : Passes u.check q) :
    (∀ e ∈ q.exprs, e.type.isPrivate = true → e.type.type.canBePrivate = true) ↔
      (∀ i e implicit, .cast i (.int 256) e implicit ∈ q.exprs → e.type.isPrivate = false) ∧
      (∀ i e o implicit, .reclassify i e o implicit ∈ q.exprs → o.isPrivate = true →
        (Expr.reclassify i e o implicit).type.type.canBePrivate = true) ∧
      ∀ i c a b ts, .builtin i .ite [c, a, b] true ∈ q.exprs → a.type.type ≠ .tuple ts := by
  have hq := check_checked h
  constructor
  · intro hall
    refine ⟨?_, ?_, ?_⟩
    · intro i e implicit he
      obtain ⟨⟨env, ht⟩, -⟩ := hq.exists_typed he
      obtain ⟨htype, -, -, hprivate⟩ := ht.isPrivate_cast
      rw [← hprivate, ← Bool.not_eq_true]
      intro hp
      have hcan := hall _ he hp
      rw [htype] at hcan
      cases hcan
    · intro i e o implicit he ho
      obtain ⟨⟨env, ht⟩, -⟩ := hq.exists_typed he
      refine hall _ he ?_
      rwa [OwnedType.isPrivate, ht.owner_reclassify]
    · intro i c a b ts he hts
      obtain ⟨⟨env, ht⟩, -⟩ := hq.exists_typed he
      have hcan := hall _ he (by rw [ht.type_choice]; rfl)
      rw [ht.type_choice, hts] at hcan
      cases hcan
  · rintro ⟨hcast, hreclassify, hchoice⟩
    have hconverts : ∀ e ∈ q.exprs, e.Converts → e.CanBeOwned := by
      intro e he hc hp
      obtain ⟨⟨env, ht⟩, -⟩ := hq.exists_typed he
      cases hc with
      | @cast i t x implicit =>
        obtain ⟨htype, hd, hprimitive, hprivate⟩ := ht.isPrivate_cast
        have hwide : t ≠ .int 256 := by
          rintro rfl
          rw [hprivate, hcast i x implicit he] at hp
          cases hp
        have hcan := mt (DataType.not_revealable_iff hprimitive).1 hwide
        rw [hd.isLiteral_eq] at hcan
        rw [htype]
        simpa using hcan
      | @reclassify i x o implicit =>
        rw [OwnedType.isPrivate, ht.owner_reclassify] at hp
        exact hreclassify i x o implicit he hp
      | @choice i c a b ts hts => exact (hchoice i c a b ts he hts).elim
    intro e he hp
    rcases (hq.exists_typed he).2 with ⟨f, hf, hm⟩ | ⟨hpublic, -⟩
    · obtain ⟨g, hg, rfl⟩ := Program.exists_function hf
      refine (hq.wellOwned_exprs hg (fun x hx => ?_) e hm).canBePrivate hp
      exact hconverts x (Program.mem_exprs_iff.2 (.inl ⟨_, hf, hx⟩))
    · rw [hpublic] at hp
      cases hp

/-- A private number beside a public one of the widest signed type. -/
def compared : SourceUnit := .single "Compared" [] [
  { name := "f"
    params := [
      { name := "x", type := .mk (.uint 8) .me }, { name := "y", type := .mk (.int 256) .all }]
    body := [.decl {} "z" (.mk .bool .me) false
      (some (.builtin {} .lt ["x", "y"]))] }]

theorem compared_types : (do
    let p ← (compared.check.run.run []).1
    return p.exprs.map fun e => e.type) =
      Except.ok [.ofMe .bool, .ofMe (.int 256), .ofMe (.uint 8), .ofMe (.int 256),
        .ofAll (.int 256)] := by
  decide +kernel

/-- Both operands of the comparison are private numbers of the widest signed type. -/
theorem compared_private : ∃ q, Passes compared.check q ∧ ∃ e ∈ q.exprs,
    e.type.isPrivate = true ∧ e.type.type.canBePrivate = false := by
  obtain ⟨q, hq, h⟩ := bind_eq_ok.1 compared_types
  have hmem : OwnedType.ofMe (.int 256) ∈ q.exprs.map fun e => e.type := by
    rw [Except.ok.inj h]
    simp
  obtain ⟨e, he, htype⟩ := List.mem_map.1 hmem
  refine ⟨q, .of_run hq, e, he, ?_⟩
  rw [htype]
  exact ⟨rfl, rfl⟩

theorem private_canBePrivate_iff_compared : ∃ q, Passes compared.check q ∧
    ((∀ e ∈ q.exprs, e.type.isPrivate = true → e.type.type.canBePrivate = true) ↔
      (∀ i e implicit, .cast i (.int 256) e implicit ∈ q.exprs → e.type.isPrivate = false) ∧
      (∀ i e o implicit, .reclassify i e o implicit ∈ q.exprs → o.isPrivate = true →
        (Expr.reclassify i e o implicit).type.type.canBePrivate = true) ∧
      ∀ i c a b ts, .builtin i .ite [c, a, b] true ∈ q.exprs → a.type.type ≠ .tuple ts) := by
  obtain ⟨q, hq, -⟩ := bind_eq_ok.1 compared_types
  have hpasses : Passes compared.check q := .of_run hq
  exact ⟨q, hpasses, private_canBePrivate_iff hpasses⟩

end SourceUnit

end Shroud
