import Shroud.Proofs.Checked

/-! # Flow equations

What the alias analysis leaves behind, as a relation between a checked statement and what is known
before and after it. The analysis looks at expressions before implicit conversions are put in, so
the equations look at what is left without them.
-/

namespace Shroud

variable {I : Info → Info → Prop} {R : Expr → Expr → Prop} {u : SourceUnit} {q : Program}

/-- No call in the expression changes state. -/
def Expr.IsCalm (p : Program) (e : Expr) : Prop := ∀ f ∈ e.callees, p.modified f = []

theorem Stmt.filterMap_declared? {ss ss' : List Stmt} (h : List.Forall₂ (Alike I R) ss ss') :
    ss'.filterMap declared? = ss.filterMap declared? := by
  induction h with
  | nil => rfl
  | cons hs _ ih => rw [List.filterMap_cons, List.filterMap_cons, hs.declared?_eq, ih]

theorem Stmt.Alike.scope_eq {s s' : Stmt} (h : Alike I R s s') : s'.scope = s.scope := by
  cases h with
  | block _ hb => exact filterMap_declared? hb.forall₂
  | forLoop _ hi _ _ _ => exact filterMap_declared? hi.forall₂
  | _ => rfl

namespace Alias

/-- What is left of what is known: all of it if nothing changes, and else what is known about
labels that never change. -/
inductive Drops (p : Program) (unchanged : Prop) (s : Classes) : Classes → Prop
  | fixed : Drops p unchanged s (forget p s)
  | all (h : unchanged) : Drops p unchanged s s

/-- A new variable, with the label of its value. -/
def introduce (v : VarId) (value : Option Label) (s : Classes) : Classes :=
  match value with
  | some l => (s.insert (.var v)).moveTo (.var v) l
  | none => s.insert (.var v)

/-- The statement says what is known before and after it. -/
def Says (i : Stmt.Info) (b a : Classes) : Prop := i.flow? = some ⟨b, a⟩

mutual

/-- From what is known before a statement follows what is known after it. -/
inductive Flows (p : Program) : Stmt → Classes → Classes → Prop
  | block {i : Stmt.Info} {body : List Stmt} {b c a : Classes} (h : FlowsList p body b c)
      (ha : a = dropScope (Stmt.block i body).scope c) (hi : Says i b a) :
      Flows p (.block i body) b a
  | cond {i : Stmt.Info} {c : Expr} {yes : Stmt} {no : Option Stmt} {b base y n : Classes}
      (hd : Drops p (c.IsCalm p) b base) (hy : Flows p yes (guard true c.plain base) y)
      (hn : FlowsOption p no (guard false c.plain base) n) (hi : Says i b (y.join n)) :
      Flows p (.cond i c yes no) b (y.join n)
  | loop {i : Stmt.Info} {c : Expr} {body : Stmt} {b base last : Classes}
      (hd : Drops p (i.modified = []) b base) (hb : Flows p body (guard true c.plain base) last)
      (hi : Says i b (base.join last)) : Flows p (.loop i c body) b (base.join last)
  | doLoop {i : Stmt.Info} {c : Expr} {body : Stmt} {b base last : Classes}
      (hd : Drops p (i.modified = []) b base) (hb : Flows p body base last)
      (hi : Says i b (base.join last)) : Flows p (.doLoop i body c) b (base.join last)
  | forLoop {i : Stmt.Info} {init : Option Stmt} {c : Option Expr} {update : Option Stmt}
      {body : Stmt} {b start base mid last a : Classes} (hs : FlowsOption p init b start)
      (hd : Drops p (i.modified = []) start base)
      (hb : Flows p body (guardOption (c.map Expr.plain) base) mid)
      (hu : FlowsOption p update mid last)
      (ha : a = dropScope (Stmt.forLoop i init c update body).scope (base.join last))
      (hi : Says i b a) : Flows p (.forLoop i init c update body) b a
  | decl {i : Stmt.Info} {v : VarId} {init : Option Expr} {b base : Classes}
      (hd : Drops p (∀ e ∈ init, e.IsCalm p) b base)
      (hi : Says i b (introduce v (init.bind fun e => e.plain.label?) base)) :
      Flows p (.decl i v init) b (introduce v (init.bind fun e => e.plain.label?) base)
  | assign {i : Stmt.Info} {lhs rhs : Expr} {b base : Classes}
      (hd : Drops p (lhs.IsCalm p ∧ rhs.IsCalm p) b base)
      (hi : Says i b (assign lhs.plain (some rhs.plain) base)) :
      Flows p (.assign i lhs rhs) b (assign lhs.plain (some rhs.plain) base)
  | expr {i : Stmt.Info} {e : Expr} {b a : Classes} (hd : Drops p (e.IsCalm p) b a)
      (hi : Says i b a) : Flows p (.expr i e) b a
  | require {i : Stmt.Info} {c : Expr} {b base : Classes} (hd : Drops p (c.IsCalm p) b base)
      (hi : Says i b (guard true c.plain base)) :
      Flows p (.require i c) b (guard true c.plain base)
  | ret {i : Stmt.Info} {e : Option Expr} {b : Classes} (hi : Says i b b) :
      Flows p (.ret i e) b b
  | leave {i : Stmt.Info} {b : Classes} (hi : Says i b b) : Flows p (.leave i) b b
  | next {i : Stmt.Info} {b : Classes} (hi : Says i b b) : Flows p (.next i) b b

inductive FlowsList (p : Program) : List Stmt → Classes → Classes → Prop
  | nil {b : Classes} : FlowsList p [] b b
  | cons {s : Stmt} {ss : List Stmt} {b c a : Classes} (h : Flows p s b c)
      (hs : FlowsList p ss c a) : FlowsList p (s :: ss) b a

inductive FlowsOption (p : Program) : Option Stmt → Classes → Classes → Prop
  | none {b : Classes} : FlowsOption p none b b
  | some {s : Stmt} {b a : Classes} (h : Flows p s b a) : FlowsOption p (some s) b a

end

theorem Flows.recorded {p : Program} {s : Stmt} {b a : Classes} (h : Flows p s b a) :
    s.info.flow? = some ⟨b, a⟩ := by
  cases h <;> assumption

/-! ## What the equations keep -/

section

variable {p : Program} {I : Classes → Prop} {s t : Classes} {v w : VarId} {l : Option Label}

theorem Drops.keeps (hI : Invariant p I) {P : Prop} (h : Drops p P s t) (hs : I s) : I t := by
  cases h with
  | fixed => exact hI.forget hs
  | all _ => exact hs

theorem Invariant.introduce (hI : Invariant p I) (hl : ∀ x ∈ l, x ≠ .all) (hs : I s) :
    I (introduce v l s) := by
  cases l with
  | none => exact hI.insert v hs
  | some x => exact hI.moveTo v (hl x rfl) (hI.insert v hs)

mutual

/-- What the operations of the analysis keep is kept by the flow. -/
theorem Flows.keeps (hI : Invariant p I) : ∀ {s : Stmt} {b a : Classes}, Flows p s b a → I b → I a
  | _, _, _, .block h rfl _, hb => hI.dropScope _ (FlowsList.keeps hI h hb)
  | _, _, _, .cond hd hy hn _, hb =>
    hI.join (Flows.keeps hI hy (hI.guard _ _ (hd.keeps hI hb)))
      (FlowsOption.keeps hI hn (hI.guard _ _ (hd.keeps hI hb)))
  | _, _, _, .loop hd h _, hb =>
    hI.join (hd.keeps hI hb) (Flows.keeps hI h (hI.guard _ _ (hd.keeps hI hb)))
  | _, _, _, .doLoop hd h _, hb => hI.join (hd.keeps hI hb) (Flows.keeps hI h (hd.keeps hI hb))
  | _, _, _, .forLoop hs hd h hu rfl _, hb =>
    have hbase := hd.keeps hI (FlowsOption.keeps hI hs hb)
    hI.dropScope _ (hI.join hbase
      (FlowsOption.keeps hI hu (Flows.keeps hI h (hI.guardOption _ hbase))))
  | _, _, _, .decl hd _, hb => by
    refine hI.introduce (fun x hx => ?_) (hd.keeps hI hb)
    obtain ⟨e, -, he⟩ := Option.bind_eq_some_iff.1 hx
    exact label?_ne_all he
  | _, _, _, .assign hd _, hb => hI.assign _ _ (hd.keeps hI hb)
  | _, _, _, .expr hd _, hb => hd.keeps hI hb
  | _, _, _, .require hd _, hb => hI.guard _ _ (hd.keeps hI hb)
  | _, _, _, .ret _, hb | _, _, _, .leave _, hb | _, _, _, .next _, hb => hb

theorem FlowsList.keeps (hI : Invariant p I) : ∀ {ss : List Stmt} {b a : Classes},
    FlowsList p ss b a → I b → I a
  | _, _, _, .nil, hb => hb
  | _, _, _, .cons h hs, hb => FlowsList.keeps hI hs (Flows.keeps hI h hb)

theorem FlowsOption.keeps (hI : Invariant p I) : ∀ {o : Option Stmt} {b a : Classes},
    FlowsOption p o b a → I b → I a
  | _, _, _, .none, hb => hb
  | _, _, _, .some h, hb => Flows.keeps hI h hb

end

theorem FlowsList.append {ss ts : List Stmt} {b a : Classes} (h : FlowsList p (ss ++ ts) b a) :
    ∃ c, FlowsList p ss b c ∧ FlowsList p ts c a := by
  induction ss generalizing b with
  | nil => exact ⟨b, .nil, h⟩
  | cons s ss ih =>
    cases h with
    | cons hs h =>
      obtain ⟨c, hss, hts⟩ := ih h
      exact ⟨c, .cons hs hss, hts⟩

/-! ## Listed variables -/

/-- The variable is in some class. -/
def Lists (s : Classes) (v : VarId) : Prop := s.Related (.var v) (.var v)

theorem Drops.related {P : Prop} (h : Drops p P s t) {x y : Label} (hxy : t.Related x y) :
    s.Related x y := by
  cases h with
  | fixed => exact (Partition.related_separate_iff.1 hxy).1
  | all _ => exact hxy

/-- Tests list no new variable. -/
theorem lists_of_guard {holds : Bool} {e : Expr} (h : Lists (guard holds e s) v) : Lists s v := by
  have hclosed : MergeClosed (fun _ => True) fun t => Lists t v → Lists s v := by
    intro t l m _ _ _ _ ht h
    rcases h.of_merge with h | ⟨h, -⟩ | ⟨h, -⟩
    · exact ht h
    · exact ht h.left
    · exact ht h.left
  exact hclosed.guard holds e (fun _ _ => trivial) id h

theorem lists_of_introduce (hs : s.Valid) (h : Lists (introduce v l s) w) : Lists s w ∨ w = v := by
  have hinsert : Lists (s.insert (.var v)) w → Lists s w ∨ w = v := fun h =>
    (Partition.related_insert_iff.1 h).imp_right fun heq => Label.var.inj heq.1
  cases l with
  | none => exact hinsert h
  | some x =>
    rcases (Partition.related_moveTo_iff hs.insert).1 h with ⟨h, -⟩ | ⟨heq, -⟩ | ⟨heq, -⟩
    · exact hinsert h
    · exact .inr (Label.var.inj heq)
    · exact .inr (Label.var.inj heq)

theorem lists_of_assignLabel (hs : s.Valid) (h : Lists (assignLabel v l s) w) :
    Lists s w ∨ w = v := by
  cases l with
  | none =>
    exact ((Partition.related_moveApart_iff hs).1 h).imp And.left fun heq => Label.var.inj heq.1
  | some x =>
    simp only [assignLabel] at h
    split at h
    · exact .inl h
    rcases (Partition.related_moveTo_iff hs).1 h with ⟨h, -⟩ | ⟨heq, -⟩ | ⟨heq, -⟩
    · exact .inl h
    · exact .inr (Label.var.inj heq)
    · exact .inr (Label.var.inj heq)

theorem related_of_dropScope {vs : List VarId} {x y : Label} (hs : s.Valid)
    (h : (dropScope vs s).Related x y) : s.Related x y := by
  induction vs generalizing s with
  | nil => exact h
  | cons v vs ih => exact ((Partition.related_remove_iff hs).1 (ih hs.remove h)).1

end

/-! ## The equations hold -/

section

variable {p q : Program}

theorem drops_forgetIf (hfixed : isFixed q = isFixed p) {w : Bool} {P : Prop}
    (h : w = false → P) (s : Classes) : Drops q P s (forgetIf p w s) := by
  cases w with
  | false => exact .all (h rfl)
  | true =>
    have hforget : forgetIf p true s = forget q s := by rw [forget, hfixed]; rfl
    rw [hforget]
    exact .fixed

theorem modified_of_stmtWrites (s : Stmt) (h : p.stmtWrites s = false) : s.info.modified = [] := by
  simp only [Program.stmtWrites, Bool.or_eq_false_iff, Bool.not_eq_eq_eq_not, Bool.not_false,
    List.isEmpty_iff] at h
  exact h.1

/-- Functions without effects change no state. -/
def EffectsIn (p q : Program) : Prop :=
  ∀ f, (p.function f).facts.hasEffects = false → q.modified f = []

theorem EffectsIn.isCalm (hcalm : EffectsIn p q) {e e' : Expr} (h : p.exprHasEffects e = false)
    (he : e'.plain = e.plain) : e'.IsCalm q := by
  intro f hf
  rw [← Expr.callees_plain, he, Expr.callees_plain] at hf
  rw [Program.exprHasEffects, List.any_eq_false] at h
  exact hcalm f (by simpa using h f hf)

/-- A written expression is what is left of its checked form. -/
theorem map_plain_eq {o o' : Option Expr} (hw : Option.Rel (fun e _ => e.Written) o o)
    (h : Option.Rel (fun e e' => e'.plain = e.plain) o o') : o'.map Expr.plain = o := by
  cases h with
  | none => rfl
  | some h =>
    cases hw with
    | some hw => exact congrArg some (h.trans hw.plain_eq)

mutual

/-- What the analysis leaves behind obeys the flow equations. -/
theorem flows_of_alike (hfixed : isFixed q = isFixed p) (hcalm : EffectsIn p q) :
    ∀ {s s' : Stmt} {b : Classes}, s.Written →
    Stmt.Alike Eq (fun e e' => e'.plain = e.plain) (stmt p s b).1 s' → Flows q s' b (stmt p s b).2
  | .block i body, _, b, .block _ hw, h => by
    have hscope := h.scope_eq.trans (stmt_alike (.block i body) b).scope_eq
    cases h with
    | block hinfo hbody =>
      subst hinfo
      exact .block (flowsList_of_alike hfixed hcalm hw hbody)
        (congrArg (dropScope · _) hscope.symm) rfl
  | .cond i c yes no, _, b, .cond _ hwc hwy hwn, .cond rfl hc hy hn => by
    obtain rfl := hc.trans hwc.plain_eq
    exact .cond (drops_forgetIf hfixed (fun h => hcalm.isCalm h hc) b)
      (flows_of_alike hfixed hcalm hwy hy) (flowsOption_of_alike hfixed hcalm hwn hn) rfl
  | .loop i c body, _, b, .loop _ hwc hwb, .loop rfl hc hb => by
    obtain rfl := hc.trans hwc.plain_eq
    exact .loop (drops_forgetIf hfixed (modified_of_stmtWrites (.loop i _ body)) b)
      (flows_of_alike hfixed hcalm hwb hb) rfl
  | .doLoop i body c, _, b, .doLoop _ hwb _, .doLoop rfl hb _ =>
    .doLoop (drops_forgetIf hfixed (modified_of_stmtWrites (.doLoop i body c)) b)
      (flows_of_alike hfixed hcalm hwb hb) rfl
  | .forLoop i init c update body, _, b, .forLoop _ hwi hwc hwu hwb, h => by
    have hscope := h.scope_eq.trans (stmt_alike (.forLoop i init c update body) b).scope_eq
    cases h with
    | forLoop hinfo hi hc hu hb =>
      subst hinfo
      obtain rfl := map_plain_eq hwc hc
      exact .forLoop (flowsOption_of_alike hfixed hcalm hwi hi)
        (drops_forgetIf hfixed (modified_of_stmtWrites (.forLoop i init _ update body)) _)
        (flows_of_alike hfixed hcalm hwb hb) (flowsOption_of_alike hfixed hcalm hwu hu)
        (congrArg (dropScope · _) hscope.symm) rfl
  | .decl _ _ none, _, _, _, .decl rfl .none => .decl (.all nofun) rfl
  | .decl _ _ (some e), _, b, .decl _ (.some hw), .decl rfl (.some h) => by
    obtain rfl := h.trans hw.plain_eq
    refine .decl (drops_forgetIf hfixed (fun he => ?_) b) rfl
    rintro _ ⟨⟩
    exact hcalm.isCalm he h
  | .assign i lhs rhs, _, b, .assign _ hwl hwr, .assign rfl hl hr => by
    obtain rfl := hl.trans hwl.plain_eq
    obtain rfl := hr.trans hwr.plain_eq
    refine .assign (drops_forgetIf hfixed (fun h => ?_) b) rfl
    rw [Bool.or_eq_false_iff] at h
    exact ⟨hcalm.isCalm h.1 hl, hcalm.isCalm h.2 hr⟩
  | .expr i e, _, b, _, .expr rfl he =>
    .expr (drops_forgetIf hfixed (fun h => hcalm.isCalm h he) b) rfl
  | .require i c, _, b, .require _ hw, .require rfl hc => by
    obtain rfl := hc.trans hw.plain_eq
    exact .require (drops_forgetIf hfixed (fun h => hcalm.isCalm h hc) b) rfl
  | .ret _ _, _, _, _, .ret rfl _ => .ret rfl
  | .leave _, _, _, _, .leave rfl => .leave rfl
  | .next _, _, _, _, .next rfl => .next rfl

theorem flowsList_of_alike (hfixed : isFixed q = isFixed p) (hcalm : EffectsIn p q) :
    ∀ {ss ss' : List Stmt} {b : Classes},
    Stmt.AlikeList (fun _ _ => True) (fun e _ => e.Written) ss ss →
    Stmt.AlikeList Eq (fun e e' => e'.plain = e.plain) (stmts p ss b).1 ss' →
    FlowsList q ss' b (stmts p ss b).2
  | [], _, _, _, .nil => .nil
  | _ :: _, _, _, .cons hw hws, .cons h hs =>
    .cons (flows_of_alike hfixed hcalm hw h) (flowsList_of_alike hfixed hcalm hws hs)

theorem flowsOption_of_alike (hfixed : isFixed q = isFixed p) (hcalm : EffectsIn p q) :
    ∀ {o o' : Option Stmt} {b : Classes},
    Stmt.AlikeOption (fun _ _ => True) (fun e _ => e.Written) o o →
    Stmt.AlikeOption Eq (fun e e' => e'.plain = e.plain) (stmtOption p o b).1 o' →
    FlowsOption q o' b (stmtOption p o b).2
  | none, _, _, _, .none => .none
  | some _, _, _, .some hw, .some h => .some (flows_of_alike hfixed hcalm hw h)

end

end

end Alias

/-- Functions of a checked program that have no effects change no state. -/
theorem SourceUnit.check_effects (h : Passes u.check q) : Alias.EffectsIn q q := by
  obtain ⟨p, -, hp, -⟩ := check_stages h
  intro f hf
  obtain ⟨hmodified, heffects⟩ := (check_annotated hp h).2 f
  exact hmodified.trans (Effects.modified_of_hasEffects (heffects ▸ hf))

/-- The statements of a checked program obey the flow equations, and when a function starts nothing
is known to be equal. -/
theorem SourceUnit.check_flows (h : Passes u.check q) {f : FunctionId} (hf : q.Has f) :
    ∃ a, Alias.Flows q (q.function f).body (Alias.initial q (q.function f)) a := by
  obtain ⟨p, -, hp, -⟩ := check_stages h
  obtain ⟨hplaced, hfacts⟩ := check_annotated hp h
  have heffects := Effects.withEffects_alike p
  have haliases := Program.withAliases_alike p.withEffects
  rw [hplaced.has, haliases.has] at hf
  have hfixed : Alias.isFixed q = Alias.isFixed p.withEffects := by
    funext l
    cases l with
    | var v => exact (hplaced.isFixed_eq v).trans (haliases.isFixed_eq v)
    | me | all => rfl
  have hcalm : Alias.EffectsIn p.withEffects q := fun f hf =>
    (hfacts f).1.trans (Effects.modified_of_hasEffects hf)
  have hinitial : Alias.initial q (q.function f) =
      Alias.initial p.withEffects (p.withEffects.function f) := by
    rw [Alias.initial, hplaced.contract_eq, hplaced.function f, haliases.contract_eq,
      haliases.function f, Alias.initial]
  have hbody := hplaced.body f (by rwa [haliases.length])
  rw [Program.withAliases, Program.function_mapFunctions hf] at hbody
  rw [hinitial]
  exact ⟨_, Alias.flows_of_alike hfixed hcalm
    ((resolve_written hp).congr heffects _ (Program.function_mem hf)) hbody⟩

end Shroud
