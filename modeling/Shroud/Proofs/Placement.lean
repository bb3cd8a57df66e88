import Shroud.Proofs.Typing.Program

/-! # Placed programs

Placement marks what runs inside circuits and changes nothing else: a placed program has the
statements and types that it had before.
-/

namespace Shroud

/-! ## Expressions without marks -/

namespace Expr

variable {e' e : Expr} {es' es : List Expr}

def Info.unmarked (i : Info) : Info := { i with inCircuit := false }

mutual

/-- The expression before placement. -/
def unmarked : Expr → Expr
  | .bool i b => .bool i.unmarked b
  | .number i n => .number i.unmarked n
  | .me i => .me i.unmarked
  | .ident i v => .ident i.unmarked v
  | .builtin i op args b => .builtin i.unmarked op (unmarkedList args) b
  | .call i f args => .call i.unmarked f (unmarkedList args)
  | .index i base idx => .index i.unmarked base.unmarked idx.unmarked
  | .reclassify i e o implicit => .reclassify i.unmarked e.unmarked o implicit
  | .cast i t e implicit => .cast i.unmarked t e.unmarked implicit
  | .tuple i es => .tuple i.unmarked (unmarkedList es)

def unmarkedList : List Expr → List Expr
  | [] => []
  | e :: es => e.unmarked :: unmarkedList es

end

/-- The same expression up to marks. -/
def Marked (e e' : Expr) : Prop := e'.unmarked = e.unmarked

theorem Marked.refl (e : Expr) : Marked e e := rfl

theorem Marked.trans {a b c : Expr} (h : Marked a b) (h' : Marked b c) : Marked a c :=
  Eq.trans h' h

theorem unmarkedList_eq_map (es : List Expr) : unmarkedList es = es.map unmarked := by
  induction es with
  | nil => rfl
  | cons e es ih => rw [unmarkedList, ih, List.map_cons]

theorem info_unmarked (e : Expr) : e.unmarked.info = e.info.unmarked := by
  cases e <;> rfl

@[simp] theorem plain_unmarked (e : Expr) : e.unmarked.plain = e.plain := by
  have hlist : ∀ es : List Expr, (∀ e ∈ es, e.unmarked.plain = e.plain) →
      plainList (unmarkedList es) = plainList es := by
    intro es h
    rw [plainList_eq_map, plainList_eq_map, unmarkedList_eq_map, List.map_map]
    exact List.map_congr_left h
  induction e using Expr.induct with
  | builtin i op args b ih | call i f args ih => simp only [unmarked, plain, hlist args ih]; rfl
  | tuple i es ih => simp only [unmarked, plain, hlist es ih]; rfl
  | index i base idx hb hi => simp only [unmarked, plain, hb, hi]; rfl
  | reclassify i e o b ih | cast i t e b ih => simp only [unmarked, plain, ih]; rfl
  | _ => rfl

theorem Marked.type?_eq (h : Marked e e') : e'.info.type? = e.info.type? := by
  have hi : e'.info.unmarked = e.info.unmarked := by
    rw [← info_unmarked, ← info_unmarked, h]
  exact (congrArg Info.type? hi :)

theorem Marked.hasType {t : OwnedType} (h : Marked e e') (ht : e.HasType t) : e'.HasType t :=
  h.type?_eq.trans ht

theorem Marked.type_eq (h : Marked e e') : e'.type = e.type := by
  rw [type, type, h.type?_eq]

theorem Marked.isPrivate_eq (h : Marked e e') : e'.isPrivate = e.isPrivate := by
  rw [isPrivate, isPrivate, h.type?_eq]

theorem Marked.plain_eq (h : Marked e e') : e'.plain = e.plain := by
  rw [← plain_unmarked, h, plain_unmarked]

attribute [local simp] Marked unmarked

theorem Marked.label?_eq (h : Marked e e') : e'.label? = e.label? := by
  cases e' <;> cases e <;> simp_all [label?]

theorem forall₂_marked (h : unmarkedList es' = unmarkedList es) : List.Forall₂ Marked es es' := by
  induction es generalizing es' with
  | nil =>
    cases es' with
    | nil => exact .nil
    | cons e es => cases h
  | cons e es ih =>
    cases es' with
    | nil => cases h
    | cons e' es' =>
      injection h with he hes
      exact .cons he (ih hes)

theorem map_type_marked (h : List.Forall₂ Marked es es') : es'.map type = es.map type := by
  induction h with
  | nil => rfl
  | cons he _ ih => rw [List.map_cons, List.map_cons, he.type_eq, ih]

/-- What all types in a list have in common does not depend on the marks. -/
theorem forall_type (h : es'.map type = es.map type) {P : OwnedType → Prop}
    (hes : ∀ e ∈ es, P e.type) : ∀ e ∈ es', P e.type := by
  intro e he
  obtain ⟨e₀, he₀, heq⟩ := List.mem_map.1 (h ▸ List.mem_map_of_mem he : e.type ∈ es.map type)
  exact heq ▸ hes e₀ he₀

/-! Marked expressions have the same form. -/

section Inversion

variable {e e' : Expr} {i : Info} {b : Bool} {args : List Expr}

theorem Marked.bool (h : Marked (.bool i b) e') : ∃ i', e' = .bool i' b := by
  cases e' <;> simp_all

theorem Marked.number {n : Int} (h : Marked (.number i n) e') : ∃ i', e' = .number i' n := by
  cases e' <;> simp_all

theorem Marked.me (h : Marked (.me i) e') : ∃ i', e' = .me i' := by
  cases e' <;> simp_all

theorem Marked.ident {v : VarId} (h : Marked (.ident i v) e') : ∃ i', e' = .ident i' v := by
  cases e' <;> simp_all

theorem Marked.builtin {op : Operator} (h : Marked (.builtin i op args b) e') :
    ∃ i' args', e' = .builtin i' op args' b ∧ List.Forall₂ Marked args args' := by
  cases e' with
  | builtin i' op' args' b' =>
    injection h with _ hop hargs hb
    exact ⟨i', args', by rw [hop, hb], forall₂_marked hargs⟩
  | _ => cases h

theorem Marked.call {f : FunctionId} (h : Marked (.call i f args) e') :
    ∃ i' args', e' = .call i' f args' ∧ List.Forall₂ Marked args args' := by
  cases e' with
  | call i' f' args' =>
    injection h with _ hf hargs
    exact ⟨i', args', by rw [hf], forall₂_marked hargs⟩
  | _ => cases h

theorem Marked.tuple (h : Marked (.tuple i es) e') :
    ∃ i' es', e' = .tuple i' es' ∧ List.Forall₂ Marked es es' := by
  cases e' with
  | tuple i' es' =>
    injection h with _ hes
    exact ⟨i', es', rfl, forall₂_marked hes⟩
  | _ => cases h

theorem Marked.index {base idx : Expr} (h : Marked (.index i base idx) e') :
    ∃ i' base' idx', e' = .index i' base' idx' ∧ Marked base base' ∧ Marked idx idx' := by
  cases e' with
  | index i' base' idx' =>
    injection h with _ hb hi
    exact ⟨i', base', idx', rfl, hb, hi⟩
  | _ => cases h

theorem Marked.reclassify {o : Owner} (h : Marked (.reclassify i e o b) e') :
    ∃ i' x, e' = .reclassify i' x o b ∧ Marked e x := by
  cases e' with
  | reclassify i' x o' b' =>
    injection h with _ hx ho hb
    exact ⟨i', x, by rw [ho, hb], hx⟩
  | _ => cases h

theorem Marked.cast {t : DataType} (h : Marked (.cast i t e b) e') :
    ∃ i' x, e' = .cast i' t x b ∧ Marked e x := by
  cases e' with
  | cast i' t' x b' =>
    injection h with _ ht hx hb
    exact ⟨i', x, by rw [ht, hb], hx⟩
  | _ => cases h

end Inversion

end Expr

namespace Typing

variable {env : Env} {es' es : List Expr} {e' e : Expr} {p : Program}

open Expr

theorem typed_of_marked (h : List.Forall₂ Marked es es')
    (hes : ∀ e ∈ es, ∀ e', Marked e e' → Typed env e') : ∀ e' ∈ es', Typed env e' := by
  intro e' he'
  obtain ⟨e, he, hm⟩ := h.exists_left he'
  exact hes e he e' hm

theorem map_type_converted {op : Operator} (h : es'.map Expr.type = es.map Expr.type) :
    (converted op es').map Expr.type = (converted op es).map Expr.type := by
  unfold converted
  split
  · rw [List.map_take, h, List.map_take]
  · exact h

theorem stands_zip_marked {ps : List VarId} (h : List.Forall₂ Marked es es')
    (hs : ∀ q ∈ es.zip ps, Stands env q.1.type (env.program.var q.2).type) :
    ∀ q ∈ es'.zip ps, Stands env q.1.type (env.program.var q.2).type := by
  induction h generalizing ps with
  | nil => exact hs
  | cons he _ ih =>
    cases ps with
    | nil => exact nofun
    | cons p ps =>
      rw [List.zip_cons_cons, List.forall_mem_cons] at hs ⊢
      exact ⟨by rw [he.type_eq]; exact hs.1, ih hs.2⟩

/-- Marks do not change types. -/
theorem Typed.marked (h : Typed env e) (he : Marked e e') : Typed env e' := by
  induction h generalizing e' with
  | bool h =>
    obtain ⟨i, rfl⟩ := he.bool
    exact .bool (he.hasType h)
  | number hn h =>
    obtain ⟨i, rfl⟩ := he.number
    exact .number hn (he.hasType h)
  | me h =>
    obtain ⟨i, rfl⟩ := he.me
    exact .me (he.hasType h)
  | ident h =>
    obtain ⟨i, rfl⟩ := he.ident
    exact .ident (he.hasType h)
  | tuple _ h ih =>
    obtain ⟨i, es, rfl, hes⟩ := he.tuple
    refine .tuple (typed_of_marked hes fun e hm e' => ih e hm) ?_
    rw [map_type_marked hes]
    exact he.hasType h
  | entry _ _ ht hk hu h ihb ihi =>
    obtain ⟨i, base, idx, rfl, hbase, hidx⟩ := he.index
    refine .entry (ihb hbase) (ihi hidx) (by rwa [hbase.type_eq]) (by rwa [hidx.type_eq]) ?_
      (he.hasType h)
    rwa [hidx.label?_eq]
  | element _ _ ht hn hp h ihb ihi =>
    obtain ⟨i, base, idx, rfl, hbase, hidx⟩ := he.index
    exact .element (ihb hbase) (ihi hidx) (by rwa [hbase.type_eq]) (by rwa [hidx.type_eq])
      (by rwa [hidx.type_eq]) (he.hasType h)
  | @call _ f args _ hs h ih =>
    obtain ⟨i, args', rfl, hargs⟩ := he.call
    exact .call (typed_of_marked hargs fun e hm e' => ih e hm) (stands_zip_marked hargs hs)
      (he.hasType h)
  | raise _ hp hl ho h ih =>
    obtain ⟨i, x, rfl, hx⟩ := he.reclassify
    refine .raise (ih hx) (by rwa [hx.type_eq]) (by rwa [hx.type_eq]) ho ?_
    rw [hx.type_eq]
    exact he.hasType h
  | reveal _ hp ha hl ht hf hn h ih =>
    obtain ⟨i, x, rfl, hx⟩ := he.reclassify
    exact .reveal (ih hx) (by rwa [hx.type_eq]) (by rwa [hx.type_eq]) hl (by rwa [hx.type_eq]) hf
      (by rwa [hx.type_eq]) (he.hasType h)
  | convert _ hp hd ht hc h ih =>
    obtain ⟨i, x, rfl, hx⟩ := he.cast
    refine .convert (ih hx) (by rwa [hx.type_eq]) hd ht (by rwa [hx.type_eq]) ?_
    rw [hx.type_eq]
    exact he.hasType h
  | cast _ hp hd ht ho hr h ih =>
    obtain ⟨i, x, rfl, hx⟩ := he.cast
    exact .cast (ih hx) (by rwa [hx.type_eq]) hd ht (by rwa [hx.type_eq]) (by rwa [hx.type_eq])
      (he.hasType h)
  | paren _ h ih =>
    obtain ⟨i, args, rfl, hargs⟩ := he.builtin
    refine .paren (typed_of_marked hargs fun e hm e' => ih e hm) ?_
    have ht := he.hasType h
    cases hargs with
    | nil => exact ht
    | cons hx _ =>
      rw [List.headD_cons, hx.type_eq]
      exact ht
  | @fold _ op _ _ _ hop hl hs hc hf h ih =>
    obtain ⟨i, args, rfl, hargs⟩ := he.builtin
    have hmap := map_type_marked hargs
    refine .fold (typed_of_marked hargs fun e hm e' => ih e hm) hop
      (forall_type hmap (P := fun t => t.type.isLiteral = true) hl)
      (forall_type hmap (P := fun t => suits op t.type = true) hs) ?_ ?_ (he.hasType h)
    · rcases hargs with _ | ⟨hx, _⟩
      · exact hc
      · simpa only [List.headD_cons, hx.type_eq] using hc
    have hlit : ∀ es : List Expr, es.map (fun a => literalOf a.type.type) =
        (es.map Expr.type).map fun t => literalOf t.type := fun es => by simp
    rwa [hlit, hmap, ← hlit]
  | choose _ _ _ hp hbool hd hl hta htb ho hsa hsb h ihc iha ihb =>
    obtain ⟨i, args, rfl, hargs⟩ := he.builtin
    rcases hargs with _ | ⟨hc, _ | ⟨ha, _ | ⟨hb, _ | _⟩⟩⟩
    exact .choose (ihc hc) (iha ha) (ihb hb) (by rwa [hc.type_eq]) (by rwa [hc.type_eq]) hd hl
      (by rwa [ha.type_eq]) (by rwa [hb.type_eq]) (by rwa [ha.type_eq, hb.type_eq])
      (by rwa [ha.type_eq]) (by rwa [hb.type_eq]) (he.hasType h)
  | decide _ _ _ hp hd hl hta htb haa hab hsc hsa hsb h ihc iha ihb =>
    obtain ⟨i, args, rfl, hargs⟩ := he.builtin
    rcases hargs with _ | ⟨hc, _ | ⟨ha, _ | ⟨hb, _ | _⟩⟩⟩
    exact .decide (ihc hc) (iha ha) (ihb hb) (by rwa [hc.type_eq]) hd hl (by rwa [ha.type_eq])
      (by rwa [hb.type_eq]) (by rwa [ha.type_eq]) (by rwa [hb.type_eq]) (by rwa [hc.type_eq])
      (by rwa [ha.type_eq]) (by rwa [hb.type_eq]) (he.hasType h)
  | @operate _ op _ _ _ hop hite hp hne hsuit hd ht hs h ih =>
    obtain ⟨i, args, rfl, hargs⟩ := he.builtin
    have hmap := map_type_marked hargs
    refine .operate (typed_of_marked hargs fun e hm e' => ih e hm) hop hite
      (forall_type hmap (P := fun t => t.isPrivate = false ∧ t.type.isPrimitive = true) hp)
      (by rintro rfl; cases hargs; exact hne rfl)
      (forall_type hmap (P := fun t => suits op t.type = true) hsuit) hd ht
      (forall_type (map_type_converted hmap) (P := fun u => u.type = _) hs) (he.hasType h)
  | @compute _ op _ _ _ hop hite hp hx hacc hsuit hwide henc hd ht hs hn h ih =>
    obtain ⟨i, args, rfl, hargs⟩ := he.builtin
    have hmap := map_type_marked hargs
    refine .compute (typed_of_marked hargs fun e hm e' => ih e hm) hop hite
      (forall_type hmap (P := fun t => t.type.isPrimitive = true) hp) ?_
      (forall_type hmap (P := fun t => env.isAccessible t = true) hacc)
      (forall_type hmap (P := fun t => suits op t.type = true) hsuit) hwide henc hd ht
      (forall_type (map_type_converted hmap) (P := fun u => Stands env u _) hs) ?_ (he.hasType h)
    · obtain ⟨e, he, hpriv⟩ := hx
      obtain ⟨e', he', hm⟩ := hargs.exists_right he
      exact ⟨e', he', by rwa [hm.type_eq]⟩
    · rcases hargs with _ | ⟨_, _ | ⟨hamount, _⟩⟩
      · exact hn
      · exact hn
      · simpa only [List.getD_cons_succ, List.getD_cons_zero, hamount.type_eq] using hn

theorem InPlaceAll.marked (hes : List.Forall₂ Marked es es')
    (h : ∀ e ∈ es, ∀ e' t, Marked e e' → InPlace env e t → InPlace env e' t) :
    ∀ {ts : List OwnedType}, InPlaceAll env es ts → InPlaceAll env es' ts := by
  induction hes with
  | nil => exact id
  | cons he _ ih =>
    intro ts hts
    cases ts with
    | nil => exact hts
    | cons t ts =>
      exact ⟨h _ (by simp) _ t he hts.1, ih (fun e hm => h e (by simp [hm])) hts.2⟩

theorem InPlace.marked {t : OwnedType} (h : InPlace env e t) (he : Marked e e') :
    InPlace env e' t := by
  induction e using Expr.induct_children generalizing e' t with
  | h e ih =>
    have htuple : ∀ i es ts o, e = .tuple i es → t = .mk (.tuple ts) o → InPlace env e' t := by
      rintro i es ts o rfl rfl
      obtain ⟨i', es', rfl, hes⟩ := he.tuple
      exact InPlaceAll.marked hes (fun e hm e' t hee' hi => ih e hm hi hee') h
    rcases coerce_cases e t with ⟨i, es, ts, o, he', ht⟩ | hplain
    · exact htuple i es ts o he' ht
    · rcases coerce_cases e' t with ⟨i', es', ts, o, rfl, ht⟩ | hplain'
      · obtain ⟨i, es, he', -⟩ := Marked.tuple (Eq.symm he)
        exact htuple i es ts o he' ht
      · rw [(hplain' env).2, he.type_eq]
        exact (hplain env).2.1 h

theorem IsTarget.marked (h : IsTarget p e) (he : Marked e e') : IsTarget p e' := by
  induction h generalizing e' with
  | ident hc =>
    obtain ⟨i, rfl⟩ := he.ident
    exact .ident hc
  | index _ ih =>
    obtain ⟨i, base, idx, rfl, hb, -⟩ := he.index
    exact .index (ih hb)
  | tuple _ ih =>
    obtain ⟨i, es, rfl, hes⟩ := he.tuple
    refine .tuple fun e' he' => ?_
    obtain ⟨e, hmem, hm⟩ := hes.exists_left he'
    exact ih e hmem hm

theorem Obeys.marked {s s' : Stmt} (h : Obeys env s) (hs : Stmt.Alike Eq Marked s s') :
    Obeys env s' := by
  have hopen : ∀ {c c' : Expr}, Marked c c' → Open env c → Open env c' := fun hm hc =>
    ⟨hc.1.marked hm, by rw [hm.type_eq]; exact hc.2⟩
  have hstands : ∀ {e e' : Expr} {t : OwnedType}, Marked e e' →
      Typed env e ∧ Stands env e.type t → Typed env e' ∧ Stands env e'.type t := fun hm he =>
    ⟨he.1.marked hm, by rw [hm.type_eq]; exact he.2⟩
  cases hs with
  | cond _ hc _ _ =>
    refine ⟨h.1.marked hc, ?_⟩
    rw [hc.type_eq]
    exact h.2
  | loop _ hc _ | doLoop _ _ hc | require _ hc => exact hopen hc h
  | forLoop _ _ hc _ _ =>
    cases hc with
    | none => rintro _ ⟨⟩
    | some hc =>
      rintro _ ⟨⟩
      exact hopen hc (h _ rfl)
  | decl _ hi =>
    refine ⟨h.1, ?_⟩
    cases hi with
    | none => rintro _ ⟨⟩
    | some hi =>
      rintro _ ⟨⟩
      exact hstands hi (h.2 _ rfl)
  | assign _ hl hr =>
    obtain ⟨h₁, h₂, h₃, h₄, h₅⟩ := h
    refine ⟨h₁.marked hl, h₂.marked hl, ?_⟩
    rw [hl.type_eq, hr.type_eq]
    exact ⟨h₃.marked hr, h₄, h₅.marked hr⟩
  | expr _ he => exact Typed.marked h he
  | ret _ he =>
    cases he with
    | none => exact ⟨h.1, by rintro _ ⟨⟩⟩
    | some he =>
      refine ⟨by simpa using h.1, ?_⟩
      rintro _ ⟨⟩
      obtain ⟨h₁, h₂, h₃⟩ := h.2 _ rfl
      rw [he.type_eq]
      exact ⟨h₁.marked he, h₂, h₃.marked he⟩
  | block _ _ | leave _ | next _ => trivial

/-- Marks do not change what is typed. -/
theorem WellTyped.marked {q : Program} (hp : WellTyped p) (h : Program.Alike Eq Marked p q)
    (hvars : q.vars = p.vars) : WellTyped q where
  state c hc v hv := by
    rw [h.contracts] at hc
    rw [h.contract_eq] at hv
    refine (hp.state c hc v hv).congr h ?_
    rw [Program.var, hvars, Program.var]
  function f hf := by
    rw [h.length] at hf
    obtain ⟨hparams, hreturns, hbody⟩ := hp.function f hf
    refine ⟨fun v hv => ?_, fun t ht => ?_, fun t' ht' => ?_⟩
    · rw [h.params_eq] at hv
      rw [h.type_eq, declaredFault?_congr h]
      exact hparams v hv
    · rw [h.returns_eq] at ht
      rw [h.canBeExternal_eq, declaredFault?_congr h]
      exact hreturns t ht
    · obtain ⟨t, ht, htt⟩ := (h.body f hf).walk.exists_left ht'
      have hbefore : t'.before? = t.before? := by rw [Stmt.before?, ← htt.info, Stmt.before?]
      rw [hbefore]
      exact @Obeys.congr _ _ { program := p, site := p.site f, before? := t.before? }
        { program := q, site := q.site f, before? := t.before? } rfl (h.site_eq f) h t'
        ((hbody t ht).marked htt)

end Typing

/-- An `if` that runs inside as a whole. -/
def Stmt.isPrivateIf : Stmt → Bool
  | .cond _ c _ _ => c.isPrivate
  | _ => false

namespace Placement

open Expr

variable {p : Program} {site : FunctionId} {q : Program} {f : FunctionId} {R : Expr → Expr → Prop}
  {s : Stmt}

/-! ## Marking -/

mutual

theorem mark_marked : ∀ {e e' : Expr} {inside : Bool}, mark p site inside e = .ok e' → Marked e e'
  | .bool i b, e', inside, h => by
    cases h
    rfl
  | .number i n, e', inside, h => by
    cases h
    rfl
  | .me i, e', inside, h => by
    cases h
    rfl
  | .ident i v, e', inside, h => by
    cases h
    rfl
  | .reclassify i e o b, e', inside, h => by
    rw [mark, bind_eq_ok] at h
    obtain ⟨x, hx, h⟩ := h
    cases h
    exact congrArg (Expr.reclassify i.unmarked · o b) (mark_marked hx)
  | .index i base idx, e', inside, h => by
    simp only [mark, bind_eq_ok] at h
    obtain ⟨x, hx, y, hy, h⟩ := h
    cases h
    exact congrArg₂ (Expr.index i.unmarked) (mark_marked hx) (mark_marked hy)
  | .call i f args, e', inside, h => by
    simp only [mark] at h
    obtain ⟨-, h⟩ := check_eq_ok h
    obtain ⟨xs, hxs, h⟩ := bind_eq_ok.1 h
    cases h
    exact congrArg (Expr.call i.unmarked f) (markAll_marked hxs)
  | .builtin i op args b, e', inside, h => by
    simp only [mark, bind_eq_ok] at h
    obtain ⟨xs, hxs, h⟩ := h
    cases h
    exact congrArg (Expr.builtin i.unmarked op · b) (markAll_marked hxs)
  | .cast i t e b, e', inside, h => by
    simp only [mark, bind_eq_ok] at h
    obtain ⟨x, hx, h⟩ := h
    cases h
    exact congrArg (Expr.cast i.unmarked t · b) (mark_marked hx)
  | .tuple i es, e', inside, h => by
    simp only [mark, bind_eq_ok] at h
    obtain ⟨xs, hxs, h⟩ := h
    cases h
    exact congrArg (Expr.tuple i.unmarked) (markAll_marked hxs)

theorem markAll_marked : ∀ {es es' : List Expr} {inside : Bool},
    markAll p site inside es = .ok es' → unmarkedList es' = unmarkedList es
  | [], es', inside, h => by
    cases h
    rfl
  | e :: es, es', inside, h => by
    simp only [markAll, bind_eq_ok] at h
    obtain ⟨x, hx, xs, hxs, h⟩ := h
    cases h
    exact congrArg₂ List.cons (mark_marked hx) (markAll_marked hxs)

end

theorem markAll_forall₂ {es es' : List Expr} {inside : Bool}
    (h : markAll p site inside es = .ok es') :
    List.Forall₂ (fun e e' => mark p site inside e = .ok e') es es' := by
  have heq : ∀ es, markAll p site inside es = es.mapM (mark p site inside) := by
    intro es
    induction es with
    | nil => rfl
    | cons e es ih => rw [markAll, ih, List.mapM_cons]
  rwa [heq, mapM_eq_ok_iff] at h

/-! ## Marked parts -/

/-- Marking goes through the expressions and the parts of a statement. -/
structure Marks (p : Program) (site : FunctionId) (inside : Bool) (s s' : Stmt) : Prop where
  kind : s'.kind = s.kind
  info : s.info = s'.info
  roots : List.Forall₂ (fun r r' => r.1 = r'.1 ∧ mark p site (inside || s'.isPrivateIf) r.2 = .ok r'.2)
    s.roots s'.roots
  parts : List.Forall₂ (fun t t' => markStmt p site (inside || s'.isPrivateIf) t = .ok t')
    s.children s'.children

section Parts

variable {inside : Bool} {s s' : Stmt}

theorem markOption_forall₂ {o o' : Option Expr} (h : markOption p site inside o = .ok o') :
    List.Forall₂ (fun r r' => r.1 = r'.1 ∧ mark p site inside r.2 = .ok r'.2)
      (o.toList.map fun e => (Use.value, e)) (o'.toList.map fun e => (Use.value, e)) := by
  cases o with
  | none =>
    cases h
    exact .nil
  | some e =>
    rw [markOption, bind_eq_ok] at h
    obtain ⟨e', he, h⟩ := h
    cases h
    exact .cons ⟨rfl, he⟩ .nil

theorem markStmts_forall₂ {ss ss' : List Stmt} (h : markStmts p site inside ss = .ok ss') :
    List.Forall₂ (fun t t' => markStmt p site inside t = .ok t') ss ss' := by
  have heq : ∀ ss, markStmts p site inside ss = ss.mapM (markStmt p site inside) := by
    intro ss
    induction ss with
    | nil => rfl
    | cons s ss ih => rw [markStmts, ih, List.mapM_cons]
  rwa [heq, mapM_eq_ok_iff] at h

theorem markStmtOption_forall₂ {o o' : Option Stmt} (h : markStmtOption p site inside o = .ok o') :
    o'.isSome = o.isSome ∧
      List.Forall₂ (fun t t' => markStmt p site inside t = .ok t') o.toList o'.toList := by
  cases o with
  | none =>
    cases h
    exact ⟨rfl, .nil⟩
  | some s =>
    rw [markStmtOption, bind_eq_ok] at h
    obtain ⟨s', hs, h⟩ := h
    cases h
    exact ⟨rfl, .cons hs .nil⟩

theorem Marks.of_not_isPrivateIf (hkind : s'.kind = s.kind) (hinfo : s.info = s'.info)
    (hp : s'.isPrivateIf = false)
    (hroots : List.Forall₂ (fun r r' => r.1 = r'.1 ∧ mark p site inside r.2 = .ok r'.2) s.roots s'.roots)
    (hparts : List.Forall₂ (fun t t' => markStmt p site inside t = .ok t') s.children s'.children) :
    Marks p site inside s s' := by
  refine ⟨hkind, hinfo, ?_, ?_⟩
  · rwa [hp, Bool.or_false]
  · rwa [hp, Bool.or_false]

theorem markStmt_marks (h : markStmt p site inside s = .ok s') : Marks p site inside s s' := by
  cases s with
  | cond i c yes no =>
    simp only [markStmt] at h
    obtain ⟨-, h⟩ := check_eq_ok h
    obtain ⟨c', hc, h⟩ := bind_eq_ok.1 h
    obtain ⟨yes', hyes, h⟩ := bind_eq_ok.1 h
    obtain ⟨no', hno, h⟩ := bind_eq_ok.1 h
    cases h
    have hp : (Stmt.cond i c' yes' no').isPrivateIf = c.isPrivate := (mark_marked hc).isPrivate_eq
    refine ⟨rfl, rfl, ?_, ?_⟩
    · rw [hp]
      exact .cons ⟨rfl, hc⟩ .nil
    · rw [hp]
      exact .cons hyes (markStmtOption_forall₂ hno).2
  | block i body =>
    rw [markStmt, bind_eq_ok] at h
    obtain ⟨body', hbody, h⟩ := h
    cases h
    exact .of_not_isPrivateIf rfl rfl rfl .nil (markStmts_forall₂ hbody)
  | loop i c body | doLoop i body c =>
    simp only [markStmt, bind_eq_ok] at h
    obtain ⟨c', hc, body', hbody, h⟩ := h
    cases h
    exact .of_not_isPrivateIf rfl rfl rfl (.cons ⟨rfl, hc⟩ .nil) (.cons hbody .nil)
  | forLoop i init c update body =>
    simp only [markStmt, bind_eq_ok] at h
    obtain ⟨c', hc, init', hinit, body', hbody, update', hupdate, h⟩ := h
    cases h
    obtain ⟨hsome, hinit⟩ := markStmtOption_forall₂ hinit
    have hkind : (Stmt.forLoop i init' c' update' body').kind =
        (Stmt.forLoop i init c update body).kind := by
      simp only [Stmt.kind, hsome]
      rfl
    exact .of_not_isPrivateIf hkind rfl rfl (markOption_forall₂ hc)
      (List.rel_append hinit (.cons hbody (markStmtOption_forall₂ hupdate).2))
  | assign i lhs rhs =>
    simp only [markStmt, bind_eq_ok] at h
    obtain ⟨lhs', hlhs, rhs', hrhs, h⟩ := h
    cases h
    exact .of_not_isPrivateIf rfl rfl rfl (.cons ⟨rfl, hlhs⟩ (.cons ⟨rfl, hrhs⟩ .nil)) .nil
  | decl i v e | ret i e =>
    rw [markStmt, bind_eq_ok] at h
    obtain ⟨e', he, h⟩ := h
    cases h
    exact .of_not_isPrivateIf rfl rfl rfl (markOption_forall₂ he) .nil
  | expr i e | require i e =>
    rw [markStmt, bind_eq_ok] at h
    obtain ⟨e', he, h⟩ := h
    cases h
    exact .of_not_isPrivateIf rfl rfl rfl (.cons ⟨rfl, he⟩ .nil) .nil
  | leave i | next i =>
    cases h
    exact .of_not_isPrivateIf rfl rfl rfl .nil .nil

/-- Marking changes marks only. -/
theorem markStmt_alike (h : markStmt p site inside s = .ok s') : Stmt.Alike Eq Marked s s' := by
  induction s using Stmt.induct_children generalizing s' inside with
  | h s ih =>
    have hmarks := markStmt_marks h
    refine .of_parts hmarks.kind hmarks.info ?_ ?_
    · exact hmarks.roots.imp fun _ _ hr => ⟨hr.1, mark_marked hr.2⟩
    · exact ((List.forall₂_and_left _ _).2 ⟨ih, hmarks.parts⟩).imp fun _ _ ht => ht.1 ht.2

end Parts

/-! ## Programs -/

/-- Placement marks expressions and records facts about private work. -/
structure Placed (p q : Program) : Prop where
  alike : Program.Alike Eq Marked p q
  vars : q.vars = p.vars
  facts : ∀ f, (q.function f).facts = { (p.function f).facts with
    canBePrivate := (q.function f).facts.canBePrivate
    isVerified := (q.function f).facts.isVerified
    isVerifiedOutside := (q.function f).facts.isVerifiedOutside }

theorem Placed.trans {r : Program} (h : Placed p q) (h' : Placed q r) : Placed p r where
  alike := h.alike.trans h'.alike (fun _ _ _ => Eq.trans) fun _ _ _ => Marked.trans
  vars := h'.vars.trans h.vars
  facts f := by rw [h'.facts f, h.facts f]

/-- Facts about private work. -/
theorem mapFunctions_placed {g : FunctionId → Function → Function}
    (hg : ∀ id f, g id f = { f with facts := { f.facts with
      canBePrivate := (g id f).facts.canBePrivate
      isVerified := (g id f).facts.isVerified
      isVerifiedOutside := (g id f).facts.isVerifiedOutside } }) : Placed p (p.mapFunctions g) where
  alike := by
    refine Program.alike_mapFunctions (fun id f => ?_) fun f _ => ?_
    · rw [hg]
    · rw [hg]
      exact .refl (fun _ => rfl) Marked.refl _
  vars := rfl
  facts f := by
    by_cases hf : p.Has f
    · rw [Program.function_mapFunctions hf, hg]
    · rw [Program.function_of_not_has (by simpa using hf),
        Program.function_of_not_has hf]

theorem recordHeld_placed (p : Program) : Placed p (recordHeld p) := by
  unfold recordHeld
  exact mapFunctions_placed fun _ _ => rfl

theorem recordVerified_placed (p : Program) : Placed p (recordVerified p) := by
  unfold recordVerified
  exact mapFunctions_placed fun _ _ => rfl

theorem body_recordVerified (hf : p.Has f) :
    ((recordVerified p).function f).body = (p.function f).body := by
  rw [recordVerified, Program.function_mapFunctions hf]

theorem canBePrivate_recordVerified (p : Program) (f : FunctionId) :
    ((recordVerified p).function f).facts.canBePrivate = (p.function f).facts.canBePrivate := by
  by_cases hf : p.Has f
  · rw [recordVerified, Program.function_mapFunctions hf]
  · rw [Program.function_of_not_has (by simpa [recordVerified] using hf),
      Program.function_of_not_has hf]

theorem markFunction_placed (h : markFunction p f = .ok q) (hf : p.Has f) :
    Placed p q ∧ markStmt p f false (p.function f).body = .ok (q.function f).body ∧
      (∀ g, g ≠ f → (q.function g).body = (p.function g).body) ∧
      ∀ g, (q.function g).facts = (p.function g).facts := by
  obtain ⟨body, hbody, h⟩ := bind_eq_ok.1 h
  obtain rfl : p.setBody f body = q := by injection h
  have hs := markStmt_alike hbody
  have hself := Program.function_setBody_self body hf
  have hfacts : ∀ g, ((p.setBody f body).function g).facts = (p.function g).facts := by
    intro g
    by_cases hg : g = f
    · rw [hg, hself]
    · rw [Program.function_setBody_of_ne body hg]
  refine ⟨⟨Program.alike_setBody (fun _ => rfl) Marked.refl hf hs, rfl, fun g => ?_⟩, ?_,
    fun g hg => ?_, hfacts⟩
  · rw [hfacts]
  · rw [hself]
    exact hbody
  · rw [Program.function_setBody_of_ne body hg]

theorem markFunctions_placed {fs : List FunctionId} : ∀ {p q : Program},
    fs.foldlM markFunction p = .ok q → fs.Nodup → (∀ f ∈ fs, p.Has f) →
    Placed p q ∧ (∀ f ∈ fs, ∃ r s, (∀ g, (r.function g).facts = (p.function g).facts) ∧
        markStmt r f false s = .ok (q.function f).body) ∧
      (∀ g ∉ fs, (q.function g).body = (p.function g).body) ∧
      ∀ g, (q.function g).facts = (p.function g).facts := by
  induction fs with
  | nil =>
    intro p q h _ _
    cases h
    exact ⟨⟨.refl (fun _ => rfl) Marked.refl p, rfl, fun _ => rfl⟩, nofun, fun _ _ => rfl,
      fun _ => rfl⟩
  | cons f fs ih =>
    intro p q h hnodup hlt
    rw [List.foldlM_cons, bind_eq_ok] at h
    obtain ⟨r, hr, h⟩ := h
    obtain ⟨hf, hnodup⟩ := List.nodup_cons.1 hnodup
    obtain ⟨hpr, hfc, hother, hfacts⟩ := markFunction_placed hr (hlt f (by simp))
    obtain ⟨hrq, hfsc, hother', hfacts'⟩ := ih h hnodup fun g hg =>
      hpr.alike.has.2 (hlt g (by simp [hg]))
    simp only [hfacts] at hfsc hfacts'
    refine ⟨hpr.trans hrq, ?_, fun g hg => ?_, hfacts'⟩
    · rw [List.forall_mem_cons, hother' f hf]
      exact ⟨⟨p, _, fun _ => rfl, hfc⟩, hfsc⟩
    · rw [List.mem_cons, not_or] at hg
      rw [hother' g hg.2, hother g hg.1]

theorem mem_functionIds : f ∈ p.functionIds ↔ p.Has f := by
  cases f
  simp [Program.functionIds]

theorem nodup_functionIds (p : Program) : p.functionIds.Nodup :=
  List.Nodup.map (fun _ _ hab => congrArg FunctionId.index hab) List.nodup_range

/-- The stages of placement. -/
theorem withPlacement_eq_ok (h : p.withPlacement = .ok q) :
    ∃ r, (recordHeld p).functionIds.foldlM markFunction (recordHeld p) = .ok r ∧
      (∀ f, r.Has f → checkLoops r f = .ok ()) ∧ q = recordVerified r ∧
      ∀ f, q.Has f → checkVerified q f = .ok () := by
  obtain ⟨r, hr, h⟩ := bind_eq_ok.1 h
  obtain ⟨_, hloops, h⟩ := bind_eq_ok.1 h
  obtain ⟨_, hverified, h⟩ := bind_eq_ok.1 h
  cases h
  exact ⟨r, hr, fun f hf => forM_eq_ok hloops f (mem_functionIds.2 hf), rfl,
    fun f hf => forM_eq_ok hverified f (mem_functionIds.2 hf)⟩

/-- The bodies of a placed program are marked. -/
theorem withPlacement_body (h : p.withPlacement = .ok q) (hf : q.Has f) :
    ∃ r s, (∀ g, (r.function g).facts.canBePrivate = (q.function g).facts.canBePrivate) ∧
      markStmt r f false s = .ok (q.function f).body := by
  obtain ⟨r, hr, -, rfl, -⟩ := withPlacement_eq_ok h
  obtain ⟨hpr, hmarked, -, hfacts⟩ := markFunctions_placed hr (nodup_functionIds _)
    fun f hf => mem_functionIds.1 hf
  have hrf : r.Has f := (recordVerified_placed r).alike.has.1 hf
  rw [body_recordVerified hrf]
  obtain ⟨r', s, hheld, hs⟩ := hmarked f (mem_functionIds.2 (hpr.alike.has.1 hrf))
  refine ⟨r', s, fun g => ?_, hs⟩
  rw [hheld, ← hfacts, canBePrivate_recordVerified]

/-- Placement marks, and records facts. -/
theorem withPlacement_placed (h : p.withPlacement = .ok q) : Placed p q := by
  obtain ⟨r, hr, -, rfl, -⟩ := withPlacement_eq_ok h
  obtain ⟨hpr, -, -⟩ := markFunctions_placed hr (nodup_functionIds _) fun f hf => mem_functionIds.1 hf
  exact ((recordHeld_placed p).trans hpr).trans (recordVerified_placed r)

end Placement

end Shroud
