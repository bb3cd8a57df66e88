import Mathlib
import Shroud.Source.Json

/-! # Source units survive their JSON

A unit whose numbers fit their words is read from what is written for it, by any reader that may
enter as many levels as the written value has. Whatever a reader accepts, in each of the forms that
it knows, has such numbers. So a unit that was read once is read again from what is written for it.
-/

namespace Shroud

/-! ## Decimals -/

namespace Text

variable {cs : List Char}

theorem digitsFrom_eq (h : ∀ c ∈ cs, c.isDigit = true) (acc : Nat) :
    digitsFrom acc cs = some (Nat.ofDigitChars 10 cs acc) := by
  induction cs generalizing acc with
  | nil => rfl
  | cons c cs ih =>
    have hc := h c List.mem_cons_self
    have hne : (c == '_') = false := by
      rw [beq_eq_false_iff_ne]
      rintro rfl
      exact absurd hc (by decide)
    have hd : isDigit c = true := by simpa [isDigit, Char.isDigit, Char.le_def] using hc
    rw [digitsFrom, hne, hd, Nat.ofDigitChars_cons]
    exact ih (fun d hd => h d (List.mem_cons_of_mem _ hd)) _

theorem unsigned?_repr (n : Nat) : unsigned? (Nat.repr n).toList = some n := by
  rw [Nat.repr, String.toList_ofList]
  have hdigit : ∀ c ∈ Nat.toDigits 10 n, c.isDigit = true :=
    fun c hc => Nat.isDigit_of_mem_toDigits (by decide) (by decide) hc
  have hvalue := Nat.ofDigitChars_ten_toDigits (n := n)
  cases hcs : Nat.toDigits 10 n with
  | nil => exact absurd hcs Nat.toDigits_ne_nil
  | cons c cs =>
    rw [hcs] at hdigit hvalue
    have hd : isDigit c = true := by
      simpa [isDigit, Char.isDigit, Char.le_def] using hdigit c List.mem_cons_self
    rw [unsigned?, hd, if_pos rfl, digitsFrom_eq fun d h => hdigit d (List.mem_cons_of_mem _ h),
      ← hvalue, Nat.ofDigitChars_cons, Nat.mul_zero, Nat.zero_add]
    rfl

theorem trimBlank_eq (h : ∀ c ∈ cs, isBlank c = false) : trimBlank cs = cs := by
  have hdrop : ∀ {ds : List Char}, (∀ c ∈ ds, isBlank c = false) → ds.dropWhile isBlank = ds := by
    intro ds hds
    cases ds with
    | nil => rfl
    | cons c ds =>
      rw [List.dropWhile_cons, hds c List.mem_cons_self]
      rfl
  rw [trimBlank, hdrop h, hdrop fun c hc => h c (List.mem_reverse.1 hc), List.reverse_reverse]

theorem isBlank_of_isDigit {c : Char} (h : c.isDigit = true) : isBlank c = false := by
  simp [Char.isDigit, isBlank, isBlankCode, UInt32.le_iff_toNat_le] at *
  grind

theorem signed?_of_unsigned? {n : Nat} (h : unsigned? cs = some n) :
    signed? cs = some (n : Int) := by
  unfold signed?
  split
  · exact absurd h (by simp [unsigned?, isDigit])
  · exact absurd h (by simp [unsigned?, isDigit])
  · rw [h]
    rfl

/-- Integers of any size are read from their decimals. -/
theorem decimal?_decimal (n : Int) : decimal? (decimal n) = some n := by
  have hblank : ∀ m : Nat, ∀ c ∈ (Nat.repr m).toList, isBlank c = false := by
    intro m c hc
    rw [Nat.repr, String.toList_ofList] at hc
    exact isBlank_of_isDigit (Nat.isDigit_of_mem_toDigits (by decide) (by decide) hc)
  cases n with
  | ofNat m =>
    rw [decimal?, decimal, trimBlank_eq (hblank m)]
    exact signed?_of_unsigned? (unsigned?_repr m)
  | negSucc m =>
    have hcs : ("-" ++ Nat.repr (m + 1)).toList = '-' :: (Nat.repr (m + 1)).toList := by
      rw [String.toList_append]
      rfl
    rw [decimal?, decimal, hcs, trimBlank_eq (List.forall_mem_cons.2 ⟨by decide, hblank _⟩),
      signed?, unsigned?_repr]
    rfl

end Text

namespace Json

variable {α : Type} {read : Json → Option α} {write : α → Json} {P : α → Prop} {n : Nat}
  {o : Option α}

/-! ## Reading what was written -/

theorem member_cons (name name' : String) (j : Json) (members : List (String × Json)) :
    member ((name, j) :: members) name' =
      if name = name' then .given j else member members name' := by
  by_cases h : name = name' <;> simp [member, h]

theorem natBelow?_ofNat {bound : Nat} (h : n < bound) : natBelow? bound (ofNat n) = some n :=
  if_pos h

/-- A value that is read again is not `null`, so that it is told from none. -/
theorem optional_ofOption (hnull : read .null = none) (h : ∀ a ∈ o, read (write a) = some a) :
    Field.optional read (.given (ofOption write o)) = some o := by
  cases o with
  | none => rfl
  | some a =>
    have ha := h a rfl
    rw [ofOption, Field.optional, ha]
    · rfl
    · intro hw
      rw [hw, hnull] at ha
      cases ha

theorem flat_eq {j : Json} (h : j.depth ≤ n) : flat n read j = read j := by
  cases j with
  | arr | obj => rw [flat, if_neg (by rw [depth] at h; omega)]
  | _ => rfl

/-- A value is read from what is written for it, if that many levels may be entered. -/
def Reads (read : Nat → Json → Option α) (write : α → Json) (a : α) : Prop :=
  ∀ n, (write a).depth ≤ n → read n (write a) = some a

theorem Reads.optional {read : Nat → Json → Option α} (h : ∀ a ∈ o, Reads read write a)
    (hnull : read n .null = none) (hd : (ofOption write o).depth ≤ n) :
    Field.optional (read n) (.given (ofOption write o)) = some o :=
  optional_ofOption hnull fun a ha => h a ha n (by cases ha; exact hd)

theorem Reads.list {read : Nat → Json → Option α} {xs : List α}
    (h : ∀ a ∈ xs, Reads read write a) : Reads (Source.readList read) (ofList write) xs
  | n + 1, hd => by
    rw [ofList, Source.readList]
    simp only [ofList, depth, Nat.add_le_add_iff_right] at hd
    induction xs with
    | nil => rfl
    | cons a xs ih =>
      rw [List.forall_mem_cons] at h
      simp only [List.map_cons, depthList, Nat.max_le] at hd
      simp [h.1 n hd.1, ih h.2 hd.2]

/-! ## What readers give -/

/-- Whatever a reader accepts has a property. -/
def Gives (read : Json → Option α) (P : α → Prop) : Prop := ∀ j a, read j = some a → P a

namespace Gives

theorem natBelow? (bound : Nat) : Gives (Json.natBelow? bound) (· < bound) := by
  intro j n h
  unfold Json.natBelow? at h
  split at h
  · split at h <;> simp_all
  · cases h

theorem required {f : Field} {a : α} (h : Gives read P) (hf : f.required read = some a) : P a := by
  cases f with
  | given j => exact h j a hf
  | _ => cases hf

theorem orElse {f : Field} {d a : α} (h : Gives read P) (hd : P d) (hf : f.orElse d read = some a) :
    P a := by
  cases f with
  | given j => exact h j a hf
  | _ => exact Option.some.inj hf ▸ hd

theorem optional {f : Field} (h : Gives read P) (hf : f.optional read = some o) : ∀ a ∈ o, P a := by
  rintro a rfl
  unfold Field.optional at hf
  split at hf
  · cases hf
  · obtain ⟨b, hb, hab⟩ := Option.map_eq_some_iff.1 hf
    exact Option.some.inj hab ▸ h _ b hb
  · cases hf

theorem flat (h : Gives read P) (n : Nat) : Gives (Json.flat n read) P := by
  intro j a hj
  unfold Json.flat at hj
  grind [Gives]

theorem mapM {js : List Json} {as : List α} (h : Gives read P) (hj : js.mapM read = some as) :
    ∀ a ∈ as, P a := by
  induction js generalizing as with
  | nil =>
    cases hj
    simp
  | cons j js ih =>
    simp only [List.mapM_cons, Option.pure_def, Option.bind_eq_bind, Option.bind_eq_some_iff,
      Option.some.injEq] at hj
    obtain ⟨a, ha, as, has, rfl⟩ := hj
    exact List.forall_mem_cons.2 ⟨h j a ha, ih has⟩

theorem list {read : Nat → Json → Option α} (h : ∀ m < n, Gives (read m) P) :
    Gives (Source.readList read n) fun as => ∀ a ∈ as, P a := by
  intro j as hj
  unfold Source.readList at hj
  split at hj
  · exact (h _ (Nat.lt_succ_self _)).mapM hj
  · cases hj

end Gives

end Json

open Json

attribute [local simp] Nat.max_le member_cons record? givenTwice Field.required Field.orElse depth
  depthMembers str? bool? flat_eq Option.bind_eq_some_iff

theorem Operator.ofJson?_toJson (op : Operator) : Operator.ofJson? op.toJson = some op := by
  cases op <;> rfl

namespace Span

def InRange (s : Span) : Prop := s.line < 0x100000000 ∧ s.column < 0x100000000

theorem ofJson?_toJson {s : Span} (h : s.InRange) : ofJson? s.toJson = some s := by
  simp [ofJson?, toJson, word32?, natBelow?_ofNat h.1, natBelow?_ofNat h.2]

theorem gives : Gives ofJson? InRange := by
  intro j s h
  simp only [ofJson?, Option.bind_eq_bind, Option.bind_eq_some_iff, Option.pure_def,
    Option.some.injEq] at h
  obtain ⟨f, -, l, hl, c, hc, rfl⟩ := h
  exact ⟨(Gives.natBelow? _).required hl, (Gives.natBelow? _).required hc⟩

theorem inRange_default : Span.InRange {} := ⟨by decide, by decide⟩

end Span

namespace Source

theorem Owner.ofJson?_toJson (o : Owner) : Owner.ofJson? o.toJson = some o := by cases o <;> rfl

attribute [local simp] Owner.ofJson?_toJson Operator.ofJson?_toJson Span.ofJson?_toJson

/-! ## Types -/

mutual

/-- Widths and lengths fit their words. -/
def DataType.InRange : DataType → Prop
  | .uint n | .int n => n < 0x10000
  | .mapping k _ v => k.InRange ∧ v.InRange
  | .array e len => e.InRange ∧ ∀ n ∈ len, n < 0x10000000000000000
  | _ => True

def OwnedType.InRange : OwnedType → Prop
  | .mk t _ => t.InRange

end

attribute [local simp] DataType.read DataType.toJson OwnedType.read OwnedType.toJson in
mutual

theorem DataType.reads : (t : DataType) → t.InRange → Reads DataType.read DataType.toJson t
  | .bool, _, _, _ | .address, _, _, _ | .addressPayable, _, _, _ => by simp [DataType.ofTag?]
  | .uint k, hr, n + 1, h | .int k, hr, n + 1, h => by simp [word16?, natBelow?_ofNat hr]
  | .mapping k l v, hr, n + 2, h => by
    simp at h
    have hl : Field.optional str? (.given (.ofOption .str l)) = some l :=
      optional_ofOption rfl fun _ _ => rfl
    simp [k.reads hr.1 n h.1, v.reads hr.2 n h.2.2, hl]
  | .array e len, hr, n + 2, h => by
    simp at h
    have hl : Field.optional word64? (.given (.ofOption .ofNat len)) = some len :=
      optional_ofOption rfl fun _ hn => natBelow?_ofNat (hr.2 _ hn)
    simp [e.reads hr.1 n h.1, hl]

theorem OwnedType.reads : (t : OwnedType) → t.InRange → Reads OwnedType.read OwnedType.toJson t
  | .mk t o, hr, n + 1, h => by
    simp at h
    simp [t.reads hr n h.1, h.2]

end

/-- Parts are read with fewer levels. -/
theorem gives_types (n : Nat) :
    Gives (DataType.read n) DataType.InRange ∧ Gives (OwnedType.read n) OwnedType.InRange := by
  induction n using Nat.strongRecOn with
  | ind n ih =>
    refine ⟨fun j t h => ?_, fun j t h => ?_⟩
    · have hwidth : Gives word16? (· < 0x10000) := .natBelow? _
      have hlength : Gives word64? (· < 0x10000000000000000) := .natBelow? _
      unfold DataType.read DataType.ofTag? at h
      repeat' split at h
      all_goals simp only [Option.bind_eq_bind, Option.bind_eq_some_iff, Option.pure_def,
        Option.map_eq_some_iff, Option.some.injEq, reduceCtorEq] at h
      all_goals grind [DataType.InRange, Gives, Gives.required, Gives.optional]
    · cases n with
      | zero => cases h
      | succ n =>
        simp only [OwnedType.read, Option.bind_eq_bind, Option.bind_eq_some_iff, Option.pure_def,
          Option.some.injEq] at h
        obtain ⟨f, -, t, ht, o, -, rfl⟩ := h
        exact (ih n n.lt_succ_self).1.required ht

/-! ## Expressions -/

/-- Places are those that a text of its size can have, and types have their widths and lengths. -/
inductive Expr.InRange : Expr → Prop
  | bool (hs : Span.InRange s) : InRange (.bool s b)
  | number (hs : Span.InRange s) : InRange (.number s k)
  | me (hs : Span.InRange s) : InRange (.me s)
  | ident (hs : Span.InRange s) : InRange (.ident s x)
  | builtin (hs : Span.InRange s) (hes : ∀ e ∈ es, InRange e) : InRange (.builtin s op es)
  | call (hs : Span.InRange s) (hes : ∀ e ∈ es, InRange e) : InRange (.call s f es)
  | index (hs : Span.InRange s) (hb : InRange b) (hi : InRange i) : InRange (.index s b i)
  | reveal (hs : Span.InRange s) (he : InRange e) : InRange (.reveal s e o)
  | cast (hs : Span.InRange s) (ht : DataType.InRange t) (he : InRange e) : InRange (.cast s t e)
  | tuple (hs : Span.InRange s) (hes : ∀ e ∈ es, InRange e) : InRange (.tuple s es)

theorem Expr.reads_node {s : Span} {k : Json} {e : Expr} (he : e.toJson = node s k)
    (hs : s.InRange) (hk : ∀ n, k.depth ≤ n → Expr.readKind n s k = some e) :
    Reads Expr.read Expr.toJson e := by
  intro n h
  rw [he] at h ⊢
  cases n with
  | zero => simp [node] at h
  | succ n =>
    simp [node] at h
    simp [Expr.read, node, h.2, hs, hk n h.1]

theorem Expr.toJsonList_eq (es : List Expr) : .arr (Expr.toJsonList es) = ofList Expr.toJson es := by
  induction es with
  | nil => rfl
  | cons e es ih => simpa [Expr.toJsonList, ofList] using ih

theorem Expr.readList_eq : Expr.readList = Source.readList Expr.read := by
  funext n j
  cases n <;> cases j <;> rfl

/-- Parts are written with fewer levels. -/
theorem Expr.InRange.reads {e : Expr} (he : e.InRange) : Reads Expr.read Expr.toJson e := by
  induction he with
  | bool hs | ident hs => exact reads_node rfl hs fun | n + 1, _ => by rw [Expr.readKind]; rfl
  | number hs =>
    exact reads_node rfl hs fun
      | n + 1, _ => by
        rw [Expr.readKind]
        simp [literal?, ofLiteral, Text.decimal?_decimal]
  | me hs => exact reads_node rfl hs fun n _ => by rw [Expr.readKind]
  | builtin hs _ ih =>
    exact reads_node rfl hs fun
      | n + 2, h => by
        rw [toJsonList_eq] at h ⊢
        rw [Expr.readKind, readList_eq]
        simp at h
        simp [Reads.list ih n h.2, h.1]
  | call hs _ ih =>
    exact reads_node rfl hs fun
      | n + 2, h => by
        rw [toJsonList_eq] at h ⊢
        rw [Expr.readKind, readList_eq]
        simp at h
        simp [Reads.list ih n h]
  | index hs _ _ ihb ihi =>
    exact reads_node rfl hs fun
      | n + 2, h => by
        rw [Expr.readKind]
        simp at h
        simp [ihb n h.1, ihi n h.2]
  | reveal hs _ ih =>
    exact reads_node rfl hs fun
      | n + 2, h => by
        rw [Expr.readKind]
        simp at h
        simp [ih n h.1, h.2]
  | cast hs ht _ ih =>
    exact reads_node rfl hs fun
      | n + 2, h => by
        rw [Expr.readKind]
        simp at h
        simp [DataType.reads _ ht n h.1, ih n h.2]
  | tuple hs _ ih =>
    exact reads_node rfl hs fun
      | n + 1, h => by
        rw [toJsonList_eq] at h ⊢
        rw [Expr.readKind, readList_eq]
        simp at h
        simp [Reads.list ih n h]

theorem Expr.read_null (n : Nat) : Expr.read n .null = none := by cases n <;> rfl

theorem Expr.readsOption {o : Option Expr} {n : Nat} (h : ∀ e ∈ o, e.InRange) :
    (ofOption Expr.toJson o).depth ≤ n →
      Field.optional (Expr.read n) (.given (ofOption Expr.toJson o)) = some o :=
  Reads.optional (fun e he => (h e he).reads) (Expr.read_null n)

/-- Parts are read with fewer levels. -/
theorem Expr.gives (n : Nat) : Gives (Expr.read n) Expr.InRange := by
  induction n using Nat.strongRecOn with
  | ind n ih =>
    intro j e h
    cases n with
    | zero => cases h
    | succ n =>
      simp only [Expr.read, Option.bind_eq_bind, Option.bind_eq_some_iff] at h
      obtain ⟨f, -, s, hs, hk⟩ := h
      replace hs := (Span.gives.flat n).orElse Span.inRange_default hs
      refine Gives.required (fun j e hj => ?_) hk
      have htype := fun m => (gives_types m).1
      have hlist : ∀ m ≤ n, Gives (Source.readList Expr.read m) fun es => ∀ e ∈ es, e.InRange :=
        fun m hm => .list fun i hi => ih i (by omega)
      unfold Expr.readKind at hj
      repeat' split at hj
      all_goals simp only [Option.bind_eq_bind, Option.bind_eq_some_iff, Option.pure_def,
        Option.map_eq_some_iff, Option.some.injEq, reduceCtorEq, Expr.readList_eq] at hj
      all_goals grind [Expr.InRange, Gives, Gives.required]

/-! ## Statements -/

inductive Stmt.InRange : Stmt → Prop
  | block (hs : Span.InRange s) (hb : ∀ t ∈ body, InRange t) : InRange (.block s body)
  | cond (hs : Span.InRange s) (hc : c.InRange) (hy : InRange yes) (hn : ∀ t ∈ no, InRange t) :
      InRange (.cond s c yes no)
  | loop (hs : Span.InRange s) (hc : c.InRange) (hb : InRange body) : InRange (.loop s c body)
  | doLoop (hs : Span.InRange s) (hb : InRange body) (hc : c.InRange) : InRange (.doLoop s body c)
  | forLoop (hs : Span.InRange s) (hi : ∀ t ∈ init, InRange t) (hc : ∀ e ∈ c, Expr.InRange e)
      (hu : ∀ t ∈ update, InRange t) (hb : InRange body) : InRange (.forLoop s init c update body)
  | decl (hs : Span.InRange s) (ht : OwnedType.InRange t) (hi : ∀ e ∈ init, Expr.InRange e) :
      InRange (.decl s x t f init)
  | assign (hs : Span.InRange s) (hl : Expr.InRange l) (hr : Expr.InRange r) :
      InRange (.assign s l op r)
  | expr (hs : Span.InRange s) (he : Expr.InRange e) : InRange (.expr s e)
  | require (hs : Span.InRange s) (he : Expr.InRange e) : InRange (.require s e)
  | ret (hs : Span.InRange s) (he : ∀ x ∈ e, Expr.InRange x) : InRange (.ret s e)
  | leave (hs : Span.InRange s) : InRange (.leave s)
  | next (hs : Span.InRange s) : InRange (.next s)

theorem Stmt.reads_node {s : Span} {k : Json} {t : Stmt} (ht : t.toJson = node s k)
    (hs : s.InRange) (hk : ∀ n, k.depth ≤ n → Stmt.readKind n s k = some t) :
    Reads Stmt.read Stmt.toJson t := by
  intro n h
  rw [ht] at h ⊢
  cases n with
  | zero => simp [node] at h
  | succ n =>
    simp [node] at h
    simp [Stmt.read, node, h.2, hs, hk n h.1]

theorem Stmt.toJsonList_eq (ss : List Stmt) : .arr (Stmt.toJsonList ss) = ofList Stmt.toJson ss := by
  induction ss with
  | nil => rfl
  | cons s ss ih => simpa [Stmt.toJsonList, ofList] using ih

theorem Stmt.readList_eq : Stmt.readList = Source.readList Stmt.read := by
  funext n j
  cases n <;> cases j <;> rfl

theorem Stmt.readsOption {o : Option Stmt} {n : Nat} (h : ∀ s ∈ o, Reads Stmt.read Stmt.toJson s)
    (hd : (Stmt.toJsonOption o).depth ≤ n) :
    Field.optional (Stmt.read n) (.given (Stmt.toJsonOption o)) = some o := by
  have ho : Stmt.toJsonOption o = ofOption Stmt.toJson o := by cases o <;> rfl
  rw [ho] at hd ⊢
  exact Reads.optional h (by cases n <;> rfl) hd

/-- The value of a return is optional, like a field. -/
theorem Stmt.readKind_return (n : Nat) (s : Span) (j : Json) :
    Stmt.readKind (n + 1) s (.obj [("return", j)]) =
      (Field.optional (Expr.read n) (.given j)).map (.ret s) := by
  unfold Stmt.readKind
  cases j <;> simp [Field.optional, Function.comp_def]

theorem Stmt.InRange.reads {s : Stmt} (hs : s.InRange) : Reads Stmt.read Stmt.toJson s := by
  induction hs with
  | block hs _ ih =>
    exact reads_node rfl hs fun
      | n + 1, h => by
        rw [toJsonList_eq] at h ⊢
        rw [Stmt.readKind, readList_eq]
        simp at h
        simp [Reads.list ih n h]
  | cond hs hc _ _ ihy ihn =>
    exact reads_node rfl hs fun
      | n + 2, h => by
        rw [Stmt.readKind]
        simp at h
        simp [hc.reads n h.1, ihy n h.2.1, readsOption ihn h.2.2]
  | loop hs hc _ ih =>
    exact reads_node rfl hs fun
      | n + 2, h => by
        rw [Stmt.readKind]
        simp at h
        simp [hc.reads n h.1, ih n h.2]
  | doLoop hs _ hc ih =>
    exact reads_node rfl hs fun
      | n + 2, h => by
        rw [Stmt.readKind]
        simp at h
        simp [ih n h.1, hc.reads n h.2]
  | forLoop hs _ hc _ _ ihi ihu ihb =>
    exact reads_node rfl hs fun
      | n + 2, h => by
        rw [Stmt.readKind]
        simp at h
        simp [readsOption ihi h.1, Expr.readsOption hc h.2.1, readsOption ihu h.2.2.1,
          ihb n h.2.2.2]
  | decl hs ht hi =>
    exact reads_node rfl hs fun
      | n + 2, h => by
        rw [Stmt.readKind]
        simp at h
        simp [OwnedType.reads _ ht n h.1, Expr.readsOption hi h.2]
  | @assign s l r op hs hl hr =>
    exact reads_node rfl hs fun
      | n + 2, h => by
        rw [Stmt.readKind]
        simp at h
        have hop : Field.optional (flat n Operator.ofJson?) (.given (ofOption Operator.toJson op)) =
          some op := optional_ofOption rfl fun op _ => op.ofJson?_toJson
        simp [hl.reads n h.1, hop, hr.reads n h.2.2]
  | expr hs he | require hs he =>
    exact reads_node rfl hs fun
      | n + 1, h => by
        rw [Stmt.readKind]
        simp at h
        simp [he.reads n h]
  | ret hs he =>
    exact reads_node rfl hs fun
      | n + 1, h => by
        simp at h
        simp [readKind_return, Expr.readsOption he h]
  | leave hs | next hs => exact reads_node rfl hs fun n _ => by rw [Stmt.readKind]

theorem Stmt.gives (n : Nat) : Gives (Stmt.read n) Stmt.InRange := by
  induction n using Nat.strongRecOn with
  | ind n ih =>
    intro j e h
    cases n with
    | zero => cases h
    | succ n =>
      simp only [Stmt.read, Option.bind_eq_bind, Option.bind_eq_some_iff] at h
      obtain ⟨f, -, s, hs, hk⟩ := h
      replace hs := (Span.gives.flat n).orElse Span.inRange_default hs
      refine Gives.required (fun j e hj => ?_) hk
      have hexpr := Expr.gives
      have htype := fun m => (gives_types m).2
      have hlist : Gives (Source.readList Stmt.read (n - 1)) fun ss => ∀ s ∈ ss, s.InRange :=
        .list fun i hi => ih i (by omega)
      unfold Stmt.readKind at hj
      repeat' split at hj
      all_goals simp only [Option.bind_eq_bind, Option.bind_eq_some_iff, Option.pure_def,
        Option.map_eq_some_iff, Option.some.injEq, reduceCtorEq, Stmt.readList_eq] at hj
      all_goals grind [Stmt.InRange, Gives, Gives.required, Gives.optional]

/-! ## Definitions and units -/

theorem read_kind (n : Nat) (k : FunctionKind) :
    flat n FunctionKind.ofJson? (.str k.tag) = some k := by
  cases k <;> rfl

theorem read_visibility (n : Nat) (v : Visibility) :
    flat n Visibility.ofJson? (.str v.tag) = some v := by
  cases v <;> rfl

theorem read_mutability (n : Nat) (m : Mutability) :
    flat n Mutability.ofJson? (.str m.tag) = some m := by
  cases m <;> rfl

def StateVar.InRange (v : StateVar) : Prop :=
  v.type.InRange ∧ (∀ e ∈ v.init, e.InRange) ∧ v.span.InRange

def Param.InRange (p : Param) : Prop := p.type.InRange ∧ p.span.InRange

def Function.InRange (f : Function) : Prop :=
  (∀ p ∈ f.params, p.InRange) ∧ (∀ t ∈ f.returns, t.InRange) ∧ (∀ s ∈ f.body, s.InRange) ∧
    f.span.InRange

def Contract.InRange (c : Contract) : Prop :=
  (∀ v ∈ c.stateVars, v.InRange) ∧ (∀ f ∈ c.functions, f.InRange) ∧ c.span.InRange

theorem StateVar.reads {v : StateVar} (hr : v.InRange) : Reads StateVar.read StateVar.toJson v
  | n + 1, h => by
    simp [StateVar.toJson] at h
    simp [StateVar.read, StateVar.toJson, v.type.reads hr.1 n h.1, Expr.readsOption hr.2.1 h.2.1,
      hr.2.2, h.2.2]

theorem Param.reads {p : Param} (hr : p.InRange) : Reads Param.read Param.toJson p
  | n + 1, h => by
    simp [Param.toJson] at h
    simp [Param.read, Param.toJson, p.type.reads hr.1 n h.1, hr.2, h.2]

theorem Function.reads {f : Function} (hr : f.InRange) : Reads Function.read Function.toJson f
  | n + 1, h => by
    simp [Function.toJson, Stmt.toJsonList_eq] at h
    simp [Function.read, Function.toJson, Stmt.toJsonList_eq, Stmt.readList_eq,
      read_kind, read_visibility, read_mutability,
      Reads.list (fun p hp => Param.reads (hr.1 p hp)) n h.1,
      Reads.list (fun t ht => t.reads (hr.2.1 t ht)) n h.2.1,
      Reads.list (fun s hs => (hr.2.2.1 s hs).reads) n h.2.2.1, hr.2.2.2, h.2.2.2]

theorem Contract.reads {c : Contract} (hr : c.InRange) : Reads Contract.read Contract.toJson c
  | n + 1, h => by
    simp [Contract.toJson] at h
    simp [Contract.read, Contract.toJson, Reads.list (fun v hv => StateVar.reads (hr.1 v hv)) n h.1,
      Reads.list (fun f hf => Function.reads (hr.2.1 f hf)) n h.2.1, hr.2.2, h.2.2]

theorem StateVar.gives (n : Nat) : Gives (StateVar.read n) StateVar.InRange := by
  intro j v h
  cases n with
  | zero => cases h
  | succ n =>
    simp only [StateVar.read, Option.bind_eq_bind, Option.bind_eq_some_iff, Option.pure_def,
      Option.some.injEq] at h
    obtain ⟨f, -, x, -, t, ht, b, -, c, -, e, he, s, hs, rfl⟩ := h
    exact ⟨(gives_types n).2.required ht, (Expr.gives n).optional he,
      (Span.gives.flat n).orElse Span.inRange_default hs⟩

theorem Param.gives (n : Nat) : Gives (Param.read n) Param.InRange := by
  intro j v h
  cases n with
  | zero => cases h
  | succ n =>
    simp only [Param.read, Option.bind_eq_bind, Option.bind_eq_some_iff, Option.pure_def,
      Option.some.injEq] at h
    obtain ⟨f, -, x, -, t, ht, b, -, s, hs, rfl⟩ := h
    exact ⟨(gives_types n).2.required ht, (Span.gives.flat n).orElse Span.inRange_default hs⟩

theorem Function.gives (n : Nat) : Gives (Function.read n) Function.InRange := by
  intro j v h
  cases n with
  | zero => cases h
  | succ n =>
    simp only [Function.read, Stmt.readList_eq, Option.bind_eq_bind, Option.bind_eq_some_iff,
      Option.pure_def, Option.some.injEq] at h
    obtain ⟨f, -, x, -, k, -, v, -, m, -, ps, hps, rs, hrs, body, hbody, s, hs, rfl⟩ := h
    exact ⟨(Gives.list fun m _ => Param.gives m).orElse (by simp) hps,
      (Gives.list fun m _ => (gives_types m).2).orElse (by simp) hrs,
      (Gives.list fun m _ => Stmt.gives m).orElse (by simp) hbody,
      (Span.gives.flat n).orElse Span.inRange_default hs⟩

theorem Contract.gives (n : Nat) : Gives (Contract.read n) Contract.InRange := by
  intro j v h
  cases n with
  | zero => cases h
  | succ n =>
    simp only [Contract.read, Option.bind_eq_bind, Option.bind_eq_some_iff, Option.pure_def,
      Option.some.injEq] at h
    obtain ⟨f, -, x, -, vs, hvs, fs, hfs, s, hs, rfl⟩ := h
    exact ⟨(Gives.list fun m _ => StateVar.gives m).orElse (by simp) hvs,
      (Gives.list fun m _ => Function.gives m).orElse (by simp) hfs,
      (Span.gives.flat n).orElse Span.inRange_default hs⟩

end Source

namespace SourceUnit

/-- Places, widths and lengths are numbers that their words can hold. -/
def InRange (u : SourceUnit) : Prop := ∀ c ∈ u.contracts, c.InRange

theorem ofJson?_toJson {u : SourceUnit} (hr : u.InRange) : ofJson? u.toJson = some u := by
  have hlist := Reads.list (fun c hc => Source.Contract.reads (hr c hc)) _ (Nat.le_refl _)
  simp [ofJson?, toJson, read, hlist]

theorem inRange_of_ofJson? {j : Json} {u : SourceUnit} (h : ofJson? j = some u) : u.InRange := by
  unfold ofJson? at h
  cases hn : j.depth with
  | zero =>
    rw [hn] at h
    cases h
  | succ n =>
    simp only [hn, read, Option.bind_eq_bind, Option.bind_eq_some_iff, Option.pure_def,
      Option.some.injEq] at h
    obtain ⟨f, -, cs, hcs, rfl⟩ := h
    exact (Gives.list fun m _ => Source.Contract.gives m).required hcs

/-- Exactly the units whose numbers fit are read from what is written for them. Whatever form a unit
was read from, writing it and reading again gives the same unit. -/
theorem reads_written (u : SourceUnit) :
    (ofJson? u.toJson = some u ↔ u.InRange) ∧
      ∀ j, ofJson? j = some u → ofJson? u.toJson = some u :=
  ⟨⟨inRange_of_ofJson?, ofJson?_toJson⟩, fun _ h => ofJson?_toJson (inRange_of_ofJson? h)⟩

/-- A unit with a place given as an array, a variant given as an object, and a decimal with a sign, an
underscore and white space; what is missing has its default. -/
def terse : Json :=
  .obj [("contracts", .arr [.obj [("name", .str "Terse"),
    ("state_vars", .arr [.arr [.str "x", .obj [("ty", .obj [("bool", .null)])]]]),
    ("functions", .arr [.obj [("name", .str "f"),
      ("body", .arr [.obj [("kind", .obj [("return",
        .obj [("kind", .obj [("number", .str " +1_0 ")]), ("span", .arr [.int 3, .int 4])])])]])]])]])]

/-- The unit with all its fields. -/
def explicit : SourceUnit := ⟨[{
  name := "Terse"
  stateVars := [{ name := "x", type := .mk .bool .all }]
  functions := [{ name := "f", body := [.ret {} (some (.number ⟨3, 4⟩ 10))] }] }]⟩

theorem reads_written_terse :
    ofJson? terse = some explicit ∧ ofJson? explicit.toJson = some explicit := by
  have h : ofJson? terse = some explicit := by cbv
  exact ⟨h, (reads_written explicit).2 terse h⟩

end SourceUnit

end Shroud
