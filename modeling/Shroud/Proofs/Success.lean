import Mathlib.Data.List.Forall2
import Shroud.Typing.Basic

/-! # Successful computations

The analyses are programs in monads with errors. A result of a composed computation comes from
results of its parts: `Yields` says so for a state that is lost on an error, and `Passes` for checks,
whose warnings are of no interest here.
-/

namespace Shroud

variable {ε σ α β : Type} {f : α → Except ε β} {xs : List α}

theorem bind_eq_ok {x : Except ε α} {b : β} : (x >>= f) = .ok b ↔ ∃ a, x = .ok a ∧ f a = .ok b := by
  cases x <;> simp [bind, Except.bind]

theorem any_toOption {x : Except ε α} {t : α → Bool} :
    x.toOption.any t = true ↔ ∃ a, x = .ok a ∧ t a = true := by
  cases x <;> simp [Except.toOption]

theorem forM_eq_ok {f : α → Except ε Unit} (h : xs.forM f = .ok ()) : ∀ x ∈ xs, f x = .ok () := by
  induction xs with
  | nil => exact nofun
  | cons x xs ih =>
    obtain ⟨_, hx, h⟩ := bind_eq_ok.1 (h : (f x >>= fun _ => xs.forM f) = .ok ())
    rw [List.forall_mem_cons]
    exact ⟨hx, ih h⟩

theorem mapM_eq_ok_iff {ys : List β} :
    xs.mapM f = .ok ys ↔ List.Forall₂ (fun x y => f x = .ok y) xs ys := by
  induction xs generalizing ys with
  | nil => simp [pure, Except.pure, eq_comm]
  | cons x xs ih =>
    rw [List.mapM_cons, bind_eq_ok]
    constructor
    · rintro ⟨y, hy, h⟩
      obtain ⟨ys', hys, h⟩ := bind_eq_ok.1 h
      cases h
      exact .cons hy (ih.1 hys)
    · rintro (_ | ⟨hy, hys⟩)
      exact ⟨_, hy, bind_eq_ok.2 ⟨_, ih.2 hys, rfl⟩⟩

/-- A check that is made only under a condition. -/
theorem check_eq_ok {c : Prop} [Decidable c] {x : Except ε Unit} {k : Unit → Except ε α} {a : α}
    (h : (if c then x >>= k else k ()) = .ok a) : (c → x = .ok ()) ∧ k () = .ok a := by
  split at h
  · obtain ⟨_, hx, hk⟩ := bind_eq_ok.1 h
    exact ⟨fun _ => hx, hk⟩
  · exact ⟨fun hc => absurd hc ‹_›, h⟩

/-- A computation succeeds, and takes one state to another. -/
def Yields (x : StateT σ (Except ε) α) (s : σ) (a : α) (t : σ) : Prop := x.run s = .ok (a, t)

namespace Yields

variable {s t : σ} {a : α} {b : β} {f : α → StateT σ (Except ε) β} {x : StateT σ (Except ε) α}
  {bs : List β} {u : PUnit} {xs : List α}

@[simp] theorem bind_iff : Yields (x >>= f) s b t ↔ ∃ a r, Yields x s a r ∧ Yields (f a) r b t := by
  unfold Yields
  rw [StateT.run_bind]
  cases h : x.run s with
  | error e => simp [bind, Except.bind]
  | ok q =>
    obtain ⟨a, r⟩ := q
    constructor
    · intro hf
      exact ⟨a, r, rfl, hf⟩
    · rintro ⟨_, _, hq, hf⟩
      cases hq
      exact hf

@[simp] theorem pure_iff {a' : α} :
    Yields (pure a : StateT σ (Except ε) α) s a' t ↔ a' = a ∧ t = s := by
  rw [Yields, StateT.run_pure]
  simp [pure, Except.pure, eq_comm]

@[simp] theorem map_iff {f : α → β} : Yields (f <$> x) s b t ↔ ∃ a, Yields x s a t ∧ b = f a := by
  rw [map_eq_pure_bind, bind_iff]
  simp only [pure_iff]
  constructor
  · rintro ⟨a, _, hx, rfl, rfl⟩
    exact ⟨a, hx, rfl⟩
  · rintro ⟨a, hx, rfl⟩
    exact ⟨a, t, hx, rfl, rfl⟩

theorem bind_pure_iff {f : α → β} :
    Yields (x >>= fun a => pure (f a)) s b t ↔ ∃ a, Yields x s a t ∧ b = f a := by
  rw [← map_eq_pure_bind, map_iff]

@[simp] theorem discard_iff : Yields (discard x) s u t ↔ ∃ a, Yields x s a t :=
  map_iff.trans ⟨fun ⟨a, hx, _⟩ => ⟨a, hx⟩, fun ⟨a, hx⟩ => ⟨a, hx, rfl⟩⟩

@[simp] theorem get_iff {r : σ} : Yields (get : StateT σ (Except ε) σ) s r t ↔ r = s ∧ t = s := by
  simp [Yields, pure, Except.pure, eq_comm]

@[simp] theorem set_iff {r : σ} : Yields (set r : StateT σ (Except ε) PUnit) s u t ↔ t = r := by
  simp [Yields, pure, Except.pure, eq_comm]

@[simp] theorem modify_iff {f : σ → σ} :
    Yields (modify f : StateT σ (Except ε) PUnit) s u t ↔ t = f s := by
  simp [Yields, pure, Except.pure, eq_comm]

@[simp] theorem modifyGet_iff {f : σ → α × σ} :
    Yields (modifyGet f : StateT σ (Except ε) α) s a t ↔ a = (f s).1 ∧ t = (f s).2 := by
  simp [Yields, pure, Except.pure, Prod.ext_iff, eq_comm]

@[simp] theorem throw_iff {e : ε} :
    Yields (throw e : StateT σ (Except ε) α) s a t ↔ False :=
  iff_false_intro fun h => by cases h

@[simp] theorem lift_iff {x : Except ε α} :
    Yields (liftM x : StateT σ (Except ε) α) s a t ↔ x = .ok a ∧ t = s := by
  cases x with
  | error e => simp [Yields, liftM, monadLift, MonadLift.monadLift, StateT.lift, bind, Except.bind,
      StateT.run]
  | ok q => simp [Yields, liftM, monadLift, MonadLift.monadLift, StateT.lift, bind, Except.bind,
      StateT.run, pure, Except.pure, eq_comm]

@[simp] theorem mapM_nil_iff : Yields ([].mapM f) s bs t ↔ bs = [] ∧ t = s := pure_iff

theorem mapM_cons_iff {x : α} :
    Yields ((x :: xs).mapM f) s bs t ↔
      ∃ b r cs, Yields (f x) s b r ∧ Yields (xs.mapM f) r cs t ∧ bs = b :: cs := by
  simp only [List.mapM_cons, bind_iff, pure_iff]
  constructor
  · rintro ⟨b, r, hb, cs, _, hcs, rfl, rfl⟩
    exact ⟨b, r, cs, hb, hcs, rfl⟩
  · rintro ⟨b, r, cs, hb, hcs, rfl⟩
    exact ⟨b, r, hb, cs, t, hcs, rfl, rfl⟩

theorem mapM_length (h : Yields (xs.mapM f) s bs t) : bs.length = xs.length := by
  induction xs generalizing s bs with
  | nil =>
    obtain ⟨rfl, -⟩ := mapM_nil_iff.1 h
    rfl
  | cons x xs ih =>
    obtain ⟨b, r, cs, -, hcs, rfl⟩ := mapM_cons_iff.1 h
    rw [List.length_cons, ih hcs, List.length_cons]

end Yields

/-- A check gives a result. -/
def Passes (x : Typing.Check α) (a : α) : Prop := ∃ w w', x.run.run w = (.ok a, w')

namespace Passes

variable {a : α} {b : β} {x : Typing.Check α} {f : α → Typing.Check β} {xs : List α}

theorem of_run {w : List Span} (h : (x.run.run w).1 = .ok a) : Passes x a :=
  ⟨w, (x.run.run w).2, Prod.ext h rfl⟩

/-- Whether a check passes with a result that satisfies a test. -/
def test (x : Typing.Check α) (t : α → Bool) : Bool := match (x.run.run []).1 with
  | .ok a => t a
  | .error _ => false

theorem of_test {t : α → Bool} (h : test x t = true) : ∃ a, Passes x a ∧ t a = true := by
  unfold test at h
  split at h
  · exact ⟨_, of_run ‹_›, h⟩
  · cases h

/-- A check passes with a result that satisfies a condition. -/
theorem exists_of_decide {P : α → Prop} [DecidablePred P] (h : test x (fun a => P a) = true) :
    ∃ a, Passes x a ∧ P a :=
  (of_test h).imp fun _ ha => ⟨ha.1, of_decide_eq_true ha.2⟩

/-- A check passes with a result that satisfies a condition, and what follows from it. -/
theorem exists_of_test {P Q : α → Prop} [DecidablePred P] (h : test x (fun a => P a) = true)
    (hQ : ∀ a, Passes x a → P a → Q a) : ∃ a, Passes x a ∧ P a ∧ Q a := by
  obtain ⟨a, ha, h⟩ := exists_of_decide h
  exact ⟨a, ha, h, hQ a ha h⟩

theorem bind (h : Passes (x >>= f) b) : ∃ a, Passes x a ∧ Passes (f a) b := by
  obtain ⟨w, w', h⟩ := h
  rw [ExceptT.run_bind, StateT.run_bind] at h
  rcases hx : x.run.run w with ⟨r, w''⟩
  rw [hx] at h
  cases r with
  | error e => cases h
  | ok a => exact ⟨a, ⟨w, w'', hx⟩, ⟨w'', w', h⟩⟩

theorem pure {a' : α} (h : Passes (pure a : Typing.Check α) a') : a' = a := by
  obtain ⟨w, w', h⟩ := h
  cases h
  rfl

theorem throw {e : Error} (h : Passes (throw e : Typing.Check α) a) : False := by
  obtain ⟨w, w', h⟩ := h
  cases h

theorem lift {x : Except Error α} (h : Passes (liftM x : Typing.Check α) a) : x = .ok a := by
  obtain ⟨w, w', h⟩ := h
  cases x <;> cases h
  rfl

/-- A check that goes on only where a condition fails. -/
theorem of_guard {c : Prop} [Decidable c] {e : Error} {k : β → Typing.Check α}
    (h : Passes (if c then MonadExcept.throw e >>= k else k b) a) : ¬ c ∧ Passes (k b) a := by
  split at h
  · obtain ⟨_, h, -⟩ := h.bind
    exact h.throw.elim
  · exact ⟨‹_›, h⟩

theorem mapM {ys : List β} (h : Passes (xs.mapM f) ys) :
    List.Forall₂ (fun x y => Passes (f x) y) xs ys := by
  induction xs generalizing ys with
  | nil =>
    obtain rfl := Passes.pure h
    exact .nil
  | cons x xs ih =>
    rw [List.mapM_cons] at h
    obtain ⟨y, hy, h⟩ := h.bind
    obtain ⟨ys, hys, h⟩ := h.bind
    obtain rfl := h.pure
    exact .cons hy (ih hys)

theorem forM {f : α → Typing.Check PUnit} {u : PUnit} (h : Passes (xs.forM f) u) :
    ∀ x ∈ xs, Passes (f x) ⟨⟩ := by
  induction xs with
  | nil => exact nofun
  | cons x xs ih =>
    obtain ⟨_, hx, h⟩ := Passes.bind (f := fun _ => xs.forM f) h
    simpa using ⟨hx, ih h⟩

end Passes

end Shroud
