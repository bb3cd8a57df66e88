import Mathlib
import Shroud.Main
import Shroud.Proofs.Success

/-! # What rendering shows

A statement is rendered with all its expressions. Only the head of a `for` has no room for more than
declarations, assignments and expressions: a statement of another kind is left out there, and nothing in
the text tells of it.
-/

namespace Shroud

namespace Solidity

/-- A text is part of another one. -/
def Within (a b : String) : Prop := a.toList <:+: b.toList

namespace Within

variable {a b : String}

theorem refl (a : String) : Within a a := List.infix_rfl

theorem left (h : Within a b) (c : String) : Within a (c ++ b) := by
  rw [Within, String.toList_append]
  exact List.infix_append_of_infix_right h

theorem right (h : Within a b) (c : String) : Within a (b ++ c) := by
  rw [Within, String.toList_append]
  exact List.infix_append_of_infix_left h

end Within

namespace Stmt

/-- Whether the head of a `for` has room for a statement. -/
def isSimple : Stmt → Bool
  | .decl .. | .assign .. | .expr _ => true
  | _ => false

/-- The statements in the head of a loop. -/
def head : Stmt → List Stmt
  | .forLoop init _ update _ => init.toList ++ update.toList
  | _ => []

theorem within_renderSimple {s : Stmt} (h : s.isSimple) :
    ∀ e ∈ s.exprs, Within e.render s.renderSimple := by
  intro e he
  cases s with
  | decl t name loc init =>
    obtain rfl : init = some e := by simpa [exprs] using he
    exact ((Within.refl _).left " = ").left _
  | assign lhs rhs =>
    rcases (by simpa [exprs] using he : e = lhs ∨ e = rhs) with rfl | rfl
    · exact ((Within.refl _).right _).right _
    · exact (Within.refl _).left _
  | expr x =>
    obtain rfl : e = x := by simpa [exprs] using he
    exact .refl _
  | _ => cases h

mutual

/-- Whether the heads of all loops have room for what is in them. -/
def headsSimple : Stmt → Bool
  | .block body | .loop _ body | .doLoop body _ => headsSimpleList body
  | .cond _ yes no => headsSimpleList yes && headsSimpleElse no
  | .forLoop init _ update body => init.all isSimple && update.all isSimple && headsSimpleList body
  | _ => true

def headsSimpleList : List Stmt → Bool
  | [] => true
  | s :: ss => s.headsSimple && headsSimpleList ss

def headsSimpleElse : Option (List Stmt) → Bool
  | none => true
  | some no => headsSimpleList no

end

theorem within_part {part : Option Stmt} (h : part.all isSimple) {e : Expr}
    (he : e ∈ exprsOption part) : Within e.render ((part.map renderSimple).getD "") := by
  cases part with
  | none => cases he
  | some s => exact within_renderSimple h e he

theorem within_forHead {init update : Option Stmt} {c : Option Expr} (hi : init.all isSimple)
    (hu : update.all isSimple) :
    ∀ e ∈ exprsOption init ++ c.toList ++ exprsOption update, Within e.render (forHead init c update) := by
  intro e he
  rcases (by simpa [or_assoc] using he :
    e ∈ exprsOption init ∨ c = some e ∨ e ∈ exprsOption update) with he | rfl | he
  · exact ((((((within_part hi he).left _).right _).right _).right _).right _).right _
  · exact ((((Within.refl _).left _).right _).right _).right _
  · exact ((within_part hu he).left _).right _

/-- What the head of a `for` shows of a statement. -/
theorem shown_iff (s : Stmt) : (s.renderSimple ≠ "" ∧ ∀ e ∈ s.exprs, Within e.render s.renderSimple) ↔
    s.isSimple ∧ s.renderSimple ≠ "" := by
  refine ⟨fun h => ⟨?_, h.1⟩, fun h => ⟨h.2, within_renderSimple h.1⟩⟩
  cases s <;> first | rfl | exact absurd rfl h.1

/-- Expressions are seen in some lines. -/
def Seen (ls : List Line) (es : List Expr) : Prop := ∀ e ∈ es, ∃ l ∈ ls, Within e.render l.text

namespace Seen

variable {ls ls' : List Line} {l : Line} {es es' : List Expr}

theorem mono (h : Seen ls es) (hs : ls ⊆ ls') : Seen ls' es :=
  fun e he => (h e he).imp fun _ hl => ⟨hs hl.1, hl.2⟩

theorem append (h : Seen ls es) (h' : Seen ls es') : Seen ls (es ++ es') :=
  List.forall_mem_append.2 ⟨h, h'⟩

theorem of_line (hl : l ∈ ls) (h : ∀ e ∈ es, Within e.render l.text) : Seen ls es :=
  fun e he => ⟨l, hl, h e he⟩

/-- An expression is seen in the first line. -/
theorem cons {e : Expr} (hl : Within e.render l.text) (h : Seen (l :: ls) es) :
    Seen (l :: ls) (e :: es) :=
  List.forall_mem_cons.2 ⟨⟨l, by simp, hl⟩, h⟩

end Seen

mutual

theorem seen_lines : ∀ (s : Stmt) (level : Nat), s.headsSimple → Seen (s.lines level) s.exprs
  | .block body, level, h => (seen_linesList body (level + 1) h).mono (by simp [lines])
  | .cond c yes no, level, h => by
    obtain ⟨hyes, hno⟩ := Bool.and_eq_true_iff.1 h
    refine .append (.cons (((Within.refl _).left _).right _) ?_) ?_
    · exact (seen_linesList yes (level + 1) hyes).mono (by simp)
    · exact (seen_linesElse no level hno).mono fun _ hl => by simp [lines, hl]
  | .loop c body, level, h => by
    refine .cons (((Within.refl _).left _).right _) ?_
    exact (seen_linesList body (level + 1) h).mono (by simp)
  | .doLoop body c, level, h => by
    have hc : Seen [⟨level, "\x7d while (" ++ c.render ++ ");"⟩] [c] :=
      .cons (((Within.refl _).left _).right _) nofun
    refine (hc.mono (List.subset_append_right _ _)).append ?_
    exact (seen_linesList body (level + 1) h).mono (by simp)
  | .forLoop init c update body, level, h => by
    obtain ⟨hhead, hbody⟩ := Bool.and_eq_true_iff.1 h
    obtain ⟨hi, hu⟩ := Bool.and_eq_true_iff.1 hhead
    refine .append (.of_line (List.mem_cons_self ..) fun e he => (within_forHead hi hu e he).right _) ?_
    exact (seen_linesList body (level + 1) hbody).mono (by simp [lines])
  | .decl .., _, _ | .assign .., _, _ | .expr _, _, _ =>
    .of_line (List.mem_singleton_self _) fun e he => (within_renderSimple rfl e he).right _
  | .require _, _, _ | .ret (some _), _, _ => .cons (((Within.refl _).left _).right _) nofun
  | .ret none, _, _ | .comment _, _, _ | .leave, _, _ | .next, _, _ => nofun

theorem seen_linesList : ∀ (ss : List Stmt) (level : Nat), headsSimpleList ss →
    Seen (linesList level ss) (exprsList ss)
  | [], _, _ => nofun
  | s :: ss, level, h => by
    obtain ⟨hs, hss⟩ := Bool.and_eq_true_iff.1 h
    refine .append ((seen_lines s level hs).mono ?_) ((seen_linesList ss level hss).mono ?_)
    · exact List.subset_append_left _ _
    · exact List.subset_append_right _ _

theorem seen_linesElse : ∀ (no : Option (List Stmt)) (level : Nat), headsSimpleElse no →
    Seen (linesElse level no) (exprsElse no)
  | none, _, _ => nofun
  | some no, level, h => (seen_linesList no (level + 1) h).mono (by simp [linesElse])

end

/-- **Rendering loses what the head of a `for` has no room for.** In the head of a `for` there is something
of a statement, with all its expressions, if and only if it is a declaration, an assignment or an
expression that is not empty. Where this is so in all heads, all expressions are rendered. -/
theorem rendering_shows (s : Stmt) :
    ((s.renderSimple ≠ "" ∧ ∀ e ∈ s.exprs, Within e.render s.renderSimple) ↔
      s.isSimple ∧ s.renderSimple ≠ "") ∧
    (s.headsSimple → ∀ level, ∀ e ∈ s.exprs, ∃ l ∈ s.lines level, Within e.render l.text) :=
  ⟨shown_iff s, fun h level => seen_lines s level h⟩

end Stmt

end Solidity

/-- A loop starts with a requirement. -/
def dropped : SourceUnit := .single "Dropped" [] [
  { name := "f"
    params := [{ name := "ok", type := .mk .bool .all }]
    body := [.forLoop {} (some (.require {} "ok")) (some "ok") none
      (.block {} [.leave {}])] }]

theorem SourceUnit.dropped_unseen : ∃ out, Passes (dropped.compile {}) out ∧
    ∃ k ∈ out.contracts, ∃ f ∈ k.functions, ∃ s ∈ f.body, ∃ part ∈ s.head,
      part.exprs.length = 1 ∧ part.renderSimple = "" :=
  Passes.exists_of_decide (by decide +kernel)

end Shroud
