import Mathlib.Algebra.BigOperators.Group.List.Basic
import Utterance.Proofs.Compile.Heads
import Utterance.Proofs.Template.Trees

/-!
# What adds up over trees

A quantity of trees adds up if that of a sequence is that of its items together.  The
reader moves trees between branches, levels and brackets, and none of this changes what
they come to together: the total of a level is that of its branches
(`Level.sumOf_branches`), brackets add at most an empty word
(`AddsUp.sum_map_of_sequences`), and what waits adds the words and slots that it is made
into (`Level.total_flush`).  So it is enough to say what a quantity is on tokens, rule
references and tags.
-/

namespace Utterance.Template

variable {M : Type} [AddCommMonoid M] {μ : Expr → M}

/-- What the trees in some branches come to. -/
def sumOf (μ : Expr → M) (branches : List (List Expr)) : M :=
  (branches.map fun branch => (branch.map μ).sum).sum

@[simp] theorem sumOf_nil : sumOf μ [] = 0 := rfl

@[simp] theorem sumOf_cons (branch : List Expr) (branches : List (List Expr)) :
    sumOf μ (branch :: branches) = (branch.map μ).sum + sumOf μ branches :=
  List.sum_cons

/-- A sequence comes to what its items come to. -/
def AddsUp (μ : Expr → M) : Prop :=
  ∀ kind text items suffix, μ (.seq kind text items suffix none) = (items.map μ).sum

theorem AddsUp.sum_map_of_mapM_branchExpr (hμ : AddsUp μ) {pos : Nat}
    {branches : List (List Expr)} {items : List Expr}
    (h : branches.mapM (branchExpr pos) = .ok items) :
    (items.map μ).sum = sumOf μ branches := by
  rw [sumOf, map_eq_map_of_mapM_eq_ok h fun branch e he => ?_]
  obtain rfl | ⟨x, rfl⟩ := branchExpr_eq_ok he
  · simp
  · exact hμ _ _ _ _

/-- Only square brackets add something, the empty word. -/
theorem AddsUp.sum_map_of_sequences (hμ : AddsUp μ) {pos : Nat} {branches : List (List Expr)}
    {b : Bracket} {r : SequenceKind × List Expr} (h : Sequences pos branches b r) :
    (r.2.map μ).sum = sumOf μ branches +
      if b = .square then μ Expr.emptyWord else 0 := by
  cases h with
  | group => simp
  | alternative hitems => simp [hμ.sum_map_of_mapM_branchExpr hitems]
  | empty => simp
  | optional hitems => simp [hμ.sum_map_of_mapM_branchExpr hitems]

/-- What is read comes to what its branches come to. -/
theorem AddsUp.sum_map_of_readItems (hμ : AddsUp μ) {grammar : Option String} {text : List Char}
    {items : List Expr} (h : readItems grammar text = .ok items) :
    ∃ branches, (Reading.start text).read grammar = .ok branches ∧
      (items.map μ).sum = sumOf μ branches := by
  obtain ⟨branches, hread, h⟩ := Except.bind_eq_ok_iff.mp h
  refine ⟨branches, hread, ?_⟩
  split at h
  · cases h
    simp
  · obtain ⟨items', hitems, h⟩ := Except.bind_eq_ok_iff.mp h
    cases h
    simp [hμ _ _ _ _, hμ.sum_map_of_mapM_branchExpr hitems]

namespace Level

variable (μ)

/-- What the trees in all branches come to. -/
def total (l : Level) : M := sumOf μ l.finished + (l.current.map μ).sum

@[simp] theorem total_empty : total μ {} = 0 := by
  simp [total]

@[simp] theorem total_push (e : Expr) (l : Level) : (l.push e).total μ = l.total μ + μ e := by
  rw [total, total, push, List.map_cons, List.sum_cons, add_comm (μ e), add_assoc]

@[simp] theorem total_nextBranch (l : Level) : l.nextBranch.total μ = l.total μ := by
  simp [total, nextBranch, add_comm]

theorem sumOf_branches (l : Level) : sumOf μ l.branches = l.total μ := by
  rw [branches, sumOf, List.map_reverse, List.sum_reverse, ← total_nextBranch]
  exact (add_zero _).symm

variable {μ}

/-- A bracket that is closed becomes one tree of the level around it. -/
theorem total_push_sequence (hμ : AddsUp μ) {inner : Level} {pos : Nat} {b : Bracket}
    {kind : SequenceKind} {items : List Expr} (h : Sequences pos inner.branches b (kind, items))
    (outer : Level) (text : String) (suffix : Suffix) :
    (outer.push (.seq kind text items suffix none)).total μ =
      outer.total μ + (inner.total μ + if b = .square then μ Expr.emptyWord else 0) := by
  rw [total_push, hμ, hμ.sum_map_of_sequences h, sumOf_branches]

/-- What waits adds what its tokens come to. -/
theorem total_flush {weight : List Glyph → M}
    (hweight : ∀ l e, tokenExpr l = .ok e → μ e = weight l) {r : Reading}
    (hflushes : r.flushes = true) {base : Level} (h : r.level.flush r.pending = .ok base) :
    base.total μ = r.level.total μ + (r.tokens.map weight).sum := by
  rw [flush, Reading.literalExprs_eq_mapM_tokens hflushes] at h
  obtain ⟨es, hes, h⟩ := Except.bind_eq_ok_iff.mp h
  cases h
  rw [← map_eq_map_of_mapM_eq_ok hes hweight, total, total, List.map_append, List.map_reverse,
    List.sum_append, List.sum_reverse, add_comm (es.map μ).sum, add_assoc]

end Level

/-- What all that has been read comes to. -/
def Reading.total (μ : Expr → M) (r : Reading) : M :=
  r.level.total μ + (r.frames.map fun f => f.outer.total μ).sum

theorem Reading.total_start (μ : Expr → M) (text : List Char) : (start text).total μ = 0 :=
  (add_zero _).trans (Level.total_empty μ)

end Utterance.Template
