import Utterance.Proofs.Compile.Building
import Utterance.Proofs.Compile.Rewriting
import Utterance.Proofs.Wording.Cutting

/-!
# Templates in another case

A tree with cased words is built step by step as the tree is, and its graph subdivides that of
the tree (`build_recased`, one case per kind of tree).  Only a word that says itself is built in
another way: it gets a substitution, and what had been said on its edge is said on an edge of
its own (`recased_word_cut`).  A word inside a substitution has nothing to say in either graph, and
one that has a substitution keeps it (`recased_word`).

So the paths through both graphs correspond.  The same labels are said on them, and what is heard
is the same in the other case (`Casing.build_expr`).
-/

namespace Utterance

open Utterance.Graph

/-! ## Building both graphs -/

/-- Two results of building on graphs with `n` states in the first of them: both have stopped, or
the second graph still subdivides the first, where the old states have kept their places and the
states that are given are in each other's. -/
inductive Built.Recased (c : Casing) (place : Nat → Nat) (n : Nat) {α : Type}
    (states : α → List Nat) : Built α → Built α → Prop where
  | done {g h : Graph} {x y : α} {place' : Nat → Nat} :
      Subdivides c.cut place' g h → n ≤ g.size → (∀ a < n, place' a = place a) →
      (∀ a ∈ states x, a < g.size) → states y = (states x).map place' →
      Recased c place n states (.done g x) (.done h y)
  | stopped {g h : Graph} {e e' : ReferenceError} :
      Recased c place n states (.stopped g e) (.stopped h e')

namespace Built.Recased

variable {c : Casing} {place place' : Nat → Nat} {m n : Nat} {α β : Type} {states : α → List Nat}
  {states' : β → List Nat}

theorem mono {b b' : Built α} (R : Recased c place' m states b b') (hn : n ≤ m)
    (hplace : ∀ a < n, place' a = place a) : Recased c place n states b b' := by
  cases R with
  | stopped => exact .stopped
  | done S hm hkept hstates heq =>
      exact .done S (Nat.le_trans hn hm)
        (fun a ha => (hkept a (Nat.lt_of_lt_of_le ha hn)).trans (hplace a ha)) hstates heq

theorem andThen {b b' : Built α} {f k : Graph → α → Built β} (R : Recased c place n states b b')
    (hf : ∀ {g h x y place'}, Subdivides c.cut place' g h → (∀ a ∈ states x, a < g.size) →
      states y = (states x).map place' → n ≤ g.size → (∀ a < n, place' a = place a) →
      Recased c place' g.size states' (f g x) (k h y)) :
    Recased c place n states' (b.andThen f) (b'.andThen k) := by
  cases R with
  | stopped => exact .stopped
  | done S hn hkept hstates heq => exact (hf S hstates heq hn hkept).mono hn hkept

end Built.Recased

/-- A state and what is built from it on, in both graphs. -/
abbrev Built.RecasedState (c : Casing) (place : Nat → Nat) (n : Nat) :
    Built Nat → Built Nat → Prop := Built.Recased c place n fun s => [s]

abbrev Built.RecasedStates (c : Casing) (place : Nat → Nat) (n : Nat) :
    Built (List Nat) → Built (List Nat) → Prop := Built.Recased c place n id

section

variable {c : Casing} {place : Nat → Nat} {g h : Graph} {s n : Nat}

theorem Built.recasedState_done {x : Nat} {place' : Nat → Nat} (S : Subdivides c.cut place' g h)
    (hn : n ≤ g.size) (hplace : ∀ a < n, place' a = place a) (hx : x < g.size) :
    Built.RecasedState c place n (.done g x) (.done h (place' x)) :=
  .done S hn hplace (List.forall_mem_singleton.mpr hx) rfl

/-- Going on from the state that has been built. -/
theorem Built.RecasedState.andThen {β : Type} {states : β → List Nat} {b b' : Built Nat}
    {f k : Graph → Nat → Built β} (R : RecasedState c place n b b')
    (hf : ∀ {g h x place'}, Subdivides c.cut place' g h → x < g.size → n ≤ g.size →
      (∀ a < n, place' a = place a) →
      Recased c place' g.size states (f g x) (k h (place' x))) :
    Recased c place n states (b.andThen f) (b'.andThen k) :=
  Recased.andThen R fun S hstates heq hn hplace => by
    obtain rfl := List.singleton_inj.mp heq
    exact hf S (hstates _ (List.mem_singleton_self _)) hn hplace

/-- One new state, at the end of the second graph. -/
theorem Built.recasedState_update {g' h' : Graph} {k : Nat}
    (S : Subdivides c.cut (Function.update place g.size k) g' h') (hsize : g'.size = g.size + 1) :
    Built.RecasedState c place g.size (.done g' g.size) (.done h' k) := by
  have hkept : ∀ a < g.size, Function.update place g.size k a = place a := fun a ha =>
    Function.update_of_ne (Nat.ne_of_lt ha) _ _
  have hlast : g.size < g'.size := hsize ▸ Nat.lt_succ_self _
  have R := Built.recasedState_done S (Nat.le_of_lt hlast) hkept hlast
  rwa [Function.update_self] at R

/-- Says the labels, from the state on. -/
def Built.emitted (labels : List String) (g : Graph) (s : Nat) : Built Nat :=
  .done (g.emitAll s labels).1 (g.emitAll s labels).2

theorem recased_emitted (labels : List String) (S : Subdivides c.cut place g h) (hs : s < g.size) :
    Built.RecasedState c place g.size (Built.emitted labels g s)
      (Built.emitted labels h (place s)) := by
  induction labels generalizing g h s place with
  | nil => exact Built.recasedState_done S (Nat.le_refl _) (fun _ _ => rfl) hs
  | cons label rest ih =>
      have R := Built.recasedState_update (S.emit hs label) (size_emit g s label)
      exact R.andThen (f := Built.emitted rest) (k := Built.emitted rest) fun S hs _ _ => ih S hs

/-- What is said before, the content, and what is said after. -/
theorem Built.wrap_eq (hidden : Bool) (suffix : Suffix) (tag : Option Tag) (g : Graph) (s : Nat)
    (content : Graph → Nat → Built Nat) :
    Built.wrap hidden suffix tag g s content =
      (Built.emitted (labelsBefore suffix tag) g s).andThen fun g s =>
        (content g s).andThen (Built.emitted (labelsAfter hidden suffix tag)) := rfl

theorem recased_wrap {content content' : Graph → Nat → Built Nat} (hidden : Bool) (suffix : Suffix)
    (tag : Option Tag)
    (hcontent : ∀ {g h s place}, Subdivides c.cut place g h → s < g.size →
      Built.RecasedState c place g.size (content g s) (content' h (place s)))
    (S : Subdivides c.cut place g h) (hs : s < g.size) :
    Built.RecasedState c place g.size (Built.wrap hidden suffix tag g s content)
      (Built.wrap hidden suffix tag h (place s) content') := by
  rw [Built.wrap_eq, Built.wrap_eq]
  exact (recased_emitted (labelsBefore suffix tag) S hs).andThen fun S hs _ _ =>
    (hcontent S hs).andThen fun S hs _ _ => recased_emitted _ S hs

theorem Built.RecasedStates.joined {content content' : Built (List Nat)}
    (R : RecasedStates c place n content content') :
    RecasedState c place n content.joined content'.joined :=
  Recased.andThen R fun {g h xs ys place'} S hxs heq hn hplace => by
    obtain rfl : ys = xs.map place' := heq
    exact recasedState_update (S.join hxs) (join_spec S.before hxs).2.1

/-! ### Words -/

/-- A word whose edge stays whole, with the same labels around it. -/
theorem recased_word_whole {hidden : Bool} {text : String} {suffix suffix' : Suffix}
    {tag : Option Tag} {r r' : Bool}
    (hcut : c.cut ⟨text, if r then "" else Label.pack text⟩ =
      .whole ⟨c.apply text, if r' then "" else Label.pack (c.apply text)⟩)
    (hbefore : labelsBefore suffix' tag = labelsBefore suffix tag)
    (hafter : labelsAfter hidden suffix' tag = labelsAfter hidden suffix tag)
    (S : Subdivides c.cut place g h) (hs : s < g.size) :
    Built.RecasedState c place g.size
      (Built.wrap hidden suffix tag g s (Built.word r text))
      (Built.wrap hidden suffix' tag h (place s) (Built.word r' (c.apply text))) := by
  have hwrap : Built.wrap hidden suffix' tag h (place s) (Built.word r' (c.apply text)) =
      Built.wrap hidden suffix tag h (place s) (Built.word r' (c.apply text)) := by
    unfold Built.wrap
    rw [hbefore, hafter]
  rw [hwrap]
  exact recased_wrap hidden suffix tag (fun S hs =>
    Built.recasedState_update (S.addWord hs hcut) (size_addWord _ _ _ _)) S hs

/-- A word that says itself and whose text changes. -/
theorem recased_word_cut {text : String} {suffix : Suffix} {tag : Option Tag}
    (hchanges : ¬c.Keeps text) (hown : suffix.substitution = none)
    (htag : tagSubstitution tag = none) (S : Subdivides c.cut place g h) (hs : s < g.size) :
    Built.RecasedState c place g.size
      (Built.wrap false suffix tag g s (Built.word false text))
      (Built.wrap false { suffix with substitution := some [text] } tag h (place s)
        (Built.word true (c.apply text))) := by
  have hafter : labelsAfter false { suffix with substitution := some [text] } tag =
      text :: labelsAfter false suffix tag := by
    simp [labelsAfter, ownWords, hown, htag]
  rw [Built.wrap_eq, Built.wrap_eq, hafter]
  refine (recased_emitted (labelsBefore suffix tag) S hs).andThen fun {g h s place} S hs _ _ => ?_
  have R := Built.recasedState_update (S.cutWord hs hchanges) (size_addWord g s _ _)
  rw [← size_addWord h (place s) (c.apply text) ""] at R
  exact R.andThen (f := Built.emitted _) (k := Built.emitted _) fun S hs _ _ =>
    recased_emitted _ S hs

/-- Where a word is hidden or replaced, a substitution for it makes no difference: it has one, which
stays, or none is said. -/
theorem ownWords_getD {hidden : Bool} {suffix : Suffix} {tag : Option Tag}
    (hquiet : (hidden || isReplaced suffix tag) = true) (words : List String) :
    ownWords hidden { suffix with substitution := some (suffix.substitution.getD words) } tag =
      ownWords hidden suffix tag := by
  rw [ownWords, ownWords]
  split
  next => rfl
  next hsaid =>
    rw [Bool.or_eq_true, not_or, Bool.not_eq_true, Bool.not_eq_true] at hsaid
    rw [isReplaced, hsaid.1, hsaid.2, Bool.false_or, Bool.or_false] at hquiet
    obtain ⟨own, hown⟩ := Option.isSome_iff_exists.mp hquiet
    rw [hown]
    rfl

theorem recased_word (expand hidden : Bool) (text : String) (suffix : Suffix) (tag : Option Tag)
    (S : Subdivides c.cut place g h) (hs : s < g.size) :
    Built.RecasedState c place g.size (build expand hidden g s (.word text suffix tag))
      (build expand hidden h (place s) (c.tree text suffix tag)) := by
  rw [build, Casing.tree, build]
  by_cases hkeeps : c.Keeps text
  · rw [Casing.suffixOf_of_keeps hkeeps]
    have hcased : c.apply text = text := hkeeps
    refine recased_word_whole ?_ rfl rfl S hs
    rw [hcased]
    exact Casing.cut_of_keeps hkeeps
  rw [Casing.suffixOf_of_not_keeps hkeeps]
  have hreplaced : (hidden || isReplaced
      { suffix with substitution := some (suffix.substitution.getD [text]) } tag) = true :=
    Bool.or_eq_true_iff.mpr (.inr rfl)
  rw [hreplaced]
  by_cases hquiet : (hidden || isReplaced suffix tag) = true
  · rw [hquiet]
    refine recased_word_whole (c.cut_unsaid text) rfl ?_ S hs
    rw [labelsAfter, labelsAfter, ownWords_getD hquiet]
  · rw [Bool.or_eq_true, isReplaced, Bool.or_eq_true, not_or, not_or, Bool.not_eq_true,
      Bool.not_eq_true, Bool.not_eq_true, Option.isSome_eq_false_iff, Option.isSome_eq_false_iff,
      Option.isNone_iff_eq_none, Option.isNone_iff_eq_none] at hquiet
    obtain ⟨rfl, hown, htag⟩ := hquiet
    have hword : (false || isReplaced suffix tag) = false := by
      rw [isReplaced, hown, htag]
      rfl
    rw [hword, hown]
    exact recased_word_cut hkeeps hown htag S hs

end

/-! ### Trees -/

mutual

/-- The graph of a tree with cased words subdivides that of the tree. -/
theorem build_recased (c : Casing) (expand : Bool) : ∀ (t : Tree) {hidden : Bool} {g h : Graph}
    {s : Nat} {place : Nat → Nat}, Subdivides c.cut place g h → s < g.size →
      Built.RecasedState c place g.size (build expand hidden g s t)
        (build expand hidden h (place s) (t.mapWords c.tree))
  | .word text suffix tag, hidden, g, h, s, place, S, hs => by
      rw [Tree.mapWords]
      exact recased_word expand hidden text suffix tag S hs
  | .seq .group items suffix tag, hidden, g, h, s, place, S, hs => by
      rw [Tree.mapWords, build, build]
      exact recased_wrap hidden suffix tag
        (fun S hs => buildInTurn_recased c expand items S hs) S hs
  | .seq .alternative items suffix tag, hidden, g, h, s, place, S, hs => by
      rw [Tree.mapWords, build, build]
      exact recased_wrap hidden suffix tag
        (fun S hs => (buildEach_recased c expand items S hs).joined) S hs
  | .rule key [] tag, hidden, g, h, s, place, S, hs => by
      rw [Tree.mapWords, Tree.mapWordsOf, build, build]
      exact recased_wrap hidden {} tag (fun _ _ => .stopped) S hs
  | .rule key (body :: _) tag, hidden, g, h, s, place, S, hs => by
      rw [Tree.mapWords, Tree.mapWordsOf, build, build]
      exact recased_wrap hidden {} tag (fun S hs => build_recased c expand body S hs) S hs
  | .slot name values suffix tag, hidden, g, h, s, place, S, hs => by
      rw [Tree.mapWords, build, build]
      refine recased_wrap hidden suffix tag (fun {g h s place} S hs => ?_) S hs
      refine Built.RecasedState.andThen ?_ fun S hs _ _ =>
        Built.recasedState_update (S.emit hs _) (size_emit _ _ _)
      cases expand with
      | false => exact Built.recasedState_done S (Nat.le_refl _) (fun _ _ => rfl) hs
      | true =>
          cases values with
          | nil => exact .stopped
          | cons value values => exact (buildEach_recased c true (value :: values) S hs).joined
  | .broken e, hidden, g, h, s, place, S, hs => by
      rw [Tree.mapWords, build, build]
      exact .stopped

theorem buildInTurn_recased (c : Casing) (expand : Bool) : ∀ (ts : List Tree) {hidden : Bool}
    {g h : Graph} {s : Nat} {place : Nat → Nat}, Subdivides c.cut place g h → s < g.size →
      Built.RecasedState c place g.size (buildInTurn expand hidden g s ts)
        (buildInTurn expand hidden h (place s) (Tree.mapWordsOf c.tree ts))
  | [], hidden, g, h, s, place, S, hs => by
      rw [Tree.mapWordsOf, buildInTurn, buildInTurn]
      exact Built.recasedState_done S (Nat.le_refl _) (fun _ _ => rfl) hs
  | t :: ts, hidden, g, h, s, place, S, hs => by
      rw [Tree.mapWordsOf, buildInTurn, buildInTurn]
      exact (build_recased c expand t S hs).andThen fun S hs _ _ =>
        buildInTurn_recased c expand ts S hs

theorem buildEach_recased (c : Casing) (expand : Bool) : ∀ (ts : List Tree) {hidden : Bool}
    {g h : Graph} {s : Nat} {place : Nat → Nat}, Subdivides c.cut place g h → s < g.size →
      Built.RecasedStates c place g.size (buildEach expand hidden g s ts)
        (buildEach expand hidden h (place s) (Tree.mapWordsOf c.tree ts))
  | [], hidden, g, h, s, place, S, hs => by
      rw [Tree.mapWordsOf, buildEach, buildEach]
      exact .done S (Nat.le_refl _) (fun _ _ => rfl) (fun _ ha => (List.not_mem_nil ha).elim) rfl
  | t :: ts, hidden, g, h, s, place, S, hs => by
      rw [Tree.mapWordsOf, buildEach, buildEach]
      refine (build_recased c expand t S hs).andThen fun {g' h' x place'} S' hx hn hplace => ?_
      rw [← hplace s hs]
      refine Built.Recased.andThen (buildEach_recased c expand ts S' (Nat.lt_of_lt_of_le hs hn))
        fun {g'' h'' xs ys place''} S'' hxs heq hn' hplace' => ?_
      obtain rfl : ys = xs.map place'' := heq
      rw [← hplace' x hx]
      exact .done S'' (Nat.le_refl _) (fun _ _ => rfl)
        (List.forall_mem_cons.mpr ⟨Nat.lt_of_lt_of_le hx hn', hxs⟩) rfl

end

/-! ## Compiling -/

theorem subdivides_initial (cut : Mark → Cut) :
    Subdivides cut id Graph.initial Graph.initial where
  before := ascending_initial
  after := ascending_initial
  lt_size h := h
  mono h _ := h
  between hm := by
    rw [Graph.mark?_initial] at hm
    cases hm
  mark_iff := by
    intro u v n
    simp only [Graph.mark?_initial]
    exact iff_of_false (by rintro ⟨⟩) (by rintro ⟨_, _, _, ⟨⟩, _⟩)

/-- An expression can be built if it can in the other case, with a table in that case.  Then the
paths through both graphs correspond one to one, so that the same labels are said on them and the
same words are heard, in the other case.  A path that matches word for word is told by its
edges, so there is one for each sequence of them. -/
theorem Casing.build_expr (c : Casing) (expand : Bool) (t : Table) (scope : Scope) (e : Expr) :
    ((∃ g x, build expand false Graph.initial 0 (unfold t scope e) = .done g x) ↔
      ∃ h y, build expand false Graph.initial 0
        (unfold (t.mapExprs c.expr) scope (c.expr e)) = .done h y) ∧
    ∀ g x h y, build expand false Graph.initial 0 (unfold t scope e) = .done g x →
      build expand false Graph.initial 0
        (unfold (t.mapExprs c.expr) scope (c.expr e)) = .done h y →
      ∃ f : Path → Path,
        Set.BijOn f {p | g.Follows Edge.Exactly 0 p x} {q | h.Follows Edge.Exactly 0 q y} ∧
        ∀ p, g.Follows Edge.Exactly 0 p x →
          labelsOf (h.marksOn (f p)) = labelsOf (g.marksOn p) ∧
          heardOf (h.marksOn (f p)) = (heardOf (g.marksOn p)).map c.apply := by
  have hunfold : unfold (t.mapExprs c.expr) scope (c.expr e) =
      (unfold t scope e).mapWords c.tree := unfold_mapWords c.unfold_word t scope e
  have R : Built.RecasedState c id 1 (build expand false Graph.initial 0 (unfold t scope e))
      (build expand false Graph.initial 0 ((unfold t scope e).mapWords c.tree)) :=
    build_recased c expand (unfold t scope e) (subdivides_initial c.cut) Nat.zero_lt_one
  rw [hunfold]
  constructor
  · rw [exists_build_iff, exists_build_iff]
    have hword : ∀ text suffix tag, (c.tree text suffix tag).Buildable expand :=
      fun _ _ _ => trivial
    exact (buildable_mapWords hword _).symm
  · intro g x h y hg hh
    rw [hg, hh] at R
    cases R with
    | done S hn hplace hstates heq =>
        obtain rfl := List.singleton_inj.mp heq
        have hstart := hplace 0 Nat.zero_lt_one
        have hbij := S.bijOn (Nat.lt_of_lt_of_le Nat.zero_lt_one hn)
          (hstates x (List.mem_singleton_self x))
        rw [hstart] at hbij
        refine ⟨_, hbij, fun p hp => ?_⟩
        rw [S.marksOn_subdivide hp]
        exact ⟨c.labelsOf_cut _, c.heardOf_cut _⟩

/-! ## A word that changes and one that is replaced -/

/-- `(Red|Green:lime){tint}`. -/
def tintExpr : Expr :=
  .seq .alternative "Red|Green:lime"
    [.plain "Red", .word "Green" { substitution := some ["lime"] } none] {}
    (some { name := "tint" })

def tintGraph : Graph where
  nodes := #[⟨none, #[0]⟩, ⟨none, #[1, 2]⟩, ⟨some "Red", #[4]⟩, ⟨some "Green", #[3]⟩, ⟨none, #[5]⟩,
    ⟨none, #[6]⟩, ⟨none, #[]⟩]
  edges := #[{ source := 0, target := 1, output := "__begin__tint" },
    { source := 1, target := 2, input := "Red", output := "Red" },
    { source := 1, target := 3, input := "Green" },
    { source := 3, target := 4, output := "lime" },
    { source := 2, target := 5 },
    { source := 4, target := 5 },
    { source := 5, target := 6, output := "__end__tint" }]
  start := some 0

def lowerTintGraph : Graph where
  nodes := #[⟨none, #[0]⟩, ⟨none, #[1, 3]⟩, ⟨some "red", #[2]⟩, ⟨none, #[5]⟩, ⟨some "green", #[4]⟩,
    ⟨none, #[6]⟩, ⟨none, #[7]⟩, ⟨none, #[]⟩]
  edges := #[{ source := 0, target := 1, output := "__begin__tint" },
    { source := 1, target := 2, input := "red" },
    { source := 2, target := 3, output := "Red" },
    { source := 1, target := 4, input := "green" },
    { source := 4, target := 5, output := "lime" },
    { source := 3, target := 6 },
    { source := 5, target := 6 },
    { source := 6, target := 7, output := "__end__tint" }]
  start := some 0

def tintScope : Scope := { intent := "Lamp" }

def tintTree : Tree :=
  .seq .alternative
    [.word "Red" {} none, .word "Green" { substitution := some ["lime"] } none] {}
    (some { name := "tint" })

theorem unfold_tintExpr : unfold [] tintScope tintExpr = tintTree := by
  simp [tintExpr, tintTree, unfold, unfoldAll, Expr.plain]

theorem build_tintExpr :
    build true false Graph.initial 0 (unfold [] tintScope tintExpr) = .done tintGraph 6 := by
  rw [unfold_tintExpr]
  rfl

theorem build_lower_tintExpr :
    build true false Graph.initial 0
      (unfold (Table.mapExprs Casing.lower.expr []) tintScope (Casing.lower.expr tintExpr)) =
        .done lowerTintGraph 7 := by
  have hunfold : unfold (Table.mapExprs Casing.lower.expr []) tintScope
      (Casing.lower.expr tintExpr) = tintTree.mapWords Casing.lower.tree := by
    rw [← unfold_tintExpr]
    exact unfold_mapWords Casing.lower.unfold_word [] tintScope tintExpr
  have hred : Casing.lower.apply "Red" = "red" := by decide
  have hgreen : Casing.lower.apply "Green" = "green" := by decide
  rw [hunfold, tintTree]
  simp only [Tree.mapWords, Tree.mapWordsOf, Casing.tree, Casing.suffixOf, hred, hgreen]
  rfl

def redTintPath : Path := [⟨0, 1, []⟩, ⟨1, 2, ["Red"]⟩, ⟨2, 5, []⟩, ⟨5, 6, []⟩]

theorem follows_redTintPath : tintGraph.Follows Edge.Exactly 0 redTintPath 6 :=
  .cons (e := tintGraph.edges[0]) rfl rfl <| .cons (e := tintGraph.edges[1]) rfl rfl <|
    .cons (e := tintGraph.edges[4]) rfl rfl <| .cons (e := tintGraph.edges[6]) rfl rfl <| .nil 6

/-- In lower case the word is heard in lower case and said as it was. -/
theorem red_in_lower_case :
    build true false Graph.initial 0 (unfold [] tintScope tintExpr) = .done tintGraph 6 ∧
      build true false Graph.initial 0
        (unfold (Table.mapExprs Casing.lower.expr []) tintScope (Casing.lower.expr tintExpr)) =
          .done lowerTintGraph 7 ∧
      ∃ q, lowerTintGraph.Follows Edge.Exactly 0 q 7 ∧
        labelsOf (lowerTintGraph.marksOn q) = ["__begin__tint", "Red", "__end__tint"] ∧
        heardOf (lowerTintGraph.marksOn q) = ["red"] := by
  obtain ⟨f, hbij, hsame⟩ := (Casing.lower.build_expr true [] tintScope tintExpr).2 _ _ _ _
    build_tintExpr build_lower_tintExpr
  obtain ⟨hlabels, hheard⟩ := hsame redTintPath follows_redTintPath
  refine ⟨build_tintExpr, build_lower_tintExpr, f redTintPath,
    hbij.mapsTo follows_redTintPath, hlabels.trans (by decide), hheard.trans ?_⟩
  decide

end Utterance
