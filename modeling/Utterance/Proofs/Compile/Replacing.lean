import Utterance.Proofs.Compile.Balance
import Utterance.Proofs.Compile.Pieces
import Utterance.Proofs.Search.Exact

/-!
# What a substitution replaces

Inside an expression with a substitution the words are hidden: they are heard and
say nothing.  Two things are said all the same.  The loop of a wildcard says what
it hears, and a tag's substitution is said wherever the tag stands.  `Tree.strays`
lists them.

A piece that is built while words are hidden says strays only (`Tree.says_piece`,
by induction on the tree), and what an expression says after it are the words of
its substitution.  So along every path, with any loops on it, strays come first and
then exactly these words (`said_of_substitution`); where there are none, the
substitution replaces all that is said.
-/

namespace Utterance

open Utterance.Graph

/-! ## What is said -/

/-- The label is not empty, and what it stands for is no control. -/
def Label.isSaid (label : String) : Bool :=
  label != "" && !(Label.unpack? label).any Label.isControl

/-- The labels among the outputs of marks that are said. -/
def saidLabels (ms : List Mark) : List String := (ms.map Mark.output).filter Label.isSaid

/-- The labels on a path that are said. -/
def Graph.saidLabelsOn (g : Graph) (p : Path) : List String :=
  (p.filterMap fun s => (g.edge? s.source s.target).map Edge.output).filter Label.isSaid

theorem saidLabels_append (l m : List Mark) :
    saidLabels (l ++ m) = saidLabels l ++ saidLabels m := by
  rw [saidLabels, List.map_append, List.filter_append, saidLabels, saidLabels]

/-- Passing over a silent mark leaves nothing out. -/
theorem saidLabels_spelled (m : Mark) : saidLabels m.spelled = [m.output].filter Label.isSaid := by
  rw [Mark.spelled]
  split
  next h =>
    subst h
    decide
  next => rfl

theorem saidLabels_saidMarks (labels : List String) :
    saidLabels (saidMarks labels) = (labels.map Label.pack).filter Label.isSaid := by
  induction labels with
  | nil => rfl
  | cons label labels ih =>
      rw [← List.singleton_append, saidMarks_append, saidLabels_append, ih, List.map_append,
        List.filter_append]
      refine congrArg (· ++ _) ?_
      rw [saidMarks, List.flatMap_singleton, saidLabels_spelled, List.map_singleton]

theorem Label.isSaid_pack_text (c : Control) : Label.isSaid (Label.pack c.text) = false := by
  rw [isSaid, unpack?_pack c.not_packed, Option.any_some, c.isControl_text]
  exact Bool.and_false _

theorem Label.isSaid_pack {label : String} (h : Label.isControl label = false) :
    Label.isSaid (Label.pack label) = (Label.pack label != "") := by
  rw [isSaid, unpack?_pack (not_mark_of_not_isControl h), Option.any_some, h]
  exact Bool.and_true _

/-- Controls are not said. -/
theorem filter_isSaid_controls (l : List Control) :
    ((l.map Control.text).map Label.pack).filter Label.isSaid = [] := by
  refine List.filter_eq_nil_iff.mpr fun label hlabel => ?_
  rw [List.map_map] at hlabel
  obtain ⟨c, -, rfl⟩ := List.mem_map.mp hlabel
  rw [Function.comp_apply, Label.isSaid_pack_text]
  exact Bool.false_ne_true

theorem saidLabels_labelsBefore (suffix : Suffix) (tag : Option Tag) :
    saidLabels (saidMarks (labelsBefore suffix tag)) = [] := by
  rw [saidLabels_saidMarks, labelsBefore_eq, filter_isSaid_controls]

theorem saidLabels_labelsAfter (hidden : Bool) (suffix : Suffix) (tag : Option Tag) :
    saidLabels (saidMarks (labelsAfter hidden suffix tag))
      = ((saidInstead hidden suffix tag).map Label.pack).filter Label.isSaid := by
  rw [saidLabels_saidMarks, labelsAfter_eq, List.map_append, List.filter_append,
    filter_isSaid_controls, List.append_nil]

theorem saidLabels_sourceMarks (name : String) : saidLabels (sourceMarks name) = [] := by
  rw [sourceMarks, saidLabels_saidMarks]
  exact filter_isSaid_controls [_]

/-- A hidden word says nothing. -/
theorem saidLabels_wordMarks_hidden (text : String) : saidLabels (wordMarks true text) = [] := by
  have hsilent : [""].filter Label.isSaid = [] := by decide
  rw [wordMarks, if_pos rfl, saidLabels_spelled]
  exact hsilent

/-! ## Strays -/

/-- What a tag says in place of its expression, packed. -/
def tagWords (tag : Option Tag) : List String := ((tagSubstitution tag).getD []).map Label.pack

mutual

/-- What is said in a tree although its words are hidden. -/
def Tree.strays (expand : Bool) : Tree → List String
  | .word text _ tag => (if text == wildcard then [wildcard] else []) ++ tagWords tag
  | .seq _ items _ tag => straysOf expand items ++ tagWords tag
  | .rule _ bodies tag =>
    (match bodies with
    | [] => []
    | body :: _ => Tree.strays expand body) ++ tagWords tag
  | .slot _ values _ tag => (if expand then straysOf expand values else []) ++ tagWords tag
  | .broken _ => []

def straysOf (expand : Bool) : List Tree → List String
  | [] => []
  | t :: ts => Tree.strays expand t ++ straysOf expand ts

end

/-- All that a piece says is listed. -/
structure Piece.Says (labels : List String) (p : Piece) : Prop where
  loop : p.opens = true → wildcard ∈ labels
  legs : ∀ ms ∈ p.legs, ∀ label ∈ saidLabels ms, label ∈ labels

namespace Piece.Says

variable {l m : List String} {p q : Piece}

theorem mono (h : p.Says l) (hsub : l ⊆ m) : p.Says m :=
  ⟨fun ho => hsub (h.loop ho), fun ms hms label hlabel => hsub (h.legs ms hms label hlabel)⟩

theorem still (l : List String) : Piece.still.Says l where
  loop h := absurd h Bool.false_ne_true
  legs ms hms label hlabel := by
    rw [(Language.mem_one ms).mp hms] at hlabel
    exact (List.not_mem_nil hlabel).elim

theorem nothing (l : List String) : (Piece.leads false 0).Says l where
  loop h := absurd h Bool.false_ne_true
  legs ms hms := (Language.notMem_zero ms hms).elim

theorem leads {opens : Bool} {ms : List Mark} (hloop : opens = true → wildcard ∈ l)
    (hms : ∀ label ∈ saidLabels ms, label ∈ l) : (Piece.leads opens {ms}).Says l where
  loop := hloop
  legs ns hns := by
    obtain rfl : ns = ms := hns
    exact hms

/-- A loop says the wildcard. -/
theorem walks (h : p.Says l) : ∀ ms ∈ p.walks, ∀ label ∈ saidLabels ms, label ∈ l := by
  rintro _ ⟨ls, ⟨hopens, hloops⟩, ms, hms, rfl⟩ label hlabel
  rcases List.mem_append.mp (saidLabels_append ls ms ▸ hlabel) with hlabel | hlabel
  · obtain ⟨n, hn, rfl⟩ := List.mem_map.mp (List.mem_of_mem_filter hlabel)
    rw [hloops n hn]
    exact h.loop (hopens.resolve_left (List.ne_nil_of_mem hn))
  · exact h.legs ms hms label hlabel

theorem andThen (hp : p.Says l) (hq : q.Says l) : (p.andThen q).Says l := by
  cases p with
  | still => exact hq
  | leads opens legs =>
      refine ⟨hp.loop, ?_⟩
      rintro _ ⟨ms, hms, ns, hns, rfl⟩ label hlabel
      rcases List.mem_append.mp (saidLabels_append ms ns ▸ hlabel) with hlabel | hlabel
      · exact hp.legs ms hms label hlabel
      · exact hq.walks ns hns label hlabel

theorem said {labels : List String} (h : ∀ label ∈ saidLabels (saidMarks labels), label ∈ l) :
    (Piece.said labels).Says l := by
  induction labels with
  | nil => exact still l
  | cons label labels ih =>
      rw [← List.singleton_append, saidMarks_append, saidLabels_append, List.forall_mem_append] at h
      exact andThen (leads (fun ho => absurd ho Bool.false_ne_true) h.1) (ih h.2)

theorem oneOf {ps : List Piece} (h : ∀ p ∈ ps, p.Says l) : (Piece.oneOf ps).Says l where
  loop ho := by
    obtain ⟨p, hp, ho⟩ := List.any_eq_true.mp ho
    exact (h p hp).loop ho
  legs := by
    change ∀ ms ∈ (ps.map Piece.legs).sum, _
    induction ps with
    | nil => exact fun ms hms => (Language.notMem_zero ms hms).elim
    | cons p ps ih =>
        rw [List.map_cons, List.sum_cons]
        rintro ms (hms | hms)
        · exact (h p List.mem_cons_self).legs ms hms
        · exact ih (fun q hq => h q (List.mem_cons_of_mem p hq)) ms hms

/-- While words are hidden, only a tag's substitution is said around a piece. -/
theorem wrapped (hp : p.Says l) (suffix : Suffix) (tag : Option Tag) :
    (p.wrapped true suffix tag).Says (l ++ tagWords tag) := by
  refine ((said ?_).andThen (hp.mono (List.subset_append_left l _))).andThen (said ?_)
  · rw [saidLabels_labelsBefore]
    exact fun _ h => (List.not_mem_nil h).elim
  · rw [saidLabels_labelsAfter, saidInstead, ownWords, Bool.true_or, if_pos rfl, List.nil_append]
    exact fun _ h => List.mem_append_right l (List.mem_of_mem_filter h)

end Piece.Says

mutual

/-- While words are hidden, a tree says its strays only. -/
theorem Tree.says_piece (expand : Bool) : ∀ t : Tree,
    (t.piece expand true).Says (t.strays expand)
  | .word text suffix tag => by
      rw [Tree.piece, Tree.strays]
      refine (Piece.Says.leads (fun ho => ?_) ?_).wrapped suffix tag
      · rw [if_pos ho]
        exact List.mem_singleton_self _
      · rw [Bool.true_or, saidLabels_wordMarks_hidden]
        exact fun _ h => (List.not_mem_nil h).elim
  | .seq .group items suffix tag => by
      rw [Tree.piece, Tree.strays]
      exact (says_pieceInTurn expand items).wrapped suffix tag
  | .seq .alternative items suffix tag => by
      rw [Tree.piece, Tree.strays]
      exact (Piece.Says.oneOf (says_piecesOf expand items)).wrapped suffix tag
  | .rule key [] tag => by
      rw [Tree.piece, Tree.strays]
      exact (Piece.Says.nothing []).wrapped {} tag
  | .rule key (body :: _) tag => by
      rw [Tree.piece, Tree.strays]
      exact (Tree.says_piece expand body).wrapped {} tag
  | .slot name values suffix tag => by
      rw [Tree.piece, Tree.strays]
      refine (Piece.Says.andThen ?_ (.said ?_)).wrapped suffix tag
      · cases expand with
        | false => exact .still _
        | true => exact .oneOf (says_piecesOf true values)
      · rw [← sourceMarks, saidLabels_sourceMarks]
        exact fun _ h => (List.not_mem_nil h).elim
  | .broken e => by
      rw [Tree.piece, Tree.strays]
      exact .nothing []

theorem says_pieceInTurn (expand : Bool) : ∀ ts : List Tree,
    (pieceInTurn expand true ts).Says (straysOf expand ts)
  | [] => by
      rw [pieceInTurn]
      exact .still _
  | t :: ts => by
      rw [pieceInTurn, straysOf]
      exact ((Tree.says_piece expand t).mono (List.subset_append_left _ _)).andThen
        ((says_pieceInTurn expand ts).mono (List.subset_append_right _ _))

theorem says_piecesOf (expand : Bool) : ∀ (ts : List Tree), ∀ p ∈ piecesOf expand true ts,
    p.Says (straysOf expand ts)
  | [], p, hp => (List.not_mem_nil hp).elim
  | t :: ts, p, hp => by
      rw [piecesOf] at hp
      rw [straysOf]
      rcases List.mem_cons.mp hp with rfl | hp
      · exact (Tree.says_piece expand t).mono (List.subset_append_left _ _)
      · exact (says_piecesOf expand ts p hp).mono (List.subset_append_right _ _)

end

/-! ## What a replaced expression says -/

theorem exists_unfold_slot (t : Table) (c : Scope) (text name : String) (suffix : Suffix)
    (tag : Option Tag) :
    ∃ values, unfold t c (.slot text name suffix tag) = .slot name values suffix tag := by
  cases hget : t.get? (slotKey name) with
  | none => exact ⟨_, unfold_slot_of_none hget c text suffix tag⟩
  | some values => exact ⟨_, unfold_slot_of_get? hget text suffix tag⟩

/-- Inside an expression with a substitution it makes no difference whether words are hidden
outside, too. -/
theorem exists_piece_eq_wrapped (t : Table) (c : Scope) (expand : Bool) {e : Expr}
    {words : List String} (hwords : e.suffix.substitution = some words) :
    ∃ p : Piece, ∀ hidden,
      (unfold t c e).piece expand hidden = p.wrapped hidden e.suffix e.tag := by
  have hreplaced : isReplaced e.suffix e.tag = true := by
    rw [isReplaced, hwords]
    rfl
  cases e with
  | word text suffix tag =>
      refine ⟨.leads (text == wildcard) {wordMarks true text}, fun hidden => ?_⟩
      rw [unfold, Tree.piece, show isReplaced suffix tag = true from hreplaced, Bool.or_true]
      rfl
  | seq kind text items suffix tag =>
      cases kind with
      | group =>
          refine ⟨pieceInTurn expand true (unfoldAll t c items), fun hidden => ?_⟩
          rw [unfold, Tree.piece, show isReplaced suffix tag = true from hreplaced, Bool.or_true]
          rfl
      | alternative =>
          refine ⟨.oneOf (piecesOf expand true (unfoldAll t c items)), fun hidden => ?_⟩
          rw [unfold, Tree.piece, show isReplaced suffix tag = true from hreplaced, Bool.or_true]
          rfl
  | rule ref tag => cases hwords
  | slot text name suffix tag =>
      obtain ⟨values, hunfold⟩ := exists_unfold_slot t c text name suffix tag
      refine ⟨.andThen (if expand then .oneOf (piecesOf expand true values) else .still)
        (.said [(Control.source (slotBase name)).text]), fun hidden => ?_⟩
      rw [hunfold, Tree.piece, show isReplaced suffix tag = true from hreplaced, Bool.or_true]
      rfl

/-- What is said on a path is said along a walk. -/
theorem Graph.Follows.exists_walk {g : Graph} {R : Edge → List String → Prop} {a b : Nat}
    {p : Path} (hp : g.Follows R a p b) :
    ∃ ms, g.Walk a ms b ∧ g.saidLabelsOn p = saidLabels ms := by
  induction hp with
  | nil a => exact ⟨[], .refl a, rfl⟩
  | @cons a b c e matched p he _ _ ih =>
      obtain ⟨ms, hw, hsaid⟩ := ih
      refine ⟨e.mark.spelled ++ ms, .step (mark?_of_edge? he) hw, ?_⟩
      rw [saidLabels_append, saidLabels_spelled, ← hsaid, saidLabelsOn, List.filterMap_cons, he,
        Option.map_some]
      exact List.filter_append [e.output] _

/-- Along every path through an expression with a substitution and without a tag, first some
strays are said and then the words of the substitution. -/
theorem said_of_substitution {t : Table} {c : Scope} {expand : Bool} {e : Expr}
    {words : List String} (htag : e.tag = none) (hwords : e.suffix.substitution = some words)
    (hplain : ∀ word ∈ words, Label.isControl word = false) {g h : Graph} {s x : Nat}
    (hg : g.Ascending) (hs : s < g.size) (hloop : g.hasLoop s = false)
    (hb : build expand false g s (unfold t c e) = .done h x)
    {R : Edge → List String → Prop} {p : Path} (hp : h.Follows R s p x) :
    ∃ strays, h.saidLabelsOn p = strays ++ (words.map Label.pack).filter (· != "") ∧
      ∀ label ∈ strays, label ∈ (unfold t c e).strays expand := by
  obtain ⟨content, hcontent⟩ := exists_piece_eq_wrapped t c expand hwords
  obtain ⟨ms, hw, hsaid⟩ := hp.exists_walk
  have hms := (build_lays expand _ hg hs hb).walks hg hloop |>.mp hw
  rw [hcontent, Piece.walks_wrapped, mem_wrappedMarks] at hms
  obtain ⟨l, hl, rfl⟩ := hms
  refine ⟨saidLabels l, ?_, fun label hlabel => ?_⟩
  · have hinstead : saidInstead false e.suffix e.tag = words := by
      rw [saidInstead, ownWords, htag, hwords]
      exact List.append_nil words
    have hpacked : (words.map Label.pack).filter Label.isSaid
        = (words.map Label.pack).filter (· != "") := by
      refine List.filter_congr fun label hlabel => ?_
      obtain ⟨word, hword, rfl⟩ := List.mem_map.mp hlabel
      exact Label.isSaid_pack (hplain word hword)
    rw [hsaid, Reading.enclose, saidLabels_append, saidLabels_append, saidLabels_labelsBefore,
      saidLabels_labelsAfter, hinstead, hpacked, List.nil_append]
  · -- what is hidden says the same when all of the expression is
    have hall : Reading.enclose true e.suffix e.tag l
        ∈ ((unfold t c e).piece expand true).walks := by
      rw [hcontent, Piece.walks_wrapped, mem_wrappedMarks]
      exact ⟨l, hl, rfl⟩
    refine (Tree.says_piece expand _).walks _ hall label ?_
    rw [Reading.enclose, saidLabels_append, saidLabels_append]
    exact List.mem_append_left _ (List.mem_append_right _ hlabel)

/-- `(living room):den` -/
def roomExpr : Expr :=
  .seq .group "living room" [.plain "living", .plain "room"] { substitution := some ["den"] } none

def roomGraph : Graph where
  nodes := #[⟨none, #[0]⟩, ⟨some "living", #[1]⟩, ⟨some "room", #[2]⟩, ⟨none, #[]⟩]
  edges := #[{ source := 0, target := 1, input := "living" },
    { source := 1, target := 2, input := "room" },
    { source := 2, target := 3, output := "den" }]
  start := some 0

theorem build_roomExpr :
    build true false Graph.initial 0 (unfold [] { intent := "Lamp" } roomExpr)
      = .done roomGraph 3 := by
  have hunfold : unfold [] { intent := "Lamp" } roomExpr =
      .seq .group [.word "living" {} none, .word "room" {} none]
        { substitution := some ["den"] } none := by
    simp [roomExpr, Expr.plain, unfold, unfoldAll]
  rw [hunfold]
  rfl

theorem saidLabelsOn_roomGraph :
    build true false Graph.initial 0 (unfold [] { intent := "Lamp" } roomExpr)
        = .done roomGraph 3 ∧
      roomGraph.Follows Edge.Takes 0
        [⟨0, 1, ["living"]⟩, ⟨1, 2, ["room"]⟩, ⟨2, 3, []⟩] 3 ∧
      roomGraph.saidLabelsOn [⟨0, 1, ["living"]⟩, ⟨1, 2, ["room"]⟩, ⟨2, 3, []⟩] = ["den"] := by
  have hpath : roomGraph.Follows Edge.Takes 0
      [⟨0, 1, ["living"]⟩, ⟨1, 2, ["room"]⟩, ⟨2, 3, []⟩] 3 :=
    .cons rfl (.inr ⟨by decide, _, rfl⟩) (.cons rfl (.inr ⟨by decide, _, rfl⟩)
      (.cons rfl (.inl rfl) (.nil 3)))
  have hwords : roomExpr.suffix.substitution = some ["den"] := rfl
  obtain ⟨strays, hsaid, hstrays⟩ := said_of_substitution rfl hwords (by decide) ascending_initial
    Nat.zero_lt_one (hasLoop_eq_false.mpr (mark?_initial 0 0)) build_roomExpr hpath
  have hnone : (unfold [] { intent := "Lamp" } roomExpr).strays true = [] := by
    simp [roomExpr, Expr.plain, unfold, unfoldAll, Tree.strays, straysOf, tagWords, tagSubstitution,
      wildcard]
  have hnil : strays = [] := List.eq_nil_iff_forall_not_mem.mpr fun label hlabel => by
    have hmem := hstrays label hlabel
    rw [hnone] at hmem
    exact List.not_mem_nil hmem
  rw [hnil] at hsaid
  exact ⟨build_roomExpr, hpath, hsaid⟩

/-- `(*):x` -/
def wildExpr : Expr := .seq .group "*" [.plain "*"] { substitution := some ["x"] } none

def wildGraph : Graph where
  nodes := #[⟨none, #[0, 1]⟩, ⟨some "*", #[2]⟩, ⟨none, #[]⟩]
  edges := #[{ source := 0, target := 0, input := "*", output := "*" },
    { source := 0, target := 1, input := "*" },
    { source := 1, target := 2, output := "x" }]
  start := some 0

/-- `(red{hue:crimson}):x` -/
def crimsonExpr : Expr :=
  .seq .group "red{hue:crimson}"
    [.word "red" {} (some ⟨"hue", { substitution := some ["crimson"] }⟩)]
    { substitution := some ["x"] } none

def crimsonGraph : Graph where
  nodes := #[⟨none, #[0]⟩, ⟨none, #[1]⟩, ⟨some "red", #[2]⟩, ⟨none, #[3]⟩, ⟨none, #[4]⟩,
    ⟨none, #[]⟩]
  edges := #[{ source := 0, target := 1, output := "__begin__hue" },
    { source := 1, target := 2, input := "red" },
    { source := 2, target := 3, output := "crimson" },
    { source := 3, target := 4, output := "__end__hue" },
    { source := 4, target := 5, output := "x" }]
  start := some 0

/-- A word that a hidden wildcard hears at its loop is said before the substitution, and so is
the substitution of a tag inside. -/
theorem saidLabelsOn_ne_substitution :
    (wildExpr.tag = none ∧ wildExpr.suffix.substitution = some ["x"] ∧
      crimsonExpr.tag = none ∧ crimsonExpr.suffix.substitution = some ["x"] ∧
      Label.isControl "x" = false ∧ Label.pack "x" = "x") ∧
    (build true false Graph.initial 0 (unfold [] { intent := "Lamp" } wildExpr)
        = .done wildGraph 2 ∧
      wildGraph.Follows Edge.Takes 0 [⟨0, 0, ["a"]⟩, ⟨0, 1, ["b"]⟩, ⟨1, 2, []⟩] 2 ∧
      wildGraph.saidLabelsOn [⟨0, 0, ["a"]⟩, ⟨0, 1, ["b"]⟩, ⟨1, 2, []⟩] = ["*", "x"]) ∧
    build true false Graph.initial 0 (unfold [] { intent := "Lamp" } crimsonExpr)
        = .done crimsonGraph 5 ∧
      crimsonGraph.Follows Edge.Takes 0
        [⟨0, 1, []⟩, ⟨1, 2, ["red"]⟩, ⟨2, 3, []⟩, ⟨3, 4, []⟩, ⟨4, 5, []⟩] 5 ∧
      crimsonGraph.saidLabelsOn [⟨0, 1, []⟩, ⟨1, 2, ["red"]⟩, ⟨2, 3, []⟩, ⟨3, 4, []⟩, ⟨4, 5, []⟩]
        = ["crimson", "x"] := by
  have hwild : unfold [] { intent := "Lamp" } wildExpr =
      .seq .group [.word "*" {} none] { substitution := some ["x"] } none := by
    simp [wildExpr, Expr.plain, unfold, unfoldAll]
  have hcrimson : unfold [] { intent := "Lamp" } crimsonExpr =
      .seq .group [.word "red" {} (some ⟨"hue", { substitution := some ["crimson"] }⟩)]
        { substitution := some ["x"] } none := by
    simp [crimsonExpr, unfold, unfoldAll]
  rw [hwild, hcrimson]
  refine ⟨⟨rfl, rfl, rfl, rfl, by decide, by decide⟩, ⟨rfl, ?_, by decide⟩, rfl, ?_,
    by decide⟩
  · exact .cons rfl (.inr ⟨by decide, _, rfl⟩) (.cons rfl (.inr ⟨by decide, _, rfl⟩)
      (.cons rfl (.inl rfl) (.nil 2)))
  · exact .cons rfl (.inl rfl) (.cons rfl (.inr ⟨by decide, _, rfl⟩) (.cons rfl (.inl rfl)
      (.cons rfl (.inl rfl) (.cons rfl (.inl rfl) (.nil 5)))))

end Utterance
