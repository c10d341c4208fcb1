import Utterance.Proofs.Compile.Acceptance
import Utterance.Proofs.Compile.Pieces
import Utterance.Proofs.Search.Enumeration

/-!
# Sentences that begin at one state

All sentences of an intent and all branches of an alternative begin at one state.
A loop that a wildcard puts there is one for all of them: what begins with a
wildcard lets everything beside it be heard late, after any tokens.

`Graph.accepted` is the language of the tokens on which a graph has a run.  For the
graph of an intent it is what is heard along the walks of its piece
(`accepted_ofSentences`), and the algebra of pieces becomes one of languages of
tokens.  The language of two sentences is that of the first and that of the second,
after tokens that are passed over if one of them begins with a wildcard, and the
same is true of two branches (`ofSentences_pools`).  If none does, the sentences do
not affect each other (`Graph.Pools.apart`).
-/

namespace Utterance

open Utterance.Graph

/-! ## What is heard as marks -/

/-- Edges with these marks can hear the tokens, one after the other. -/
inductive HeardAs (o : SearchOptions) : List Mark → List String → Prop where
  | nil : HeardAs o [] []
  | cons {e : Edge} {matched rest : List String} {ms : List Mark} :
      e.Hears o matched → HeardAs o ms rest → HeardAs o (e.mark :: ms) (matched ++ rest)

variable {o : SearchOptions}

/-- What an edge hears depends on its mark only. -/
theorem Edge.Hears.of_mark_eq {e e' : Edge} {matched : List String} (h : e.Hears o matched)
    (hmark : e.mark = e'.mark) : e'.Hears o matched := by
  have hinput : e.input = e'.input := congrArg Mark.input hmark
  have houtput : e.output = e'.output := congrArg Mark.output hmark
  rw [Hears, hinput, houtput] at h
  exact h

theorem heardAs_append {l m : List Mark} {tokens : List String} :
    HeardAs o (l ++ m) tokens ↔
      ∃ heard, HeardAs o l heard ∧ ∃ rest, HeardAs o m rest ∧ heard ++ rest = tokens := by
  constructor
  · induction l generalizing tokens with
    | nil => exact fun h => ⟨[], .nil, tokens, h, rfl⟩
    | cons n l ih =>
        intro h
        cases h with
        | cons hhears h =>
            obtain ⟨heard, hl, rest, hm, rfl⟩ := ih h
            exact ⟨_, .cons hhears hl, rest, hm, List.append_assoc _ _ _⟩
  · rintro ⟨heard, hl, rest, hm, rfl⟩
    induction hl with
    | nil => exact hm
    | cons hhears _ ih =>
        rw [List.append_assoc]
        exact .cons hhears ih

theorem heardAs_spelled_iff {e : Edge} {tokens : List String} :
    HeardAs o e.mark.spelled tokens ↔ e.Hears o tokens := by
  by_cases hsilent : e.mark = Mark.silent
  · have hinput : e.input = "" := congrArg Mark.input hsilent
    have hlabel : Label.intent? e.output = none := by
      rw [show e.output = "" from congrArg Mark.output hsilent]
      decide
    rw [hsilent, Mark.spelled_silent]
    constructor
    · intro h
      cases h
      exact Edge.hears_nil hlabel hinput
    · rintro ⟨-, ⟨-, rfl⟩ | ⟨hne, -⟩⟩
      · exact .nil
      · exact absurd hinput hne
  · rw [Mark.spelled, if_neg hsilent]
    constructor
    · generalize hmark : e.mark = m
      rintro (_ | ⟨hhears, h⟩)
      cases h
      rw [List.append_nil]
      exact hhears.of_mark_eq hmark.symm
    · intro h
      have hsingle := HeardAs.cons h .nil
      rwa [List.append_nil] at hsingle

/-- The tokens that can be heard as a word of the language. -/
def tokensOf (o : SearchOptions) (L : Language Mark) : Language String :=
  {tokens | ∃ ms ∈ L, HeardAs o ms tokens}

theorem tokensOf_mul (L M : Language Mark) :
    tokensOf o (L * M) = tokensOf o L * tokensOf o M := by
  ext tokens
  rw [Language.mem_mul]
  constructor
  · rintro ⟨_, ⟨l, hl, m, hm, rfl⟩, h⟩
    obtain ⟨heard, hheard, rest, hrest, rfl⟩ := heardAs_append.mp h
    exact ⟨heard, ⟨l, hl, hheard⟩, rest, ⟨m, hm, hrest⟩, rfl⟩
  · rintro ⟨heard, ⟨l, hl, hheard⟩, rest, ⟨m, hm, hrest⟩, rfl⟩
    exact ⟨l ++ m, ⟨l, hl, m, hm, rfl⟩, heardAs_append.mpr ⟨heard, hheard, rest, hrest, rfl⟩⟩

theorem tokensOf_add (L M : Language Mark) :
    tokensOf o (L + M) = tokensOf o L + tokensOf o M := by
  ext tokens
  constructor
  · rintro ⟨ms, hms | hms, h⟩
    · exact .inl ⟨ms, hms, h⟩
    · exact .inr ⟨ms, hms, h⟩
  · rintro (⟨ms, hms, h⟩ | ⟨ms, hms, h⟩)
    · exact ⟨ms, .inl hms, h⟩
    · exact ⟨ms, .inr hms, h⟩

/-- Any tokens, if `b` says so, and else none. -/
def passing (b : Bool) : Language String := {tokens | tokens = [] ∨ b = true}

theorem passing_false : passing false = 1 := by
  ext tokens
  rw [Language.mem_one]
  exact or_iff_left Bool.false_ne_true

theorem passing_mul_passing (b c : Bool) : passing b * passing c = passing (b || c) := by
  ext tokens
  rw [Language.mem_mul]
  constructor
  · rintro ⟨passed, hpassed, rest, hrest, rfl⟩
    cases b with
    | true => exact .inr rfl
    | false =>
        obtain rfl := hpassed.resolve_right Bool.false_ne_true
        exact hrest
  · intro h
    cases b with
    | true => exact ⟨tokens, .inr rfl, [], .inl rfl, List.append_nil _⟩
    | false => exact ⟨[], .inl rfl, tokens, h, rfl⟩

/-- A loop hears any token. -/
theorem tokensOf_loops (b : Bool) : tokensOf o (loops b) = passing b := by
  ext tokens
  constructor
  · rintro ⟨ms, ⟨hnil | hb, -⟩, h⟩
    · subst hnil
      cases h
      exact .inl rfl
    · exact .inr hb
  · rintro (rfl | hb)
    · exact ⟨[], nil_mem_loops b, .nil⟩
    · refine ⟨tokens.map fun _ => Mark.loop, ⟨.inr hb, fun m hm => ?_⟩, ?_⟩
      · obtain ⟨_, -, rfl⟩ := List.mem_map.mp hm
        rfl
      · induction tokens with
        | nil => exact .nil
        | cons token tokens ih =>
            exact .cons (e := ⟨0, 0, wildcard, wildcard, none, none⟩)
              (Edge.hears_wildcard (by decide) rfl token) ih

theorem tokensOf_walks (p : Piece) :
    tokensOf o p.walks = passing p.opens * tokensOf o p.legs := by
  rw [Piece.walks, tokensOf_mul, tokensOf_loops]

/-- Two branches are heard at once, or late if one of them begins with a wildcard. -/
theorem tokensOf_oneOf_pair (p q : Piece) :
    tokensOf o (Piece.oneOf [p, q]).walks =
      passing (p.opens || q.opens) * (tokensOf o p.walks + tokensOf o q.walks) := by
  have hlegs : (Piece.oneOf [p, q]).legs = p.legs + q.legs := by simp [Piece.oneOf, Piece.legs]
  have hopens : (Piece.oneOf [p, q]).opens = (p.opens || q.opens) := by
    simp [Piece.oneOf, Piece.opens]
  have hp : (p.opens || q.opens || p.opens) = (p.opens || q.opens) := by
    cases p.opens <;> cases q.opens <;> rfl
  have hq : (p.opens || q.opens || q.opens) = (p.opens || q.opens) := by
    cases p.opens <;> cases q.opens <;> rfl
  rw [tokensOf_walks, hlegs, hopens, tokensOf_add, tokensOf_walks p, tokensOf_walks q, mul_add,
    mul_add, ← mul_assoc, ← mul_assoc, passing_mul_passing, passing_mul_passing, hp, hq]

/-- The label of an intent hears nothing, and may be passed if the intent is accepted. -/
theorem tokensOf_intentMark (intent : String) :
    tokensOf o {[intentMark intent]} = if o.accepts intent then 1 else 0 := by
  have hedge : ∀ tokens, HeardAs o [intentMark intent] tokens ↔
      o.accepts intent = true ∧ tokens = [] := fun tokens => by
    have h := @heardAs_spelled_iff o ⟨0, 0, "", (Control.intent intent).text, none, none⟩ tokens
    change HeardAs o (intentMark intent).spelled tokens ↔ _ at h
    rw [intentMark_spelled] at h
    rw [h, Edge.Hears]
    simp [Label.intent?_text]
  ext tokens
  constructor
  · rintro ⟨_, rfl, h⟩
    obtain ⟨haccepts, rfl⟩ := (hedge tokens).mp h
    rw [if_pos haccepts]
    exact Language.nil_mem_one
  · split
    next haccepts =>
      intro h
      exact ⟨_, rfl, (hedge tokens).mpr ⟨haccepts, (Language.mem_one tokens).mp h⟩⟩
    next => exact fun h => (Language.notMem_zero tokens h).elim

/-! ## The tokens that a graph accepts -/

namespace Graph

theorem exists_follows_iff {g : Graph} {a b : Nat} {tokens : List String} :
    (∃ p, g.Follows (Edge.Hears o) a p b ∧ p.tokens = tokens) ↔
      ∃ ms, g.Walk a ms b ∧ HeardAs o ms tokens := by
  constructor
  · rintro ⟨p, hp, rfl⟩
    induction hp with
    | nil a => exact ⟨[], .refl a, .nil⟩
    | @cons a b c e matched p he hhears _ ih =>
        obtain ⟨ms, hw, h⟩ := ih
        exact ⟨e.mark.spelled ++ ms, .step (mark?_of_edge? he) hw,
          heardAs_append.mpr ⟨matched, heardAs_spelled_iff.mpr hhears, p.tokens, h, rfl⟩⟩
  · rintro ⟨ms, hw, h⟩
    induction hw generalizing tokens with
    | refl a =>
        cases h
        exact ⟨[], .nil a, rfl⟩
    | @step a b c m ms hm _ ih =>
        obtain ⟨e, he, rfl⟩ := exists_edge? hm
        obtain ⟨matched, hmatched, rest, hrest, rfl⟩ := heardAs_append.mp h
        obtain ⟨p, hp, rfl⟩ := ih hrest
        exact ⟨⟨a, b, matched⟩ :: p, .cons he (heardAs_spelled_iff.mp hmatched) hp, rfl⟩

/-- The tokens on which the graph has a run. -/
def accepted (g : Graph) (o : SearchOptions) : Language String :=
  {tokens | ∃ p, g.Run o tokens p}

end Graph

section

variable {t : Table} {co : CompileOptions} {intent : String} {g : Graph}

/-- A search in a compiled graph finds something just if the tokens are accepted. -/
theorem exactPaths_ne_nil_iff {l : IntentSentences} (hg : Graph.ofSentences l t co = .ok g)
    {tokens : List String} (hne : tokens ≠ []) :
    g.exactPaths o tokens ≠ [] ↔ tokens ∈ g.accepted o := by
  have hasc := ascending_ofSentences hg
  have hruns : ∀ p, p ∈ g.exactPaths o tokens ↔ g.Run o tokens p := fun p =>
    mem_exactPaths_iff_run hasc.valid hasc.acyclic (start_ofSentences hg) hne
  constructor
  · intro h
    obtain ⟨p, hp⟩ := List.exists_mem_of_ne_nil _ h
    exact ⟨p, (hruns p).mp hp⟩
  · rintro ⟨p, hp⟩
    exact List.ne_nil_of_mem ((hruns p).mpr hp)

theorem accepted_ofSentences {sentences : List Sentence}
    (hg : Graph.ofSentences [(intent, sentences)] t co = .ok g) :
    g.accepted o = tokensOf o (intentPiece t co.expandSlots intent sentences).walks := by
  obtain ⟨final, hfinal, hwalk⟩ := walk_ofSentences_iff hg
  ext tokens
  have hruns : tokens ∈ g.accepted o ↔
      ∃ p, g.Follows (Edge.Hears o) 0 p final ∧ p.tokens = tokens := by
    refine exists_congr fun p => and_congr_left fun _ => ⟨?_, fun hp => ?_⟩
    · rintro ⟨start, final', hstart, hfinal', hp⟩
      cases hstart.symm.trans (start_ofSentences hg)
      cases hfinal'.symm.trans hfinal
      exact hp
    · exact ⟨0, final, start_ofSentences hg, hfinal, hp⟩
  rw [hruns, exists_follows_iff]
  exact exists_congr fun ms => and_congr_left fun _ => hwalk ms

/-- What the sentences of an intent pass before they differ is the same for all. -/
theorem tokensOf_intentPiece (expand : Bool) (sentences : List Sentence) :
    tokensOf o (intentPiece t expand intent sentences).walks =
      (if o.accepts intent then 1 else 0) *
        tokensOf o (Piece.oneOf (sentences.map fun s =>
          (s.unfold t intent).piece expand false)).walks := by
  have hlabel : (Piece.leads false {[intentMark intent]}).walks = {[intentMark intent]} := by
    rw [Piece.walks, Piece.opens, Piece.legs, loops_false, one_mul]
  rw [intentPiece, Piece.walks_andThen, hlabel, tokensOf_mul, tokensOf_intentMark]

/-! ## Two in one -/

/-- A search in `g` finds something just if one in `g₁` or `g₂` does.  If `passes` says
so, the search in these is on what is left of the tokens when some are passed over; then
no token may be left, where a search finds nothing and a run is meant. -/
structure Graph.Pools (g g₁ g₂ : Graph) (passes : Bool) : Prop where
  apart : passes = false → ∀ (o : SearchOptions) (tokens : List String), tokens ≠ [] →
    (g.exactPaths o tokens ≠ [] ↔ g₁.exactPaths o tokens ≠ [] ∨ g₂.exactPaths o tokens ≠ [])
  late : ∀ (o : SearchOptions) (tokens : List String), tokens ≠ [] →
    (g.exactPaths o tokens ≠ [] ↔
      ∃ passed rest, passed ++ rest = tokens ∧ (passed = [] ∨ passes = true) ∧
        ((∃ p, g₁.Run o rest p) ∨ ∃ p, g₂.Run o rest p))

theorem pools_of_accepted {l l₁ l₂ : IntentSentences} {g₁ g₂ : Graph} {passes : Bool}
    (hg : Graph.ofSentences l t co = .ok g) (hg₁ : Graph.ofSentences l₁ t co = .ok g₁)
    (hg₂ : Graph.ofSentences l₂ t co = .ok g₂)
    (haccepted : ∀ o, g.accepted o = passing passes * (g₁.accepted o + g₂.accepted o)) :
    g.Pools g₁ g₂ passes where
  apart hpasses o tokens hne := by
    rw [exactPaths_ne_nil_iff hg hne, exactPaths_ne_nil_iff hg₁ hne, exactPaths_ne_nil_iff hg₂ hne,
      haccepted, hpasses, passing_false, one_mul, Language.mem_add]
  late o tokens hne := by
    rw [exactPaths_ne_nil_iff hg hne, haccepted, Language.mem_mul]
    constructor
    · rintro ⟨passed, hpassed, rest, hrest, happend⟩
      exact ⟨passed, rest, happend, hpassed, hrest⟩
    · rintro ⟨passed, rest, happend, hpassed, hrest⟩
      exact ⟨passed, hpassed, rest, hrest, happend⟩

/-- The intent's label, which nothing is heard at, stays in front of what is passed over. -/
theorem accepted_pair {ss ss₁ ss₂ : List Sentence} {g₁ g₂ : Graph} {p q : Piece}
    (hg : Graph.ofSentences [(intent, ss)] t co = .ok g)
    (hg₁ : Graph.ofSentences [(intent, ss₁)] t co = .ok g₁)
    (hg₂ : Graph.ofSentences [(intent, ss₂)] t co = .ok g₂)
    (hss : (Piece.oneOf (ss.map fun s => (s.unfold t intent).piece co.expandSlots false)).walks
      = (Piece.oneOf [p, q]).walks)
    (hss₁ : (Piece.oneOf (ss₁.map fun s => (s.unfold t intent).piece co.expandSlots false)).walks
      = p.walks)
    (hss₂ : (Piece.oneOf (ss₂.map fun s => (s.unfold t intent).piece co.expandSlots false)).walks
      = q.walks) :
    g.accepted o = passing (p.opens || q.opens) * (g₁.accepted o + g₂.accepted o) := by
  rw [accepted_ofSentences hg, accepted_ofSentences hg₁, accepted_ofSentences hg₂,
    tokensOf_intentPiece, tokensOf_intentPiece, tokensOf_intentPiece, hss, hss₁, hss₂,
    tokensOf_oneOf_pair]
  split
  · rw [one_mul, one_mul, one_mul]
  · rw [zero_mul, zero_mul, zero_mul, add_zero, mul_zero]

/-- A group or an alternative without suffix and tag says nothing of its own. -/
theorem walks_wrapped_bare (hidden : Bool) (p : Piece) :
    (p.wrapped hidden {} none).walks = p.walks := by
  have hafter : labelsAfter hidden {} none = [] := by cases hidden <;> rfl
  rw [Piece.walks_wrapped, wrappedMarks, hafter]
  exact (mul_one _).trans (one_mul _)

theorem walks_piece_group (expand : Bool) (tree : Tree) :
    ((Tree.seq .group [tree] {} none).piece expand false).walks
      = (tree.piece expand false).walks := by
  rw [Tree.piece, walks_wrapped_bare, pieceInTurn, pieceInTurn, Piece.walks_andThen,
    Piece.walks_still, mul_one]
  rfl

theorem walks_piece_alternative (expand : Bool) (trees : List Tree) :
    ((Tree.seq .alternative trees {} none).piece expand false).walks
      = (Piece.oneOf (trees.map (Tree.piece expand false))).walks := by
  rw [Tree.piece, walks_wrapped_bare, piecesOf_eq_map]
  rfl

/-- Two sentences of an intent, and two branches of an alternative, compile together if they
compile alone.  What is found in the graph of both is found in that of the one or the other,
if need be after tokens that are passed over, which a wildcard in front is needed for. -/
theorem ofSentences_pools (t : Table) (co : CompileOptions) (intent : String) :
    (∀ {s₁ s₂ : Sentence} {g₁ g₂ : Graph},
      Graph.ofSentences [(intent, [s₁])] t co = .ok g₁ →
      Graph.ofSentences [(intent, [s₂])] t co = .ok g₂ →
      ∃ g, Graph.ofSentences [(intent, [s₁, s₂])] t co = .ok g ∧
        g.Pools g₁ g₂ ((s₁.unfold t intent).opens co.expandSlots ||
          (s₂.unfold t intent).opens co.expandSlots)) ∧
    (∀ {e₁ e₂ : Expr} {g₁ g₂ : Graph} (text inner text₁ text₂ : String),
      Graph.ofSentences [(intent, [⟨text₁, [e₁]⟩])] t co = .ok g₁ →
      Graph.ofSentences [(intent, [⟨text₂, [e₂]⟩])] t co = .ok g₂ →
      ∃ g, Graph.ofSentences [(intent, [⟨text, [.seq .alternative inner [e₁, e₂] {} none]⟩])] t co
          = .ok g ∧
        g.Pools g₁ g₂ ((unfold t { intent } e₁).opens co.expandSlots ||
          (unfold t { intent } e₂).opens co.expandSlots)) := by
  constructor
  · intro s₁ s₂ g₁ g₂ hg₁ hg₂
    obtain ⟨g, hg⟩ := exists_ofSentences_iff_forall.mpr fun s hs => by
      rcases List.mem_pair.mp hs with rfl | rfl
      · exact ⟨g₁, hg₁⟩
      · exact ⟨g₂, hg₂⟩
    refine ⟨g, hg, pools_of_accepted hg hg₁ hg₂ fun o => ?_⟩
    exact accepted_pair hg hg₁ hg₂ rfl (Piece.walks_oneOf_singleton _)
      (Piece.walks_oneOf_singleton _)
  · intro e₁ e₂ g₁ g₂ text inner text₁ text₂ hg₁ hg₂
    obtain ⟨g, hg⟩ := exists_ofSentences_alternative_iff.mpr fun e he => by
      rcases List.mem_pair.mp he with rfl | rfl
      · exact ⟨text₁, g₁, hg₁⟩
      · exact ⟨text₂, g₂, hg₂⟩
    have hwalks : ∀ (text : String) (e : Expr), (Piece.oneOf
        ([(⟨text, [e]⟩ : Sentence)].map fun s =>
          (s.unfold t intent).piece co.expandSlots false)).walks
        = ((unfold t { intent } e).piece co.expandSlots false).walks := fun text e => by
      rw [List.map_singleton, Piece.walks_oneOf_singleton, Sentence.unfold, Sentence.toExpr,
        unfold, unfoldAll, unfoldAll, walks_piece_group]
    refine ⟨g, hg, pools_of_accepted hg hg₁ hg₂ fun o => ?_⟩
    refine accepted_pair hg hg₁ hg₂ ?_ (hwalks text₁ e₁) (hwalks text₂ e₂)
    rw [hwalks, unfold, unfoldAll_eq_map, walks_piece_alternative]
    rfl

end

/-! ## A command that is heard late -/

def stopSentence : Sentence := ⟨"* stop", [.plain "*", .plain "stop"]⟩

def haltSentence : Sentence := ⟨"halt", [.plain "halt"]⟩

/-- The graph of both sentences.  The loop of the wildcard is at the state 1, where `halt`
begins, too. -/
def bothGraph : Graph where
  nodes := #[⟨none, #[0]⟩, ⟨none, #[1, 2, 4]⟩, ⟨some "*", #[3]⟩, ⟨some "stop", #[5]⟩,
    ⟨some "halt", #[6]⟩, ⟨none, #[]⟩]
  edges := #[{ source := 0, target := 1, output := "__label__Play" },
    { source := 1, target := 1, input := "*", output := "*" },
    { source := 1, target := 2, input := "*", output := "*" },
    { source := 2, target := 3, input := "stop", output := "stop" },
    { source := 1, target := 4, input := "halt", output := "halt" },
    { source := 3, target := 5 },
    { source := 4, target := 5 }]
  start := some 0
  final := some 5

def stopGraph : Graph where
  nodes := #[⟨none, #[0]⟩, ⟨none, #[1, 2]⟩, ⟨some "*", #[3]⟩, ⟨some "stop", #[4]⟩, ⟨none, #[]⟩]
  edges := #[{ source := 0, target := 1, output := "__label__Play" },
    { source := 1, target := 1, input := "*", output := "*" },
    { source := 1, target := 2, input := "*", output := "*" },
    { source := 2, target := 3, input := "stop", output := "stop" },
    { source := 3, target := 4 }]
  start := some 0
  final := some 4

def haltGraph : Graph where
  nodes := #[⟨none, #[0]⟩, ⟨none, #[1]⟩, ⟨some "halt", #[2]⟩, ⟨none, #[]⟩]
  edges := #[{ source := 0, target := 1, output := "__label__Play" },
    { source := 1, target := 2, input := "halt", output := "halt" },
    { source := 2, target := 3 }]
  start := some 0
  final := some 3

theorem unfold_stopSentence : stopSentence.unfold [] "Play" =
    .seq .group [.word "*" {} none, .word "stop" {} none] {} none := by
  simp [Sentence.unfold, Sentence.toExpr, stopSentence, unfold, unfoldAll, Expr.plain]

theorem unfold_haltSentence : haltSentence.unfold [] "Play" =
    .seq .group [.word "halt" {} none] {} none := by
  simp [Sentence.unfold, Sentence.toExpr, haltSentence, unfold, unfoldAll, Expr.plain]

theorem ofSentences_bothGraph :
    Graph.ofSentences [("Play", [stopSentence, haltSentence])] [] = .ok bothGraph := by
  rw [ofSentences_intent, List.map_cons, List.map_singleton, unfold_stopSentence,
    unfold_haltSentence]
  rfl

theorem ofSentences_stopGraph :
    Graph.ofSentences [("Play", [stopSentence])] [] = .ok stopGraph :=
  (ofSentences_singleton unfold_stopSentence).trans rfl

theorem ofSentences_haltGraph :
    Graph.ofSentences [("Play", [haltSentence])] [] = .ok haltGraph :=
  (ofSentences_singleton unfold_haltSentence).trans rfl

/-- The first of the sentences begins with a wildcard, which is then also in front of the
second one; with the sentences as branches it is the same. -/
theorem pools_bothGraph :
    Graph.ofSentences [("Play", [stopSentence])] [] = .ok stopGraph ∧
      Graph.ofSentences [("Play", [haltSentence])] [] = .ok haltGraph ∧
      bothGraph.Pools stopGraph haltGraph true ∧
      ∃ g, Graph.ofSentences [("Play", [⟨"(* stop | halt)", [.seq .alternative "(* stop | halt)"
          [stopSentence.toExpr, .plain "halt"] {} none]⟩])] [] = .ok g ∧
        g.Pools stopGraph haltGraph true := by
  obtain ⟨hsentences, hbranches⟩ := ofSentences_pools [] {} "Play"
  refine ⟨ofSentences_stopGraph, ofSentences_haltGraph, ?_, ?_⟩
  · obtain ⟨g, hg, hpools⟩ := hsentences ofSentences_stopGraph ofSentences_haltGraph
    rw [ofSentences_bothGraph] at hg
    obtain rfl := Except.ok.inj hg
    rw [unfold_stopSentence, unfold_haltSentence] at hpools
    exact hpools
  · have hstop : Graph.ofSentences [("Play", [⟨"* stop", [stopSentence.toExpr]⟩])] []
        = .ok stopGraph := by
      refine (ofSentences_singleton (e := .seq .group [stopSentence.unfold [] "Play"] {} none)
        ?_).trans ?_
      · rw [Sentence.unfold, Sentence.toExpr, unfold, unfoldAll, unfoldAll]
        rfl
      · rw [unfold_stopSentence]
        rfl
    obtain ⟨g, hg, hpools⟩ :=
      hbranches "(* stop | halt)" "(* stop | halt)" "* stop" "halt" hstop ofSentences_haltGraph
    have hunfold : unfold [] { intent := "Play" } (.plain "halt") = .word "halt" {} none := by
      rw [Expr.plain, unfold]
    rw [← Sentence.unfold, unfold_stopSentence, hunfold] at hpools
    exact ⟨g, hg, hpools⟩

/-- `please halt` is found in the graph of both sentences and in that of neither: `please` is
heard at the loop that belongs to `* stop`. -/
theorem please_halt_bothGraph :
    Graph.ofSentences [("Play", [stopSentence, haltSentence])] [] = .ok bothGraph ∧
      Graph.ofSentences [("Play", [stopSentence])] [] = .ok stopGraph ∧
      Graph.ofSentences [("Play", [haltSentence])] [] = .ok haltGraph ∧
      bothGraph.exactPaths {} ["please", "halt"] ≠ [] ∧
      stopGraph.exactPaths {} ["please", "halt"] = [] ∧
      haltGraph.exactPaths {} ["please", "halt"] = [] :=
  ⟨ofSentences_bothGraph, ofSentences_stopGraph, ofSentences_haltGraph, by decide,
    by decide, by decide⟩

end Utterance
