import Utterance.Proofs.Compile.Sharing
import Utterance.Proofs.Template.RoundTrip

/-!
# Words that are taken literally

A template of words in which every character is escaped is read as these words
(`Sentence.parse_escapedWords`), and what is heard along its graph is what the words
hear, one after the other (`accepted_words`).  A word hears itself, but the graph does
not know about escapes: the word `*` is the wildcard there, however it was written, and
hears any tokens (`heardFor`).
-/

namespace Utterance

open Utterance.Graph

/-! ## Words that hear themselves -/

/-- The tokens that a word of a graph hears. -/
def heardFor (w : String) : Language String :=
  {tokens | if w = wildcard then tokens ≠ [] else tokens = [w]}

theorem mem_heardFor_wildcard {tokens : List String} :
    tokens ∈ heardFor wildcard ↔ tokens ≠ [] := by
  change (if wildcard = wildcard then tokens ≠ [] else tokens = [wildcard]) ↔ _
  rw [if_pos rfl]

theorem mem_heardFor {w : String} (hw : w ≠ wildcard) {tokens : List String} :
    tokens ∈ heardFor w ↔ tokens = [w] := by
  change (if w = wildcard then tokens ≠ [] else tokens = [w]) ↔ _
  rw [if_neg hw]

theorem ne_nil_of_mem_heardFor {w : String} {tokens : List String} (h : tokens ∈ heardFor w) :
    tokens ≠ [] := by
  by_cases hw : w = wildcard
  · exact mem_heardFor_wildcard.mp (hw ▸ h)
  · exact (mem_heardFor hw).mp h ▸ List.cons_ne_nil _ _

/-- The words of a sentence. -/
def wordTrees (ws : List String) : List Tree := ws.map fun w => .word w {} none

theorem mem_tokensOf_wordMarks {w : String} (hw : w ≠ "") {tokens : List String} :
    tokens ∈ tokensOf {} {wordMarks false w} ↔
      ∃ token, tokens = [token] ∧ (w = wildcard ∨ w = token) := by
  have hheard : HeardAs {} (wordMarks false w) tokens ↔ _ :=
    @heardAs_spelled_iff {} ⟨0, 0, w, Label.pack w, none, none⟩ tokens
  have hmem : tokens ∈ tokensOf {} {wordMarks false w} ↔ HeardAs {} (wordMarks false w) tokens :=
    exists_eq_left
  rw [hmem, hheard]
  simp [Edge.Hears, hw]

/-- The loop of the wildcard hears what comes before the last token. -/
theorem tokensOf_word {w : String} (hw : w ≠ "") (expand : Bool) :
    tokensOf {} (Tree.piece expand false (.word w {} none)).walks = heardFor w := by
  have hwalks : (Tree.piece expand false (.word w {} none)).walks =
      loops (w == wildcard) * {wordMarks false w} := by
    rw [Tree.piece, walks_wrapped_bare]
    rfl
  rw [hwalks, tokensOf_mul, tokensOf_loops]
  ext tokens
  by_cases hstar : w = wildcard
  · subst hstar
    rw [mem_heardFor_wildcard, Language.mem_mul]
    constructor
    · rintro ⟨passed, -, rest, hrest, rfl⟩
      obtain ⟨token, rfl, -⟩ := (mem_tokensOf_wordMarks hw).mp hrest
      exact List.append_ne_nil_of_right_ne_nil _ (List.cons_ne_nil _ _)
    · intro hne
      exact ⟨tokens.dropLast, .inr rfl, [tokens.getLast hne],
        (mem_tokensOf_wordMarks hw).mpr ⟨_, rfl, .inl rfl⟩, List.dropLast_append_getLast hne⟩
  · rw [mem_heardFor hstar, beq_eq_false_iff_ne.mpr hstar, passing_false, one_mul,
      mem_tokensOf_wordMarks hw]
    simp [hstar]

theorem tokensOf_pieceInTurn {ws : List String} (hws : ∀ w ∈ ws, w ≠ "") (expand : Bool) :
    tokensOf {} (pieceInTurn expand false (wordTrees ws)).walks = (ws.map heardFor).prod := by
  induction ws with
  | nil =>
      rw [wordTrees, List.map_nil, pieceInTurn, Piece.walks_still, ← loops_false, tokensOf_loops,
        passing_false, List.map_nil, List.prod_nil]
  | cons w ws ih =>
      rw [List.forall_mem_cons] at hws
      rw [wordTrees, List.map_cons, pieceInTurn, Piece.walks_andThen, tokensOf_mul,
        tokensOf_word hws.1, ← wordTrees, ih hws.2, List.map_cons, List.prod_cons]

/-! ## The graph of some words -/

/-- A sentence of words without suffixes and tags. -/
def wordSentence (text : String) (ws : List String) : Sentence := ⟨text, ws.map Expr.plain⟩

theorem unfold_wordSentence (t : Table) (intent text : String) (ws : List String) :
    (wordSentence text ws).unfold t intent = .seq .group (wordTrees ws) {} none := by
  rw [Sentence.unfold, wordSentence, Sentence.toExpr, unfold, unfoldAll_eq_map, List.map_map,
    wordTrees]
  refine congrArg (Tree.seq .group · {} none) (List.map_congr_left fun w _ => ?_)
  rw [Function.comp_apply, Expr.plain, unfold]

theorem exists_ofSentences_wordSentence (t : Table) (o : CompileOptions) (intent text : String)
    (ws : List String) : ∃ g, Graph.ofSentences [(intent, [wordSentence text ws])] t o = .ok g := by
  refine exists_ofSentences_intent.mpr fun s hs => ?_
  obtain rfl := List.mem_singleton.mp hs
  rw [unfold_wordSentence, Tree.Buildable, allBuildable_iff_forall]
  intro tree htree
  obtain ⟨w, -, rfl⟩ := List.mem_map.mp htree
  rw [Tree.Buildable]
  trivial

theorem accepted_words {t : Table} {o : CompileOptions} {intent text : String} {ws : List String}
    {g : Graph} (hg : Graph.ofSentences [(intent, [wordSentence text ws])] t o = .ok g)
    (hws : ∀ w ∈ ws, w ≠ "") : g.accepted {} = (ws.map heardFor).prod := by
  rw [accepted_ofSentences hg, tokensOf_intentPiece, List.map_singleton,
    Piece.walks_oneOf_singleton, unfold_wordSentence, Tree.piece, walks_wrapped_bare]
  exact (one_mul _).trans (tokensOf_pieceInTurn hws o.expandSlots)

/-- The search finds something on what the words hear. -/
theorem exactPaths_words_ne_nil_iff {t : Table} {o : CompileOptions} {intent text : String}
    {ws : List String} {g : Graph}
    (hg : Graph.ofSentences [(intent, [wordSentence text ws])] t o = .ok g) (hne : ws ≠ [])
    (hws : ∀ w ∈ ws, w ≠ "") (tokens : List String) :
    g.exactPaths {} tokens ≠ [] ↔ tokens ∈ (ws.map heardFor).prod := by
  cases tokens with
  | nil =>
      obtain ⟨w, ws, rfl⟩ := List.exists_cons_of_ne_nil hne
      rw [exactPaths_nil, List.map_cons, List.prod_cons, Language.mem_mul]
      refine iff_of_false (fun h => h rfl) ?_
      rintro ⟨heard, hheard, rest, -, happend⟩
      exact ne_nil_of_mem_heardFor hheard (List.append_eq_nil_iff.mp happend).1
  | cons token tokens =>
      rw [exactPaths_ne_nil_iff hg (List.cons_ne_nil _ _), accepted_words hg hws]

/-! ## What some words hear -/

/-- Words other than the wildcard hear themselves. -/
theorem prod_heardFor {ws : List String} (h : wildcard ∉ ws) {tokens : List String} :
    tokens ∈ (ws.map heardFor).prod ↔ tokens = ws := by
  induction ws generalizing tokens with
  | nil => exact Language.mem_one tokens
  | cons w ws ih =>
      rw [List.mem_cons, not_or] at h
      rw [List.map_cons, List.prod_cons, Language.mem_mul]
      simp only [mem_heardFor (Ne.symm h.1), ih h.2, exists_eq_left, List.singleton_append]
      exact eq_comm

/-- Where the wildcard stands, anything else is heard as well. -/
theorem map_mem_prod_heardFor (token : String) (ws : List String) :
    ws.map (fun w => if w = wildcard then token else w) ∈ (ws.map heardFor).prod := by
  induction ws with
  | nil => exact Language.nil_mem_one
  | cons w ws ih =>
      rw [List.map_cons, List.map_cons, List.prod_cons, Language.mem_mul]
      refine ⟨[if w = wildcard then token else w], ?_, _, ih, rfl⟩
      split
      next hstar => exact hstar ▸ mem_heardFor_wildcard.mpr (List.cons_ne_nil _ _)
      next hstar => exact (mem_heardFor hstar).mpr rfl

theorem prod_heardFor_eq_iff {ws : List String} :
    (∀ tokens, tokens ∈ (ws.map heardFor).prod ↔ tokens = ws) ↔ wildcard ∉ ws := by
  refine ⟨fun h hstar => ?_, fun h tokens => prod_heardFor h⟩
  have hother := (h _).mp (map_mem_prod_heardFor "" ws)
  have hmem : wildcard ∈ ws.map fun w => if w = wildcard then "" else w := hother.symm ▸ hstar
  obtain ⟨w, -, hw⟩ := List.mem_map.mp hmem
  split at hw
  next => exact absurd hw (by decide)
  next hne => exact hne hw

/-! ## Escaped words -/

open Template

/-- Words with a backslash before every character, and spaces between them. -/
def escapedWords (ws : List String) : String :=
  String.ofList ([' '].intercalate (ws.map fun w => escape w.toList))

theorem Sentence.parse_escapedWords {ws : List String} (hws : ∀ w ∈ ws, w ≠ "")
    (origin : Option Origin) :
    Sentence.parse (escapedWords ws) origin = .ok (wordSentence (escapedWords ws) ws) := by
  have hwritable : ∀ e ∈ ws.map Expr.plain, e.Writable fun _ => true := by
    intro e he
    obtain ⟨w, hw, rfl⟩ := List.mem_map.mp he
    exact .word (hws w hw) ⟨by rintro _ ⟨⟩, by rintro _ ⟨⟩⟩ (by rintro _ ⟨⟩)
  have htext : writeItems (fun _ => true) (ws.map Expr.plain) = escapedWords ws := by
    rw [writeItems, List.map_map, escapedWords]
    refine congrArg (fun l => String.ofList ([' '].intercalate l)) (List.map_congr_left fun w _ => ?_)
    simp [Expr.plain, Expr.write, Suffix.write, tagText]
  have hread : (ws.map Expr.plain).map (Expr.asRead (fun _ => true) (origin.bind Origin.intent)) =
      ws.map Expr.plain := by
    rw [List.map_map]
    exact List.map_congr_left fun w _ => by rw [Function.comp_apply, Expr.plain, Expr.asRead]
  have hparse := Sentence.parse_writeItems hwritable origin
  rw [htext, hread] at hparse
  exact hparse

/-- Words in which every character is escaped hear themselves and nothing else, unless one of them
is the wildcard, which is not escaped in the graph. -/
theorem exactPaths_escapedWords {ws : List String} (hne : ws ≠ []) (hws : ∀ w ∈ ws, w ≠ "")
    (origin : Option Origin) (intent : String) (o : CompileOptions) :
    ∃ s g, Sentence.parse (escapedWords ws) origin = .ok s ∧
      Graph.ofSentences [(intent, [s])] [] o = .ok g ∧
      (∀ tokens, g.exactPaths {} tokens ≠ [] ↔ tokens ∈ (ws.map heardFor).prod) ∧
      ((∀ tokens, g.exactPaths {} tokens ≠ [] ↔ tokens = ws) ↔ wildcard ∉ ws) := by
  obtain ⟨g, hg⟩ := exists_ofSentences_wordSentence [] o intent (escapedWords ws) ws
  have hheard := exactPaths_words_ne_nil_iff hg hne hws
  refine ⟨_, g, Sentence.parse_escapedWords hws origin, hg, hheard, ?_⟩
  simp only [hheard]
  exact prod_heardFor_eq_iff

theorem exactPaths_escapedWords_price :
    ["$9", "a b"] ≠ [] ∧ (∀ w ∈ ["$9", "a b"], w ≠ "") ∧
      ∃ s g, Sentence.parse "\\$\\9 \\a\\ \\b" none = .ok s ∧
        Graph.ofSentences [("Buy", [s])] [] = .ok g ∧
        g.exactPaths {} ["$9", "a b"] ≠ [] ∧ g.exactPaths {} ["9", "a b"] = [] := by
  have hws : ∀ w ∈ ["$9", "a b"], w ≠ "" := by decide
  obtain ⟨s, g, hparse, hg, -, hiff⟩ :=
    exactPaths_escapedWords (List.cons_ne_nil _ _) hws none "Buy" {}
  have honly := hiff.mpr (by decide)
  have htext : escapedWords ["$9", "a b"] = "\\$\\9 \\a\\ \\b" := by decide
  refine ⟨List.cons_ne_nil _ _, hws, s, g, htext ▸ hparse, hg, (honly _).mpr rfl, ?_⟩
  exact not_not.mp fun h => absurd ((honly _).mp h) (by decide)

/-- An escaped star hears any word. -/
theorem exactPaths_escapedStar :
    ∃ s g, Sentence.parse "\\*" none = .ok s ∧ Graph.ofSentences [("A", [s])] [] = .ok g ∧
      escapedWords ["*"] = "\\*" ∧ g.exactPaths {} ["la"] ≠ [] := by
  obtain ⟨g, hg⟩ := exists_ofSentences_wordSentence [] {} "A" "\\*" ["*"]
  have hws : ∀ w ∈ ["*"], w ≠ "" := by decide
  have htext : escapedWords ["*"] = "\\*" := by decide
  refine ⟨_, g, htext ▸ Sentence.parse_escapedWords hws none, hg, htext, ?_⟩
  exact (exactPaths_words_ne_nil_iff hg (List.cons_ne_nil _ _) hws _).mpr
    (map_mem_prod_heardFor "la" ["*"])

end Utterance
