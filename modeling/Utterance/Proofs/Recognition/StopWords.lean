import Utterance.Proofs.Compile.Building
import Utterance.Proofs.Search.Cheapest
import Utterance.Proofs.Wording.Casing
import Utterance.Recognize

/-!
# Stop words and the case of a recognizer

A recognizer puts words and tokens into one case before it compares them, and it looks
up a token among the stop words in this case, too.  The stop words themselves stay as
they are written, so a token is *dropped* just if what the casing makes of it is in the
list (`RecognizerConfig.drops`).  This alone decides what a tolerant search charges for a
token that it skips and which tokens are left for the second exact search
(`skipped_and_kept_of_drops`).

If the stop words are written in the case of the recognizer, every spelling of them is
dropped (`drops_iff_of_keeps`).  One that is not, like `Please` for a recognizer in lower
case, is dropped in no spelling (`please_not_dropped`).
-/

namespace Utterance

/-! ## What a skipped token costs -/

section

variable {κ : Type} [Cost κ]

/-- What it costs to skip tokens, on top of `cost`. -/
def skippedCost (dropped : String → Bool) (cost : κ) (skipped : List String) : κ :=
  skipped.foldl (fun cost t => Cost.add cost (if dropped t then Cost.tenth else Cost.ofNat 1)) cost

/-- A scan ends at the first token that is the word, and all tokens before it are skipped. -/
theorem scanTokens_eq_some_iff {o : SearchOptions} {stopWords : List String} {word : String}
    {h : Hearing κ} : ∀ {tokens : List String} {cost : κ} {n : Nat},
      scanTokens o stopWords word cost n tokens = some h ↔
        ∃ skipped token later, tokens = skipped ++ token :: later ∧
          (∀ t ∈ skipped, o.same word t = false) ∧ o.same word token = true ∧
          h = ⟨skippedCost (fun t => stopWords.contains (o.transform t)) cost skipped,
            n + skipped.length + 1, [token]⟩
  | [], cost, n => by
      refine ⟨fun h => (nomatch h), fun ⟨skipped, token, later, h, _⟩ => ?_⟩
      cases skipped <;> cases h
  | token :: rest, cost, n => by
      rw [scanTokens]
      by_cases hsame : o.same word token = true
      · rw [if_pos hsame]
        refine ⟨fun hfound => ?_, ?_⟩
        · exact ⟨[], token, rest, rfl, List.forall_mem_nil _, hsame, (Option.some.inj hfound).symm⟩
        · rintro ⟨skipped, found, later, heq, hskipped, -, rfl⟩
          cases skipped with
          | nil =>
              cases heq
              rfl
          | cons first skipped =>
              cases heq
              exact absurd hsame (Bool.eq_false_iff.mp (hskipped _ List.mem_cons_self))
      · rw [if_neg hsame, scanTokens_eq_some_iff]
        refine ⟨?_, ?_⟩
        · rintro ⟨skipped, found, later, rfl, hskipped, hfound, rfl⟩
          refine ⟨token :: skipped, found, later, rfl, ?_, hfound, ?_⟩
          · exact List.forall_mem_cons.mpr ⟨Bool.eq_false_iff.mpr hsame, hskipped⟩
          · rw [List.length_cons, Nat.add_right_comm n 1, ← Nat.add_assoc n]
            rfl
        · rintro ⟨skipped, found, later, heq, hskipped, hfound, rfl⟩
          cases skipped with
          | nil =>
              cases heq
              exact absurd hfound hsame
          | cons first skipped =>
              cases heq
              refine ⟨skipped, found, later, rfl, ?_, hfound, ?_⟩
              · exact fun t ht => hskipped t (List.mem_cons_of_mem _ ht)
              · rw [List.length_cons, Nat.add_right_comm n 1, ← Nat.add_assoc n]
                rfl

/-- Apart from a wildcard, a word is found by a scan. -/
theorem usualCost_eq_scanTokens {o : SearchOptions} {stopWords : List String} {word : String}
    (hne : word ≠ "") (hwild : word ≠ wildcard) (tokens : List String) :
    usualCost (κ := κ) o stopWords word tokens =
      scanTokens o stopWords word (Cost.ofNat 0) 0 tokens := by
  have hword : word.isEmpty = false := by simpa using hne
  have hliteral : (word == wildcard) = false := by simpa using hwild
  unfold usualCost
  rw [hword, if_neg Bool.false_ne_true]
  cases tokens with
  | nil => rfl
  | cons token rest => simp only [hliteral, Bool.false_eq_true, if_false]

end

/-! ## Tokens that are dropped -/

/-- In the case of the recognizer, the token is one of the stop words. -/
def RecognizerConfig.drops (c : RecognizerConfig) (token : String) : Bool :=
  c.stopWords.contains (c.casing.apply token)

/-- Stop words that are written in the case of the recognizer are dropped in every spelling. -/
theorem RecognizerConfig.drops_iff_of_keeps {c : RecognizerConfig}
    (hkeeps : ∀ w ∈ c.stopWords, c.casing.Keeps w) (token : String) :
    c.drops token = true ↔ ∃ w ∈ c.stopWords, c.casing.apply w = c.casing.apply token := by
  rw [drops, List.contains_iff_mem]
  refine ⟨fun h => ⟨_, h, Casing.apply_apply _ _⟩, ?_⟩
  rintro ⟨w, hw, heq⟩
  rw [← heq, show c.casing.apply w = w from hkeeps w hw]
  exact hw

theorem Graph.exactOrSparse_of_eq_nil {g : Graph} {o : RecognizeOptions} {tokens : List String}
    (hnil : g.exactPaths o.search tokens (fun _ => false) o.maxPaths = [])
    (hstop : o.stopWords ≠ []) :
    g.exactOrSparse o tokens =
      g.exactPaths o.search (tokens.filter fun t => !o.isStopWord (o.search.transform t))
        o.isStopWord o.maxPaths := by
  have hsome : o.stopWords.isEmpty = false := by simpa using hstop
  unfold exactOrSparse
  rw [hnil]
  simp only [hsome, Bool.false_eq_true, if_false]

/-- What matches the whole input is what is found. -/
theorem Graph.exactOrSparse_of_ne_nil {g : Graph} {o : RecognizeOptions} {tokens : List String}
    (hne : g.exactPaths o.search tokens (fun _ => false) o.maxPaths ≠ []) :
    g.exactOrSparse o tokens = g.exactPaths o.search tokens (fun _ => false) o.maxPaths := by
  unfold exactOrSparse
  split
  next hnil => exact absurd hnil hne
  next => rfl

/-- A tolerant search finds a word behind tokens that are not the same, and charges a tenth for
those of them that are dropped and one for the others.  If nothing matches the whole input, an
exact search is made for the tokens that are not dropped.  In lower and in upper case, every
spelling of the stop words is dropped if these are written in that case. -/
theorem RecognizerConfig.skipped_and_kept_of_drops {κ : Type} [Cost κ] (c : RecognizerConfig)
    (g : Graph) :
    (∀ (word : String) (tokens : List String) (h : Hearing κ), word ≠ "" → word ≠ wildcard →
      (usualCost c.options.search c.options.stopWords word tokens = some h ↔
        ∃ skipped token later, tokens = skipped ++ token :: later ∧
          (∀ t ∈ skipped, c.casing.apply word ≠ c.casing.apply t) ∧
          c.casing.apply word = c.casing.apply token ∧
          h = ⟨skippedCost c.drops (Cost.ofNat 0) skipped, skipped.length + 1, [token]⟩)) ∧
      (∀ tokens, c.stopWords ≠ [] →
        g.exactPaths c.options.search tokens (fun _ => false) c.maxPaths = [] →
        g.exactOrSparse c.options tokens =
          g.exactPaths c.options.search (tokens.filter fun t => !c.drops t) c.options.isStopWord
            c.maxPaths) ∧
      (∀ t, c.drops t = true ↔ c.casing.apply t ∈ c.stopWords) ∧
      ((∀ w ∈ c.stopWords, c.casing.Keeps w) →
        ∀ t, c.drops t = true ↔ ∃ w ∈ c.stopWords, c.casing.apply w = c.casing.apply t) := by
  refine ⟨fun word tokens h hne hwild => ?_, fun tokens hstop hnil => ?_, fun t => ?_,
    fun hkeeps => drops_iff_of_keeps hkeeps⟩
  · rw [usualCost_eq_scanTokens hne hwild, scanTokens_eq_some_iff]
    simp only [SearchOptions.same, options, beq_eq_false_iff_ne, beq_iff_eq, Nat.zero_add]
    rfl
  · exact Graph.exactOrSparse_of_eq_nil (o := c.options) hnil hstop
  · exact List.contains_iff_mem

/-! ## A stop word that is never dropped -/

def helloSentence : Sentence := ⟨"hello", [.word "hello" {} none]⟩

def helloGraph : Graph where
  nodes := #[⟨none, #[0]⟩, ⟨none, #[1]⟩, ⟨some "hello", #[2]⟩, ⟨none, #[]⟩]
  edges := #[{ source := 0, target := 1, output := "__label__Greet" },
    { source := 1, target := 2, input := "hello", output := "hello" },
    { source := 2, target := 3 }]
  start := some 0
  final := some 3

theorem ofSentences_helloSentence :
    Graph.ofSentences [("Greet", [helloSentence])] [] = .ok helloGraph := by
  have hunfold : helloSentence.unfold [] "Greet" =
      .seq .group [.word "hello" {} none] {} none := by
    simp [Sentence.unfold, Sentence.toExpr, helloSentence, unfold, unfoldAll]
  exact (ofSentences_singleton hunfold).trans rfl

/-- Recognizes in lower case, with a stop word in the given spelling. -/
def politeConfig (stopWord : String) : RecognizerConfig :=
  { tolerant := false, stopWords := [stopWord], casing := .lower }

/-- A stop word in lower case is cheap to skip and is left out of the input, in another spelling,
too. -/
theorem please_dropped :
    usualCost (κ := ℚ) (politeConfig "please").options.search
        (politeConfig "please").options.stopWords "hello" ["Please", "hello"] =
      some ⟨1 / 10, 2, ["hello"]⟩ ∧
      helloGraph.exactOrSparse (politeConfig "please").options ["Please", "hello"] =
        [[⟨0, 1, []⟩, ⟨1, 2, ["hello"]⟩, ⟨2, 3, []⟩]] ∧
      (politeConfig "please").drops "PLEASE" = true := by
  have hkeeps : ∀ w ∈ (politeConfig "please").stopWords,
      (politeConfig "please").casing.Keeps w := by
    unfold Casing.Keeps
    decide
  obtain ⟨hcost, hretry, -, hdrops⟩ := (politeConfig "please").skipped_and_kept_of_drops (κ := ℚ)
    helloGraph
  refine ⟨(hcost _ _ _ (by decide) (by decide)).mpr ⟨["Please"], "hello", [], rfl, ?_, rfl, ?_⟩,
    (hretry _ (List.cons_ne_nil _ _) ?_).trans ?_,
    (hdrops hkeeps "PLEASE").mpr ⟨"please", List.mem_singleton_self _, ?_⟩⟩
  · decide
  · have hdropped : (politeConfig "please").drops "Please" = true := by decide
    simp [skippedCost, hdropped]
  · decide
  · decide
  · decide

/-- For a recognizer in lower case, the stop word `Please` costs as much to skip as any other
token, and the input that it is in is not recognized. -/
theorem please_not_dropped :
    "Please" ∈ (politeConfig "Please").stopWords ∧
      usualCost (κ := ℚ) (politeConfig "Please").options.search
          (politeConfig "Please").options.stopWords "hello" ["Please", "hello"] =
        some ⟨1, 2, ["hello"]⟩ ∧
      Graph.ofSentences [("Greet", [helloSentence])] [] = .ok helloGraph ∧
      helloGraph.exactPaths (politeConfig "Please").options.search ["hello"] ≠ [] ∧
      ∀ cs, helloGraph.recognize (politeConfig "Please").options cs ["Please", "hello"] =
        .ok [] := by
  have hscan : usualCost (κ := ℚ) (politeConfig "Please").options.search
      (politeConfig "Please").options.stopWords "hello" ["Please", "hello"] =
        some ⟨1, 2, ["hello"]⟩ := by
    rw [usualCost_eq_scanTokens (by decide) (by decide), scanTokens_eq_some_iff]
    refine ⟨["Please"], "hello", [], rfl, by decide, by decide, ?_⟩
    have hkept : (politeConfig "Please").options.stopWords.contains
        ((politeConfig "Please").options.search.transform "Please") = false := by decide
    rw [skippedCost, List.foldl_cons, List.foldl_nil, hkept]
    simp
  have hnone : helloGraph.candidates (politeConfig "Please").options ["Please", "hello"] = [] := by
    have hsparse : helloGraph.exactOrSparse (politeConfig "Please").options ["Please", "hello"] =
        [] := by decide
    exact congrArg (List.map fun p => (p, (none : Option Float))) hsparse
  refine ⟨List.mem_singleton_self _, hscan, ofSentences_helloSentence, by decide, ?_⟩
  intro cs
  rw [Graph.recognize, hnone]
  rfl

end Utterance
