import Utterance.Proofs.Compile.Building
import Utterance.Proofs.Failing
import Utterance.Proofs.Search.Halting

/-!
# Limits on what is recognized

A limit is set on the paths that a search finds, before any of them is interpreted.  A path
that is dropped later because its converters reject their values has used up its place, so
there can be fewer recognitions than the limit allows although more would follow
(`limit_volumeGraph`).

Apart from that a limit changes nothing.  A search that ends without it ends under it
(`Settles.limit`), it does not decide whether the stop words are left out
(`exactOrSparse_limit`), and what is recognized under it is the beginning of what is recognized
without it: one recognition for every path that is found, less those that are dropped
(`returns_maxPaths`).  A limit of zero is none of these: it leaves one path like a limit of one
(`returns_zero_iff`).
-/

namespace Utterance

namespace Graph

/-- The search that an exact recognition makes comes to an end, and so does the one without stop
words if it is made. -/
structure Settles (g : Graph) (o : RecognizeOptions) (tokens : List String) : Prop where
  whole : g.Halts o.search (fun _ => false) o.maxPaths tokens
  sparse : g.exactPaths o.search tokens (fun _ => false) o.maxPaths = [] → o.stopWords ≠ [] →
    g.Halts o.search o.isStopWord o.maxPaths
      (tokens.filter fun t => !o.isStopWord (o.search.transform t))

/-- An exact recognition comes to an end, with this result. -/
def Returns (g : Graph) (o : RecognizeOptions) (cs : Converters) (tokens : List String)
    (result : Except InterpretError (List Recognition)) : Prop :=
  g.Settles o tokens ∧ g.recognize o cs tokens = result

/-- A path is dropped because its converters reject their values. -/
def rejects (g : Graph) (cs : Converters) (p : Path) : Bool :=
  match g.interpret cs p with
  | .error (.conversion _ _) => true
  | _ => false

variable {g : Graph} {o : RecognizeOptions} {tokens : List String}

/-- Without silent cycles and without stop words, a recognition comes to an end. -/
theorem Acyclic.settles (hcycles : g.Acyclic fun e => e.isEpsilon) (hg : g.Valid)
    (hstop : o.stopWords = []) (tokens : List String) : g.Settles o tokens :=
  ⟨hcycles.halts hg o.maxPaths tokens, fun _ hne => absurd hstop hne⟩

/-- And over a compiled graph it does so in any case. -/
theorem settles_ofSentences {l : IntentSentences} {t : Table} {c : CompileOptions}
    (hg : Graph.ofSentences l t c = .ok g) (o : RecognizeOptions) (tokens : List String) :
    g.Settles o tokens :=
  ⟨halts_ofSentences hg _ tokens, fun _ _ => halts_ofSentences hg _ _⟩

/-! ## What is found under a limit -/

section

variable (hg : g.Valid) (hnone : o.maxPaths = none) (h : g.Settles o tokens) {k : Nat} (hk : 1 ≤ k)

include hg hnone h hk

/-- At least one path is left by a limit, so it is the same whether the stop words are left
out. -/
theorem whole_limit :
    g.exactPaths o.search tokens (fun _ => false) (some k) =
      (g.exactPaths o.search tokens (fun _ => false) o.maxPaths).take k ∧
    (g.exactPaths o.search tokens (fun _ => false) (some k) = [] ↔
      g.exactPaths o.search tokens (fun _ => false) o.maxPaths = []) := by
  have hwhole := h.whole
  rw [hnone] at hwhole ⊢
  have htake := hwhole.exactPaths_limit hg hk
  refine ⟨htake, ?_⟩
  rw [htake, List.take_eq_nil_iff]
  exact or_iff_right (Nat.ne_of_gt hk)

theorem Settles.limit : g.Settles { o with maxPaths := some k } tokens := by
  obtain ⟨-, hnil⟩ := whole_limit hg hnone h hk
  have hends : ∀ {optional tokens}, g.Halts o.search optional o.maxPaths tokens →
      g.Halts o.search optional (some k) tokens := fun hhalts => by
    rw [hnone] at hhalts
    obtain ⟨n, hn⟩ := hhalts.ends hg (some k)
    exact ⟨n, congrArg Loop.waiting hn⟩
  exact ⟨hends h.whole, fun hempty hstop => hends (h.sparse (hnil.mp hempty) hstop)⟩

/-- Under a limit the first of the paths are found that are found without it. -/
theorem exactOrSparse_limit :
    g.exactOrSparse { o with maxPaths := some k } tokens = (g.exactOrSparse o tokens).take k := by
  obtain ⟨htake, hnil⟩ := whole_limit hg hnone h hk
  by_cases hempty : g.exactPaths o.search tokens (fun _ => false) o.maxPaths = []
  · by_cases hstop : o.stopWords = []
    · simp [exactOrSparse, hnil.mpr hempty, hempty, hstop]
    · have hsparse := h.sparse hempty hstop
      rw [exactOrSparse_of_eq_nil hempty hstop,
        exactOrSparse_of_eq_nil (o := { o with maxPaths := some k }) (hnil.mpr hempty) hstop]
      rw [hnone] at hsparse ⊢
      exact hsparse.exactPaths_limit hg hk
  · rw [exactOrSparse_of_ne_nil hempty,
      exactOrSparse_of_ne_nil (o := { o with maxPaths := some k }) (mt hnil.mp hempty)]
    exact htake

end

/-! ## What is recognized under a limit -/

theorem candidates_of_exact (hexact : o.tolerant = false) :
    g.candidates o tokens = (g.exactOrSparse o tokens).map fun p => (p, none) := by
  rw [candidates, hexact, if_neg Bool.false_ne_true]

/-- The first paths give the first recognitions, one each unless they are dropped. -/
theorem interpretAll_take {cs : Converters} : ∀ {paths : List Path} {rs : List Recognition},
    g.interpretAll cs (paths.map fun p => (p, none)) = .ok rs → ∀ k,
      g.interpretAll cs ((paths.take k).map fun p => (p, none)) =
        .ok (rs.take (k - (paths.take k).countP (g.rejects cs)))
  | paths, rs, _, 0 => by
      rw [Nat.zero_sub, List.take_zero, List.take_zero]
      rfl
  | [], rs, h, k + 1 => by
      obtain rfl : [] = rs := Except.ok.inj h
      rw [List.take_nil]
      exact h
  | p :: paths, rs, h, k + 1 => by
      have hfew : (paths.take k).countP (g.rejects cs) ≤ k :=
        List.countP_le_length.trans (List.length_take_le k paths)
      rw [List.take_succ_cons, List.countP_cons, List.map_cons, interpretAll, rejects]
      rw [List.map_cons, interpretAll] at h
      cases hp : g.interpret cs p with
      | ok r =>
          rw [hp] at h
          obtain ⟨later, hlater, hrs⟩ := Except.bind_eq_ok_iff.mp h
          obtain rfl : r :: later = rs := Except.ok.inj hrs
          simp only [interpretAll_take hlater k, Bool.false_eq_true, if_false, Nat.add_zero]
          rw [Nat.sub_add_comm hfew]
          rfl
      | error err =>
          rw [hp] at h
          cases err with
          | conversion key message =>
              simp only [if_true, Nat.add_sub_add_right]
              exact interpretAll_take h k
          | _ => cases h

/-- Under a limit an exact recognition returns if it does without one, and it returns the
beginning of the same recognitions: as many as paths may be found, less those of the first paths
that are dropped. -/
theorem returns_maxPaths (hg : g.Valid) (hexact : o.tolerant = false) (hnone : o.maxPaths = none)
    {cs : Converters} {rs : List Recognition} (h : g.Returns o cs tokens (.ok rs)) {k : Nat}
    (hk : 1 ≤ k) :
    g.Returns { o with maxPaths := some k } cs tokens
      (.ok (rs.take (k - ((g.exactOrSparse o tokens).take k).countP (g.rejects cs)))) := by
  obtain ⟨hsettles, hrs⟩ := h
  refine ⟨hsettles.limit hg hnone hk, ?_⟩
  rw [recognize, candidates_of_exact hexact] at hrs
  rw [recognize, candidates_of_exact (o := { o with maxPaths := some k }) hexact,
    exactOrSparse_limit hg hnone hsettles hk]
  exact interpretAll_take hrs k

/-! ## A limit of zero -/

/-- Whether the limit is reached is asked when a path has been found, so a limit of zero is
reached where a limit of one is. -/
theorem exactVisit_zero (o : SearchOptions) (optional : String → Bool) :
    g.exactVisit o optional (some 0) = g.exactVisit o optional (some 1) := by
  funext found v
  have hreached : ∀ n ≤ 1, (some n).any (· ≤ found.length + 1) = true := fun n hn =>
    decide_eq_true (Nat.le_add_left_of_le hn)
  unfold exactVisit
  rw [hreached 0 (Nat.zero_le 1), hreached 1 (Nat.le_refl 1)]

theorem halts_zero_iff {o : SearchOptions} {optional : String → Bool} {tokens : List String} :
    g.Halts o optional (some 0) tokens ↔ g.Halts o optional (some 1) tokens := by
  rw [Halts, Halts, exactVisit_zero]

/-- A limit of zero leaves one path, so what is recognized under it need not be empty: it is
what is recognized under a limit of one. -/
theorem returns_zero_iff {cs : Converters}
    {result : Except InterpretError (List Recognition)} :
    g.Returns { o with maxPaths := some 0 } cs tokens result ↔
      g.Returns { o with maxPaths := some 1 } cs tokens result := by
  refine and_congr ⟨fun h => ?_, fun h => ?_⟩ Iff.rfl
  · exact ⟨halts_zero_iff.mp h.whole, fun hempty hstop =>
      halts_zero_iff.mp (h.sparse hempty hstop)⟩
  · exact ⟨halts_zero_iff.mpr h.whole, fun hempty hstop =>
      halts_zero_iff.mpr (h.sparse hempty hstop)⟩

end Graph

/-! ## A path that is dropped -/

/-- A word as a number, in capital letters, or as it is said. -/
def volumeSentence : Sentence :=
  ⟨"(high!int | high!upper | high)",
    [.seq .alternative "high!int | high!upper | high"
      [.word "high" { converters := ["int"] } none, .word "high" { converters := ["upper"] } none,
        .plain "high"] {} none]⟩

def volumeGraph : Graph where
  nodes := #[⟨none, #[0]⟩, ⟨none, #[1, 4, 7]⟩, ⟨none, #[2]⟩, ⟨some "high", #[3]⟩, ⟨none, #[8]⟩,
    ⟨none, #[5]⟩, ⟨some "high", #[6]⟩, ⟨none, #[9]⟩, ⟨some "high", #[10]⟩, ⟨none, #[11]⟩,
    ⟨none, #[]⟩]
  edges := #[{ source := 0, target := 1, output := "__label__Set" },
    { source := 1, target := 2, output := "__convert__int" },
    { source := 2, target := 3, input := "high", output := "high" },
    { source := 3, target := 4, output := "__converted__int" },
    { source := 1, target := 5, output := "__convert__upper" },
    { source := 5, target := 6, input := "high", output := "high" },
    { source := 6, target := 7, output := "__converted__upper" },
    { source := 1, target := 8, input := "high", output := "high" },
    { source := 4, target := 9 }, { source := 7, target := 9 }, { source := 8, target := 9 },
    { source := 9, target := 10 }]
  start := some 0
  final := some 10

def volumeConverters : Converters := .builtin (English.extractor (DateTime.ofUnix 0 0))

theorem ofSentences_volumeSentence :
    Graph.ofSentences [("Set", [volumeSentence])] [] = .ok volumeGraph := by
  have hunfold : volumeSentence.unfold [] "Set" =
      .seq .group [.seq .alternative [.word "high" { converters := ["int"] } none,
        .word "high" { converters := ["upper"] } none, .word "high" {} none] {} none] {} none := by
    simp [Sentence.unfold, Sentence.toExpr, volumeSentence, unfold, unfoldAll, Expr.plain]
  exact (ofSentences_singleton hunfold).trans rfl

/-- What is recognized where the word is taken for a text. -/
def volumeRecognition (text : String) : Recognition :=
  { intent := "Set", confidence := 1, entities := [], text, rawText := "high"
    tokens := [.text text], rawTokens := ["high"] }

def plainPath : Path := [⟨0, 1, []⟩, ⟨1, 8, ["high"]⟩, ⟨8, 9, []⟩, ⟨9, 10, []⟩]

def numberPath : Path :=
  [⟨0, 1, []⟩, ⟨1, 2, []⟩, ⟨2, 3, ["high"]⟩, ⟨3, 4, []⟩, ⟨4, 9, []⟩, ⟨9, 10, []⟩]

def capitalsPath : Path :=
  [⟨0, 1, []⟩, ⟨1, 5, []⟩, ⟨5, 6, ["high"]⟩, ⟨6, 7, []⟩, ⟨7, 9, []⟩, ⟨9, 10, []⟩]

/-- The paths for the three readings of the word, in the order in which they are found. -/
def volumePaths : List Path := [plainPath, numberPath, capitalsPath]

theorem interpret_plainPath :
    volumeGraph.interpret volumeConverters plainPath = .ok (volumeRecognition "high") := rfl

theorem interpret_numberPath : ∃ message,
    volumeGraph.interpret volumeConverters numberPath = .error (.conversion "int" message) :=
  ⟨_, rfl⟩

theorem interpret_capitalsPath :
    volumeGraph.interpret volumeConverters capitalsPath = .ok (volumeRecognition "HIGH") := rfl

/-- The word is no number, so the second path is dropped. -/
theorem interpretAll_volumePaths :
    volumeGraph.interpretAll volumeConverters (volumePaths.map fun p => (p, none)) =
        .ok [volumeRecognition "high", volumeRecognition "HIGH"] ∧
      (volumePaths.take 2).countP (volumeGraph.rejects volumeConverters) = 1 := by
  obtain ⟨message, hnumber⟩ := interpret_numberPath
  constructor
  · rw [volumePaths, List.map_cons, List.map_cons, List.map_cons, Graph.interpretAll,
      interpret_plainPath]
    dsimp only
    rw [Graph.interpretAll, hnumber]
    dsimp only
    rw [Graph.interpretAll, interpret_capitalsPath]
    rfl
  · rw [volumePaths, List.take_succ_cons, List.take_succ_cons, List.take_zero, List.countP_cons,
      List.countP_cons, List.countP_nil, Graph.rejects, Graph.rejects, interpret_plainPath, hnumber]
    rfl

/-- The input is not found as it is, and without its stop word it is found on three paths. -/
theorem returns_volumeGraph :
    volumeGraph.Valid ∧
      volumeGraph.exactPaths {} ["please", "high"] = [] ∧
      volumeGraph.Returns { tolerant := false, stopWords := ["please"] } volumeConverters
        ["please", "high"] (.ok [volumeRecognition "high", volumeRecognition "HIGH"]) ∧
      volumeGraph.Returns { tolerant := false, stopWords := ["please"], maxPaths := some 2 }
        volumeConverters ["please", "high"] (.ok [volumeRecognition "high"]) := by
  have hvalid := (ascending_ofSentences ofSentences_volumeSentence).valid
  have hsettles : volumeGraph.Settles { tolerant := false, stopWords := ["please"] }
      ["please", "high"] := Graph.settles_ofSentences ofSentences_volumeSentence _ _
  have hpaths : volumeGraph.exactOrSparse { tolerant := false, stopWords := ["please"] }
      ["please", "high"] = volumePaths := by decide +kernel
  obtain ⟨hall, hdropped⟩ := interpretAll_volumePaths
  have hrs : volumeGraph.recognize { tolerant := false, stopWords := ["please"] } volumeConverters
      ["please", "high"] = .ok [volumeRecognition "high", volumeRecognition "HIGH"] := by
    rw [Graph.recognize, Graph.candidates_of_exact rfl, hpaths, hall]
  have htwo := Graph.returns_maxPaths hvalid rfl rfl ⟨hsettles, hrs⟩ (k := 2) (by decide)
  rw [hpaths, hdropped] at htwo
  exact ⟨hvalid, by decide +kernel, ⟨hsettles, hrs⟩, htwo⟩

/-- Of the three paths the second one is dropped, so a limit of two leaves one recognition of
two. -/
theorem limit_volumeGraph :
    Graph.ofSentences [("Set", [volumeSentence])] [] = .ok volumeGraph ∧
      (volumeGraph.Acyclic fun e => e.isEpsilon) ∧
      volumeGraph.Returns { tolerant := false } volumeConverters ["high"]
        (.ok [volumeRecognition "high", volumeRecognition "HIGH"]) ∧
      ¬ volumeGraph.Returns { tolerant := false, maxPaths := some 2 } volumeConverters ["high"]
        (.ok ([volumeRecognition "high", volumeRecognition "HIGH"].take 2)) := by
  have hascending := ascending_ofSentences ofSentences_volumeSentence
  have hpaths : volumeGraph.exactOrSparse { tolerant := false } ["high"] = volumePaths := by
    decide +kernel
  have htwo : volumeGraph.exactOrSparse { tolerant := false, maxPaths := some 2 } ["high"] =
      volumePaths.take 2 := by decide +kernel
  obtain ⟨hall, hdropped⟩ := interpretAll_volumePaths
  have hrs : volumeGraph.recognize { tolerant := false } volumeConverters ["high"] =
      .ok [volumeRecognition "high", volumeRecognition "HIGH"] := by
    rw [Graph.recognize, Graph.candidates_of_exact rfl, hpaths, hall]
  refine ⟨ofSentences_volumeSentence, hascending.acyclic,
    ⟨hascending.acyclic.settles hascending.valid rfl _, hrs⟩, ?_⟩
  rintro ⟨-, hlimit⟩
  rw [Graph.recognize, Graph.candidates_of_exact rfl, htwo, Graph.interpretAll_take hall,
    hdropped] at hlimit
  exact absurd (congrArg List.length (Except.ok.inj hlimit)) (by decide)

end Utterance
