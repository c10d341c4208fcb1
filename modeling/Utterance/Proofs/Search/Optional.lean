import Utterance.Proofs.Compile.Building
import Utterance.Proofs.Compile.Language
import Utterance.Proofs.Search.Cycles
import Utterance.Proofs.Recognition.StopWords
import Utterance.Proofs.Search.Found

/-!
# The search that passes over stop words

A path *threads* some tokens if they are taken from it one after the other, each step
taking what its edge hears or passing over an optional word (`Graph.Threads`).  A search
finds the paths that thread all its tokens (`mem_exactPaths_iff_threads`), provided that
edges form no cycle, so that no path is too long for it.

An optional word is passed over only in front of a token that is left, so a search for
tokens without stop words, with the stop words optional, finds a path just if the words
of a path that are no stop words are the tokens and the last word of the path is one of
them (`Threads.of_follows`, `Threads.filter_eq`).  A sentence that ends in a stop word is
not found without it (`please_not_optional`).
-/

namespace Utterance

namespace Graph

/-! ## Threading tokens through a graph -/

/-- The steps of a path from `a` use up the tokens `rest` in turn and leave `left`. -/
inductive Threads (g : Graph) (o : SearchOptions) (optional : String → Bool) :
    Nat → List String → Path → Nat → List String → Prop where
  | nil (a : Nat) (rest : List String) : Threads g o optional a rest [] a rest
  | cons {a b c : Nat} {e : Edge} {rest matched next left : List String} {p : Path} :
      g.edge? a b = some e → o.permits e = true →
      e.hear? o optional rest = some (matched, next) → Threads g o optional b next p c left →
      Threads g o optional a rest (⟨a, b, matched⟩ :: p) c left

section

variable {g : Graph} {o : SearchOptions} {optional : String → Bool}

theorem Threads.follows {a c : Nat} {rest left : List String} {p : Path}
    (h : g.Threads o optional a rest p c left) : g.Follows (fun _ _ => True) a p c := by
  induction h with
  | nil a rest => exact .nil a
  | cons he _ _ _ ih => exact .cons he trivial ih

theorem Threads.eq_of_nil {a c : Nat} {rest left : List String}
    (h : g.Threads o optional a rest [] c left) : c = a ∧ left = rest := by
  cases h
  exact ⟨rfl, rfl⟩

/-- The visits of a level have threaded their tokens through the graph. -/
theorem mem_levels_iff_threads (hg : g.Valid) {v : Visit} : ∀ {k : Nat} {level : List Visit},
    v ∈ g.levels o optional level k ↔ ∃ u ∈ level, ∃ p : Path, p.length = k ∧
      g.Threads o optional u.state u.rest p v.state v.rest ∧ v.back = p.reverse ++ u.back
  | 0, level => by
      refine ⟨fun hv => ⟨v, hv, [], rfl, .nil _ _, rfl⟩, ?_⟩
      rintro ⟨u, hu, p, hlength, hp, hback⟩
      obtain rfl := List.length_eq_zero_iff.mp hlength
      obtain ⟨hstate, hrest⟩ := hp.eq_of_nil
      have heq : v = u := by
        rcases v with ⟨s, rest, back⟩
        rw [Visit.mk.injEq]
        exact ⟨hstate, hrest, hback⟩
      exact heq ▸ hu
  | k + 1, level => by
      rw [levels, mem_levels_iff_threads hg]
      constructor
      · rintro ⟨w, hw, p, rfl, hp, hback⟩
        obtain ⟨u, hu, hw⟩ := List.mem_flatMap.mp hw
        obtain ⟨e, he, matched, hhear, hstate, hback'⟩ := mem_advance.mp hw
        obtain ⟨hmem, hpermits⟩ := List.mem_filter.mp he
        refine ⟨u, hu, ⟨u.state, e.target, matched⟩ :: p, rfl, ?_, ?_⟩
        · exact .cons (hg.mem_edgesFrom.mp hmem) hpermits hhear (hstate ▸ hp)
        · rw [hback, hback', List.reverse_cons, List.append_assoc]
          rfl
      · rintro ⟨u, hu, p, hlength, hp, hback⟩
        obtain ⟨s, p, rfl⟩ := List.exists_cons_of_length_eq_add_one hlength
        cases hp with
        | @cons _ b _ e _ matched next _ _ he hpermits hhear hp =>
            obtain ⟨-, rfl⟩ := hg.of_edge? he
            refine ⟨⟨e.target, next, ⟨u.state, e.target, matched⟩ :: u.back⟩, ?_, p,
              Nat.succ.inj hlength, hp, ?_⟩
            · refine List.mem_flatMap.mpr ⟨u, hu, mem_advance.mpr ⟨e, ?_, matched, hhear, rfl, rfl⟩⟩
              exact List.mem_filter.mpr ⟨hg.mem_edgesFrom.mpr he, hpermits⟩
            · rw [hback, List.reverse_cons, List.append_assoc]
              rfl

/-- Where edges form no cycle, a search finds the paths that thread all tokens. -/
theorem mem_exactPaths_iff_threads (hg : g.Valid) (hcycles : g.Acyclic fun _ => True)
    {tokens : List String} {p : Path} :
    p ∈ g.exactPaths o tokens optional ↔ tokens ≠ [] ∧ ∃ start final,
      g.start = some start ∧ g.final = some final ∧
        g.Threads o optional start tokens p final [] := by
  by_cases hne : tokens = []
  · subst hne
    rw [exactPaths_nil]
    exact ⟨fun hp => (List.not_mem_nil hp).elim, fun h => (h.1 rfl).elim⟩
  cases hstart : g.start with
  | none =>
      have hnone : g.exactPaths o tokens optional = [] := by
        unfold exactPaths
        rw [hstart]
      rw [hnone]
      exact ⟨fun hp => (List.not_mem_nil hp).elim, fun ⟨_, _, _, h, _⟩ => nomatch h⟩
  | some start =>
      rw [exactPaths_eq hstart hne]
      constructor
      · intro hp
        obtain ⟨k, v, hv, haccepted, rfl⟩ := of_mem_exactFrom hp
        obtain ⟨hfinal, hrest⟩ := (Bool.and_eq_true _ _).mp haccepted
        obtain ⟨u, hu, p, -, hp, hback⟩ := (mem_levels_iff_threads hg).mp hv
        obtain rfl := List.mem_singleton.mp hu
        refine ⟨hne, start, v.state, rfl, eq_of_beq hfinal, ?_⟩
        rw [Visit.path, hback, List.append_nil, List.reverse_reverse]
        rwa [List.isEmpty_iff.mp hrest] at hp
      · rintro ⟨-, _, final, hstart', hfinal, hp⟩
        obtain rfl := Option.some.inj hstart'
        have hlength := hp.follows.length_le_size hcycles
        have hbound : p.length < g.exactBound tokens 0 := by
          have hpos := Nat.mul_le_mul_left g.size (Nat.le_add_left 1 tokens.length)
          rw [exactBound]
          omega
        have hmem : ⟨final, [], p.reverse⟩ ∈ g.levels o optional [⟨start, tokens, []⟩] p.length :=
          (mem_levels_iff_threads hg).mpr
            ⟨_, List.mem_singleton_self _, p, rfl, hp, (List.append_nil _).symm⟩
        have haccepted : Visit.isAccepted g ⟨final, [], p.reverse⟩ = true := by
          simp [Visit.isAccepted, isFinal, hfinal]
        have hfound := mem_exactFrom_of_level hbound hmem haccepted
        rwa [Visit.path, List.reverse_reverse] at hfound

end

end Graph

/-! ## Passing over stop words -/

/-- In front of tokens that are no stop words, an edge hears its word unless this is a stop
word, which is passed over if there are tokens left. -/
theorem Edge.hear?_stopWords {S : List String} {e : Edge} (hwild : e.input ≠ wildcard)
    {rest matched next : List String} (hrest : ∀ t ∈ rest, t ∉ S) :
    e.hear? {} S.contains rest = some (matched, next) ↔
      matched = e.words.filter (· ∉ S) ∧ rest = matched ++ next ∧
        ∀ w ∈ e.words, w ∈ S → next ≠ [] := by
  by_cases hempty : e.input = ""
  · rw [hear?_of_silent hempty, words, if_pos hempty]
    constructor
    · intro h
      cases h
      exact ⟨rfl, rfl, fun _ hw => (List.not_mem_nil hw).elim⟩
    · rintro ⟨rfl, rfl, -⟩
      rfl
  rw [words, if_neg hempty]
  cases rest with
  | nil =>
      rw [hear?_nil hempty]
      constructor
      · intro h
        cases h
      · rintro ⟨h, hrest, hahead⟩
        obtain ⟨rfl, rfl⟩ := List.append_eq_nil_iff.mp hrest.symm
        have hstop : e.input ∈ S := by simpa using h
        exact (hahead _ (List.mem_singleton_self _) hstop rfl).elim
  | cons token later =>
      rw [hear?_cons hempty hwild, List.filter_singleton]
      simp only [List.contains_iff_mem]
      by_cases hstop : e.input ∈ S
      · have hother : e.input ≠ token := fun h => hrest token List.mem_cons_self (h ▸ hstop)
        rw [if_neg hother, if_pos hstop, decide_eq_false (not_not_intro hstop), cond_false]
        constructor
        · intro h
          cases h
          exact ⟨rfl, rfl, fun _ _ _ => List.cons_ne_nil _ _⟩
        · rintro ⟨rfl, hcut, -⟩
          rw [hcut, List.nil_append]
      · rw [if_neg hstop, decide_eq_true hstop, cond_true]
        constructor
        · intro h
          split at h
          next hsame =>
            cases h
            exact ⟨by rw [hsame], rfl, fun w hw hw' => (hstop (List.mem_singleton.mp hw ▸ hw')).elim⟩
          next => cases h
        · rintro ⟨rfl, hcut, -⟩
          obtain ⟨rfl, rfl⟩ := List.cons.inj hcut
          rw [if_pos rfl]

namespace Graph

/-- The last word that the path hears is no stop word. -/
def EndsOutside (g : Graph) (S : List String) (p : Path) : Prop :=
  ∀ w, (g.inputsOn p).getLast? = some w → w ∉ S

variable {g : Graph} {S : List String} {a c : Nat} {p : Path}

/-- The tokens that are threaded are the words on the path that are no stop words. -/
theorem Threads.filter_eq (hwild : g.Inputs (· ≠ wildcard)) {rest left : List String}
    (h : g.Threads {} S.contains a rest p c left) (hrest : ∀ t ∈ rest, t ∉ S) :
    rest = (g.inputsOn p).filter (· ∉ S) ++ left ∧ (left = [] → g.EndsOutside S p) := by
  induction h with
  | nil a rest => exact ⟨rfl, fun _ w h => nomatch h⟩
  | @cons a b c e rest matched next left p he _ hhear _ ih =>
      obtain ⟨rfl, rfl, hahead⟩ := (Edge.hear?_stopWords (hwild.of_edge? he) hrest).mp hhear
      obtain ⟨rfl, hends⟩ := ih fun t ht => hrest t (List.mem_append_right _ ht)
      rw [EndsOutside, inputsOn_cons he]
      refine ⟨by rw [List.filter_append, List.append_assoc], fun hleft w hw => ?_⟩
      subst hleft
      by_cases hlater : g.inputsOn p = []
      · rw [hlater, List.append_nil] at hw
        exact fun hstop => hahead w (List.mem_of_getLast? hw) hstop (by rw [hlater]; rfl)
      · rw [List.getLast?_append_of_ne_nil _ hlater] at hw
        exact hends rfl w hw

/-- A path that does not end in a stop word threads the words on it that are none. -/
theorem Threads.of_follows (hwild : g.Inputs (· ≠ wildcard))
    (hp : g.Follows (fun _ _ => True) a p c) (hends : g.EndsOutside S p) :
    ∃ q, g.Threads {} S.contains a ((g.inputsOn p).filter (· ∉ S)) q c [] := by
  induction hp with
  | nil a => exact ⟨[], .nil a []⟩
  | @cons a b c e matched p he _ _ ih =>
      rw [EndsOutside, inputsOn_cons he] at hends
      have hlater : g.EndsOutside S p := fun w hw => by
        have hne : g.inputsOn p ≠ [] := fun hnil => by rw [hnil] at hw; cases hw
        exact hends w (by rwa [List.getLast?_append_of_ne_nil _ hne])
      have hahead : ∀ w ∈ e.words, w ∈ S → (g.inputsOn p).filter (· ∉ S) ≠ [] := by
        intro w hw hstop hnil
        have hall : ∀ w ∈ e.words ++ g.inputsOn p, w ∈ S := fun v hv => by
          rcases List.mem_append.mp hv with hv | hv
          · rw [Edge.words] at hw hv
            split at hw
            · exact (List.not_mem_nil hw).elim
            next hne =>
              rw [if_neg hne] at hv
              rwa [List.mem_singleton.mp hv, ← List.mem_singleton.mp hw]
          · simpa using List.filter_eq_nil_iff.mp hnil v hv
        have hne : e.words ++ g.inputsOn p ≠ [] := List.append_ne_nil_of_left_ne_nil
          (List.ne_nil_of_mem hw) _
        exact hends _ (List.getLast?_eq_some_getLast hne) (hall _ (List.getLast_mem hne))
      obtain ⟨q, hq⟩ := ih hlater
      rw [inputsOn_cons he, List.filter_append]
      refine ⟨⟨a, b, e.words.filter (· ∉ S)⟩ :: q, .cons he (permits_default e) ?_ hq⟩
      refine (Edge.hear?_stopWords (hwild.of_edge? he) fun t ht => ?_).mpr ⟨rfl, rfl, hahead⟩
      rw [← List.filter_append] at ht
      exact of_decide_eq_true (List.mem_filter.mp ht).2

/-- On a compiled graph without wildcards, the search with optional stop words finds a path just
if there are tokens besides the stop words and these are the words of some path besides the stop
words, where the last word of the path is none. -/
theorem exactPaths_optional_ne_nil_iff {l : IntentSentences} {t : Table} {o : CompileOptions}
    (hg : Graph.ofSentences l t o = .ok g) (hwild : g.Inputs (· ≠ wildcard)) {kept : List String}
    (hkept : ∀ t ∈ kept, t ∉ S) :
    g.exactPaths {} kept S.contains ≠ [] ↔ kept ≠ [] ∧
      ∃ p, g.Crosses (fun _ _ => True) p ∧ (g.inputsOn p).filter (· ∉ S) = kept ∧
        g.EndsOutside S p := by
  have hascending := ascending_ofSentences hg
  have hcycles : g.Acyclic fun _ => True := acyclic_of_lt fun {a b e} he _ => by
    rcases hascending.lt_or_loop (mark?_of_edge? he) with hlt | ⟨-, hloop⟩
    · exact hlt
    · exact absurd (congrArg Mark.input hloop) (hwild.of_edge? he)
  rw [Ne, List.eq_nil_iff_forall_not_mem, not_forall]
  constructor
  · rintro ⟨p, hp⟩
    obtain ⟨hne, start, final, hstart, hfinal, hp⟩ :=
      (mem_exactPaths_iff_threads hascending.valid hcycles).mp (not_not.mp hp)
    obtain ⟨hrest, hends⟩ := hp.filter_eq hwild hkept
    rw [List.append_nil] at hrest
    exact ⟨hne, p, ⟨start, final, hstart, hfinal, hp.follows⟩, hrest.symm, hends rfl⟩
  · rintro ⟨hne, p, ⟨start, final, hstart, hfinal, hp⟩, rfl, hends⟩
    obtain ⟨q, hq⟩ := Threads.of_follows hwild hp hends
    exact ⟨q, not_not.mpr ((mem_exactPaths_iff_threads hascending.valid hcycles).mpr
      ⟨hne, start, final, hstart, hfinal, hq⟩)⟩

end Graph

section

variable {l : IntentSentences} {t : Table} {o : CompileOptions} {g : Graph}

/-- If no path matches all tokens, the stop words in them are left out and those on a path become
optional, except at its end. -/
theorem sparse_ne_nil_iff (hwords : ∀ h ∈ l.heads ++ t.heads, h.Hears (· ≠ wildcard))
    (hg : Graph.ofSentences l t o = .ok g) {stopWords tokens : List String}
    (hstop : stopWords ≠ []) (hnone : g.exactPaths {} tokens = []) :
    g.exactOrSparse { tolerant := false, stopWords := stopWords } tokens ≠ [] ↔
      tokens.filter (· ∉ stopWords) ≠ [] ∧ ∃ p, g.Crosses (fun _ _ => True) p ∧
        (g.inputsOn p).filter (· ∉ stopWords) = tokens.filter (· ∉ stopWords) ∧
        ∀ w, (g.inputsOn p).getLast? = some w → w ∉ stopWords := by
  have hkept : ∀ t ∈ tokens.filter (· ∉ stopWords), t ∉ stopWords := fun t ht =>
    of_decide_eq_true (List.mem_filter.mp ht).2
  have hretry : g.exactOrSparse { tolerant := false, stopWords := stopWords } tokens =
      g.exactPaths {} (tokens.filter (· ∉ stopWords)) stopWords.contains := by
    have hfilter : (tokens.filter fun t => !stopWords.contains t) =
        tokens.filter (· ∉ stopWords) :=
      List.filter_congr fun t _ => by rw [List.contains_eq_mem, decide_not]
    rw [← hfilter]
    exact Graph.exactOrSparse_of_eq_nil
      (o := { tolerant := false, stopWords := stopWords }) hnone hstop
  rw [hretry]
  exact Graph.exactPaths_optional_ne_nil_iff hg (inputs_ofSentences (by decide) hwords hg) hkept

end

/-! ## A stop word at the end -/

def lightsSentence : Sentence :=
  ⟨"lights on please", [.word "lights" {} none, .word "on" {} none, .word "please" {} none]⟩

def lightsGraph : Graph where
  nodes := #[⟨none, #[0]⟩, ⟨none, #[1]⟩, ⟨some "lights", #[2]⟩, ⟨some "on", #[3]⟩,
    ⟨some "please", #[4]⟩, ⟨none, #[]⟩]
  edges := #[{ source := 0, target := 1, output := "__label__Lamp" },
    { source := 1, target := 2, input := "lights", output := "lights" },
    { source := 2, target := 3, input := "on", output := "on" },
    { source := 3, target := 4, input := "please", output := "please" },
    { source := 4, target := 5 }]
  start := some 0
  final := some 5

def lightsPath : Path := [⟨0, 1, []⟩, ⟨1, 2, []⟩, ⟨2, 3, []⟩, ⟨3, 4, []⟩, ⟨4, 5, []⟩]

theorem ofSentences_lightsSentence :
    Graph.ofSentences [("Lamp", [lightsSentence])] [] = .ok lightsGraph := by
  have hunfold : lightsSentence.unfold [] "Lamp" =
      .seq .group [.word "lights" {} none, .word "on" {} none, .word "please" {} none] {} none := by
    simp [Sentence.unfold, Sentence.toExpr, lightsSentence, unfold, unfoldAll]
  exact (ofSentences_singleton hunfold).trans rfl

theorem hears_lightsSentence : ∀ h ∈ IntentSentences.heads [("Lamp", [lightsSentence])] ++
    Table.heads [], h.Hears (· ≠ wildcard) := by
  unfold Head.Hears
  decide

theorem crosses_lightsPath : lightsGraph.Crosses (fun _ _ => True) lightsPath :=
  ⟨0, 5, rfl, rfl, .cons (e := lightsGraph.edges[0]) rfl trivial <|
    .cons (e := lightsGraph.edges[1]) rfl trivial <|
    .cons (e := lightsGraph.edges[2]) rfl trivial <|
    .cons (e := lightsGraph.edges[3]) rfl trivial <|
    .cons (e := lightsGraph.edges[4]) rfl trivial <| .nil 5⟩

/-- A stop word that another word follows is passed over. -/
theorem on_optional :
    (∀ h ∈ IntentSentences.heads [("Lamp", [lightsSentence])] ++ Table.heads [],
        h.Hears (· ≠ wildcard)) ∧
      Graph.ofSentences [("Lamp", [lightsSentence])] [] = .ok lightsGraph ∧
      lightsGraph.exactPaths {} ["lights", "please"] = [] ∧
      lightsGraph.exactOrSparse { tolerant := false, stopWords := ["on"] } ["lights", "please"] ≠
        [] := by
  have hnone : lightsGraph.exactPaths {} ["lights", "please"] = [] := by decide
  refine ⟨hears_lightsSentence, ofSentences_lightsSentence, hnone, ?_⟩
  refine (sparse_ne_nil_iff hears_lightsSentence ofSentences_lightsSentence
    (List.cons_ne_nil _ _) hnone).mpr
    ⟨by decide, lightsPath, crosses_lightsPath, by decide, ?_⟩
  intro w hw
  obtain rfl : "please" = w := Option.some.inj hw
  decide

/-- Without the stop word at its end the sentence is not found, although its other words are the
input. -/
theorem please_not_optional :
    (∀ h ∈ IntentSentences.heads [("Lamp", [lightsSentence])] ++ Table.heads [],
        h.Hears (· ≠ wildcard)) ∧
      Graph.ofSentences [("Lamp", [lightsSentence])] [] = .ok lightsGraph ∧
      lightsGraph.exactPaths {} ["lights", "on"] = [] ∧
      ["lights", "on"].filter (· ∉ ["please"]) ≠ [] ∧
      lightsGraph.Crosses (fun _ _ => True) lightsPath ∧
      (lightsGraph.inputsOn lightsPath).filter (· ∉ ["please"]) =
        ["lights", "on"].filter (· ∉ ["please"]) ∧
      lightsGraph.exactOrSparse { tolerant := false, stopWords := ["please"] } ["lights", "on"] =
        [] := by
  refine ⟨hears_lightsSentence, ofSentences_lightsSentence, ?_, ?_, crosses_lightsPath, ?_, ?_⟩
  · decide
  · decide
  · decide
  · decide

end Utterance
