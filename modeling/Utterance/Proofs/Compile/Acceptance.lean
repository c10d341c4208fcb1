import Utterance.Proofs.Graph.Label
import Utterance.Proofs.Search.Exact

/-!
# What a compiled graph accepts

Without wildcards the exact search in a compiled graph finds a path that enters
an intent if and only if a sentence of the intent derives the tokens
(`exists_exactPath_iff_derives`).  A path that is found is a route to the final
state, which spells a reading, and every reading is spelled by a route, along
which there is a path short enough to be found.
-/

namespace Utterance

open Utterance.Graph

/-- The intent that the first edge of a path enters. -/
def Graph.entered? (g : Graph) (p : Path) : Option String :=
  p.head?.bind fun s => (g.edge? s.source s.target).bind fun e => Label.intent? e.output

theorem start_ofSentences {l : IntentSentences} {t : Table} {o : CompileOptions} {g : Graph}
    (hg : Graph.ofSentences l t o = .ok g) : g.start = some 0 := by
  obtain ⟨_, _, E⟩ := ofSentences_extends hg
  exact E.start_eq

/-- A path from the start state of a compiled graph enters an intent with its
first edge and spells the intent's label first. -/
theorem Graph.Follows.entered?_eq {l : IntentSentences} {t : Table} {o : CompileOptions}
    {g : Graph} (hg : Graph.ofSentences l t o = .ok g) {R : Edge → List String → Prop}
    {s : PathStep} {p : Path} {b : Nat} (hp : g.Follows R 0 (s :: p) b) :
    ∃ q ∈ l, g.entered? (s :: p) = some q.1 ∧
      g.spelled (s :: p) = intentMark q.1 :: g.spelled p := by
  cases hp with
  | @cons _ c _ e matched _ he _ _ =>
      have hm := mark?_of_edge? he
      obtain ⟨q, hq, hmark⟩ := mark?_start_ofSentences hg hm
      rw [hmark] at hm
      have hlt : 0 < c := by
        rcases (ascending_ofSentences hg).lt_or_loop hm with hlt | ⟨-, hloop⟩
        · exact hlt
        · exact absurd (congrArg Mark.input hloop) (by simp [intentMark, Mark.loop, wildcard])
      refine ⟨q, hq, ?_, ?_⟩
      · have houtput : e.output = (Control.intent q.1).text := congrArg Mark.output hmark
        rw [entered?, List.head?_cons, Option.bind_some, he, Option.bind_some, houtput,
          Label.intent?_text]
      · rw [spelled_cons_of_lt hm hlt, intentMark_spelled]
        rfl

theorem intentMark_injective {i j : String} (h : intentMark i = intentMark j) : i = j := by
  have hname := congrArg (fun m => Label.intent? m.output) h
  simp only [intentMark, Label.intent?_text] at hname
  exact Option.some.inj hname

/-- The intent that is entered is the one whose label is spelled first. -/
theorem Graph.Follows.entered?_of_spelled {l : IntentSentences} {t : Table} {o : CompileOptions}
    {g : Graph} (hg : Graph.ofSentences l t o = .ok g) {R : Edge → List String → Prop}
    {p : Path} {b : Nat} (hp : g.Follows R 0 p b) {intent : String} {ms : List Mark}
    (hspelled : g.spelled p = intentMark intent :: ms) : g.entered? p = some intent := by
  cases p with
  | nil => cases hspelled
  | cons s p =>
      obtain ⟨q, -, hentered, hfirst⟩ := hp.entered?_eq hg
      rw [hspelled] at hfirst
      rw [hentered, intentMark_injective (List.cons.inj hfirst).1]

/-- The label of an intent hears nothing. -/
theorem heardOf_intentMark_cons (intent : String) (ms : List Mark) :
    heardOf (intentMark intent :: ms) = heardOf ms := rfl

section

variable {l : IntentSentences} {t : Table} {o : CompileOptions} {g : Graph}
  (hwild : ∀ h ∈ l.heads ++ t.heads, h.word ≠ some wildcard)
  (hexpand : o.expandSlots = true) (hg : Graph.ofSentences l t o = .ok g)
include hwild hexpand hg

/-- A path that is found spells a reading, which belongs to the intent entered. -/
theorem exists_derives_of_entered {intent : String} {tokens : List String} {p : Path}
    (hp : p ∈ g.exactPaths {} tokens) (hentered : g.entered? p = some intent) :
    ∃ sentences, (intent, sentences) ∈ l ∧ ∃ s ∈ sentences, s.Derives t intent tokens := by
  have hasc := ascending_ofSentences hg
  have hinputs : g.Inputs (· ≠ wildcard) := inputs_ofSentences (by decide)
    (fun h hh text htext heq => hwild h hh (heq ▸ htext)) hg
  obtain ⟨start, final, hstart, hfinal, hfollows, rfl⟩ :=
    follows_of_mem_exactPaths (R := Edge.Exactly) hasc.valid
      (fun he hhear => ((Edge.hear?_eq_some (hinputs.of_edge? he)).mp hhear).1) hp
  obtain rfl : 0 = start := Option.some.inj ((start_ofSentences hg).symm.trans hstart)
  obtain ⟨intent', sentences, hmem, s, hs, r, hr, hmarks⟩ :=
    (route_ofSentences hg hexpand hfinal).mp (hfollows.route hasc)
  have hsame := hfollows.entered?_of_spelled hg hmarks
  rw [hentered] at hsame
  obtain rfl := Option.some.inj hsame
  refine ⟨sentences, hmem, s, hs, r, hr, ?_⟩
  rw [hfollows.tokens_eq hasc hinputs, hmarks, heardOf_intentMark_cons, r.heardOf_marks]

/-- A reading is spelled by a route, along which words are matched one by one. -/
theorem exists_entered_of_derives {intent : String} {sentences : List Sentence} {s : Sentence}
    {tokens : List String} (hmem : (intent, sentences) ∈ l) (hs : s ∈ sentences)
    (hderives : s.Derives t intent tokens) (hne : tokens ≠ []) :
    ∃ p ∈ g.exactPaths {} tokens, g.entered? p = some intent := by
  obtain ⟨r, hr, rfl⟩ := hderives
  obtain ⟨final, hfinal, E⟩ := ofSentences_extends hg
  have hinputs : g.Inputs (· ≠ wildcard) := inputs_ofSentences (by decide)
    (fun h hh text htext heq => hwild h hh (heq ▸ htext)) hg
  have hroute := (route_ofSentences hg hexpand hfinal).mpr
    ⟨intent, sentences, hmem, s, hs, r, hr, rfl⟩
  obtain ⟨p, hfollows, hlength, hspelled, htokens⟩ := hroute.exists_follows
  have hheard : p.tokens = r.heard := by
    rw [htokens, heardOf_intentMark_cons, r.heardOf_marks]
  have hsize : p.length ≤ g.size := by
    have := E.exit_lt Nat.zero_lt_one (List.mem_singleton_self final)
    omega
  rw [← hheard] at hne ⊢
  exact ⟨p, mem_exactPaths_of_follows E.ascending.valid hinputs (start_ofSentences hg) hfinal
    hfollows hne hsize, hfollows.entered?_of_spelled hg hspelled⟩

end

/-- The language of a compiled graph: tokens are accepted for an intent just if
one of its sentences derives them. -/
theorem exists_exactPath_iff_derives {l : IntentSentences} {t : Table} {o : CompileOptions}
    {g : Graph} (hwild : ∀ h ∈ l.heads ++ t.heads, h.word ≠ some wildcard)
    (hexpand : o.expandSlots = true) (hg : Graph.ofSentences l t o = .ok g) (intent : String)
    {tokens : List String} (hne : tokens ≠ []) :
    (∃ p ∈ g.exactPaths {} tokens, g.entered? p = some intent) ↔
      ∃ sentences, (intent, sentences) ∈ l ∧ ∃ s ∈ sentences, s.Derives t intent tokens := by
  constructor
  · rintro ⟨p, hp, hentered⟩
    exact exists_derives_of_entered hwild hexpand hg hp hentered
  · rintro ⟨sentences, hmem, s, hs, hderives⟩
    exact exists_entered_of_derives hwild hexpand hg hmem hs hderives hne

/-- `make it <colour>`, where the rule is a slot with two values. -/
def lampSentence : Sentence :=
  ⟨"make it <colour>",
    [.plain "make", .plain "it", .rule ⟨"<colour>", "colour", none⟩ none]⟩

def lampTable : Table :=
  [("<Lamp.colour>", [.slot "$colour" "colour" {} none]),
    ("$colour", [.plain "red", .plain "green"])]

theorem whole_lampSentence : (lampSentence.unfold lampTable "Lamp").Whole := by
  have hrule : lampTable.get? (Scope.keyOf { intent := "Lamp" } ⟨"<colour>", "colour", none⟩)
      = some [.slot "$colour" "colour" {} none] := rfl
  have hslot : lampTable.get? (slotKey "colour") = some [.plain "red", .plain "green"] := rfl
  have hword : ∀ c text, unfold lampTable c (.plain text) = .word text {} none :=
    fun c text => by rw [Expr.plain, unfold]
  simp [Sentence.unfold, Sentence.toExpr, lampSentence, unfold, unfoldAll, Tree.Whole, AllWhole,
    unfold_rule_of_get? hrule, unfold_slot_of_get? hslot, Scope.enterRule, hword]

theorem derives_lampSentence : lampSentence.Derives lampTable "Lamp" ["make", "it", "green"] :=
  ⟨_, .group (.cons .word (.cons .word (.cons
    (.rule rfl (.slot rfl (.tail _ (.head _)) .word)) .nil))), rfl⟩

theorem exists_exactPath_lampSentence :
    ∃ g, Graph.ofSentences [("Lamp", [lampSentence])] lampTable = .ok g ∧
      ∃ p ∈ g.exactPaths {} ["make", "it", "green"], g.entered? p = some "Lamp" := by
  obtain ⟨g, hg⟩ := exists_ofSentences_singleton whole_lampSentence
  refine ⟨g, hg, (exists_exactPath_iff_derives (by decide) rfl hg "Lamp" (by decide)).mpr ?_⟩
  exact ⟨_, List.mem_singleton_self _, _, List.mem_singleton_self _, derives_lampSentence⟩

end Utterance
