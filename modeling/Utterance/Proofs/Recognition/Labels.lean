import Utterance.Proofs.Recognition.Interpreting
import Utterance.Proofs.Search.Follows

/-!
# The labels along a path

What a path means depends on the labels of its steps, in their order
(`interpret_path`).  The first label names the intent.  Over the others the
marks must be nested; empty labels play no part.
-/

namespace Utterance

/-! ## Emissions -/

/-- What an edge says where it has matched some tokens. -/
def Edge.spoken (e : Edge) (matched : List String) : String :=
  if e.output == wildcard then spaced matched else e.output

theorem Edge.spoken_of_eq {e : Edge} (h : e.output = wildcard) (matched : List String) :
    e.spoken matched = spaced matched := if_pos (beq_iff_eq.mpr h)

theorem Edge.spoken_of_ne {e : Edge} (h : e.output ≠ wildcard) (matched : List String) :
    e.spoken matched = e.output := if_neg fun heq => h (eq_of_beq heq)

namespace Graph

/-- The label of a step, unpacked. -/
def label? (g : Graph) (s : PathStep) : Option String :=
  (g.edge? s.source s.target).bind fun e => Label.unpack? (e.spoken s.matched)

def emissionAt (g : Graph) (s : PathStep) : Emission :=
  ⟨(g.word? s.target).getD "", (g.label? s).getD "", s.matched⟩

/-- The labels of all steps. -/
def labels (g : Graph) (p : Path) : List String := p.map fun s => (g.label? s).getD ""

theorem emission_eq {g : Graph} {s : PathStep} (hs : (g.label? s).isSome) :
    g.emission s = .ok (g.emissionAt s) := by
  obtain ⟨label, hlabel⟩ := Option.isSome_iff_exists.mp hs
  rw [emissionAt, hlabel]
  obtain ⟨e, he, hunpack⟩ := Option.bind_eq_some_iff.mp hlabel
  have hsaid : Label.unpack?
      (if e.output == wildcard then " ".intercalate s.matched else e.output) = some label := hunpack
  rw [emission, he]
  simp only [hsaid]
  rfl

theorem emissions_eq {g : Graph} : ∀ {p : Path}, (∀ s ∈ p, (g.label? s).isSome) →
    g.emissions p = .ok (p.map g.emissionAt)
  | [], _ => rfl
  | s :: p, hp => by
      have ih := emissions_eq fun s hs => hp s (List.mem_cons_of_mem _ hs)
      rw [emissions] at ih ⊢
      rw [List.mapM_cons, emission_eq (hp s List.mem_cons_self), ih]
      rfl

end Graph

/-! ## Empty labels -/

theorem Talk.step_empty (cs : Converters) (s : Talk) : Talk.step cs s "" = .ok s := by
  have hread : Control.read? "" = none := by decide
  rw [step_passes (hread ▸ Control.passes_none)]
  exact congrArg Except.ok (put_nil s)

/-- Empty labels say nothing. -/
theorem Talk.run_filter (cs : Converters) : ∀ (s : Talk) (labels : List String),
    Talk.run cs s (labels.filter (· ≠ "")) = Talk.run cs s labels
  | _, [] => rfl
  | s, label :: labels => by
      rw [run_cons]
      by_cases hlabel : label = ""
      · rw [List.filter_cons_of_neg (by simpa using hlabel), hlabel, step_empty]
        exact run_filter cs s labels
      · rw [List.filter_cons_of_pos (by simpa using hlabel), run_cons]
        cases step cs s label with
        | error err => rfl
        | ok s' => exact run_filter cs s' labels

theorem filterMap_read?_filter (labels : List String) :
    (labels.filter (· ≠ "")).filterMap Control.read? = labels.filterMap Control.read? := by
  rw [List.filterMap_filter]
  refine List.filterMap_congr fun label _ => ?_
  by_cases hlabel : label = ""
  · rw [hlabel]
    decide
  · simp [hlabel]

/-- Emissions that do not count have empty labels, apart from those that start
an intent. -/
theorem labels_of_counts {es : List Emission} (hes : ∀ e ∈ es, e.intent? = none) :
    ((es.filter Emission.counts).map Emission.label).filter (· ≠ "")
      = (es.map Emission.label).filter (· ≠ "") := by
  rw [List.filter_map, List.filter_map, List.filter_filter]
  refine congrArg _ (List.filter_congr fun e he => ?_)
  rw [Emission.counts, hes e he]
  by_cases hlabel : e.label = ""
  · simp [hlabel]
  · simp [hlabel]

/-! ## Paths -/

theorem controlsOf_eq (es : List Emission) :
    controlsOf es = (es.map Emission.label).filterMap Control.read? := by
  rw [List.filterMap_map]
  rfl

section

variable {es : List Emission} (hes : ∀ e ∈ es, e.intent? = none)
include hes

theorem controlsOf_filter_counts :
    controlsOf (es.filter Emission.counts) = (es.map Emission.label).filterMap Control.read? := by
  rw [controlsOf_eq, ← filterMap_read?_filter, labels_of_counts hes, filterMap_read?_filter]

theorem talkOf_filter_counts (cs : Converters) :
    talkOf cs (es.filter Emission.counts)
      = (Talk.run cs {} (es.map Emission.label)).bind Talk.result := by
  rw [talkOf, ← Talk.run_filter, labels_of_counts hes, Talk.run_filter]

/-- The first emission alone starts an intent. -/
theorem intentOf_cons {e : Emission} {intent : String} (he : e.intent? = some intent) :
    intentOf (e :: es) = intent := by
  have hnone : es.reverse.findSome? Emission.intent? = none :=
    List.findSome?_eq_none_iff.mpr fun e he => hes e (List.mem_reverse.mp he)
  rw [intentOf, List.reverse_cons, List.findSome?_append, hnone]
  simp [he]

end

namespace Graph

variable {g : Graph}

theorem map_emissionAt_label (g : Graph) (p : Path) :
    (p.map g.emissionAt).map Emission.label = g.labels p := by
  rw [List.map_map]
  rfl

/-- After the label of an intent the other labels alone count. -/
theorem emissions_after_intent {s : PathStep} {p : Path} {intent : String}
    (hfirst : g.label? s = some (Control.intent intent).text)
    (hp : ∀ s ∈ p, ∃ label, g.label? s = some label ∧ Label.intent? label = none) :
    g.emissions (s :: p) = .ok ((s :: p).map g.emissionAt) ∧
      ((s :: p).map g.emissionAt).filter Emission.counts
        = (p.map g.emissionAt).filter Emission.counts ∧
      ∀ e ∈ p.map g.emissionAt, e.intent? = none := by
  refine ⟨emissions_eq fun t ht => ?_, ?_, fun e he => ?_⟩
  · rcases List.mem_cons.mp ht with rfl | ht
    · rw [hfirst]
      rfl
    · obtain ⟨label, hlabel, -⟩ := hp t ht
      rw [hlabel]
      rfl
  · rw [List.map_cons, List.filter_cons_of_neg]
    rw [Emission.counts, Emission.intent?, emissionAt, hfirst, Option.getD_some, Label.intent?_text]
    exact Bool.false_ne_true
  · obtain ⟨t, ht, rfl⟩ := List.mem_map.mp he
    obtain ⟨label, hlabel, hnone⟩ := hp t ht
    rw [Emission.intent?, emissionAt, hlabel]
    exact hnone

end Graph

/-- A path whose first label is that of an intent means what its other labels
say, if the marks among them are nested. -/
theorem interpret_path {g : Graph} {cs : Converters} {s : PathStep} {p : Path} {intent : String}
    (hcs : cs.DisplaysOn ((g.labels p).filterMap Control.read?))
    (hfirst : g.label? s = some (Control.intent intent).text)
    (hp : ∀ s ∈ p, ∃ label, g.label? s = some label ∧ Label.intent? label = none)
    (hnest : Nested ((g.labels p).filterMap Control.read?)) (cost : Option Float) :
    (∃ r values, g.interpret cs (s :: p) cost = .ok r ∧
        (Talk.run cs {} (g.labels p)).bind Talk.result = .ok values ∧ r.intent = intent ∧
        ((∀ label ∈ g.labels p, Label.Clean label) → r.tokens = values.filter Value.isSpoken) ∧
        r.entities.map Entity.name
          = ((g.labels p).filterMap Control.read?).filterMap Control.closed?)
      ∨ ∃ err, g.interpret cs (s :: p) cost = .error err ∧
        (Talk.run cs {} (g.labels p)).bind Talk.result = .error err ∧
        cs.Gives ((g.labels p).filterMap Control.read?) err := by
  obtain ⟨hes, hcounts, hrest⟩ := Graph.emissions_after_intent hfirst hp
  have hlabels := g.map_emissionAt_label p
  have hintent : (g.emissionAt s).intent? = some intent := by
    rw [Emission.intent?, Graph.emissionAt, hfirst]
    exact Label.intent?_text intent
  have hcontrols : controlsOf (((s :: p).map g.emissionAt).filter Emission.counts)
      = (g.labels p).filterMap Control.read? := by
    rw [hcounts, controlsOf_filter_counts hrest, hlabels]
  have hspec := interpret_of_nested (hcontrols.symm ▸ hcs) hes
    (hcontrols.symm ▸ hnest) cost
  rw [hcontrols, hcounts, talkOf_filter_counts hrest, hlabels, List.map_cons,
    intentOf_cons hrest hintent] at hspec
  refine hspec.imp_left ?_
  rintro ⟨r, values, hr, hvalues, hname, htokens, hentities⟩
  refine ⟨r, values, hr, hvalues, hname, fun hclean => htokens fun e he => hclean _ ?_, hentities⟩
  rw [← hlabels]
  exact List.mem_map_of_mem (List.mem_filter.mp he).1

end Utterance
