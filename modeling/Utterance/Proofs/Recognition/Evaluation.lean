import Utterance.Proofs.Recognition.Meaning

/-!
# Interpreting is evaluating

For every reading of a sentence there is a path through the compiled graph that
matches its words, and whatever path spells the reading is worth what the
reading means: the tokens are the values that `Reading.meaning` evaluates to, or
the same converter fails (`interpret_reading`).
-/

namespace Utterance

open Utterance.Graph

/-! ## Marks of readings without wildcards -/

/-- No wildcard is written at the node. -/
def Head.Fixed (h : Head) : Prop := ∀ x ∈ h.word.toList ++ h.substitutions, x ≠ wildcard

instance (h : Head) : Decidable h.Fixed :=
  inferInstanceAs (Decidable (∀ x ∈ h.word.toList ++ h.substitutions, x ≠ wildcard))

theorem Label.Sayable.pack_ne_wildcard {label : String} (h : Label.Sayable label)
    (hne : label ≠ wildcard) : Label.pack label ≠ wildcard := fun hpack => by
  have hunpack : Label.unpack? wildcard = some wildcard :=
    Label.unpack?_of_not_packed (Label.not_mark_of_not_isControl (by decide))
  have hlabel := Label.unpack?_pack h.not_packed
  rw [hpack, hunpack] at hlabel
  exact hne (Option.some.inj hlabel).symm

theorem output_ne_of_mem_saidMarks {labels : List String}
    (h : ∀ label ∈ labels, Label.Sayable label ∧ label ≠ wildcard) :
    ∀ m ∈ saidMarks labels, m.output ≠ wildcard := by
  intro m hm
  obtain ⟨label, hlabel, hm⟩ := List.mem_flatMap.mp hm
  rw [Mark.eq_of_mem_spelled hm]
  exact (h label hlabel).1.pack_ne_wildcard (h label hlabel).2

theorem output_ne_of_mem_enclose {w? : Option String} {suffix : Suffix} {tag : Option Tag}
    (hplain : Head.Plain ⟨w?, suffix, tag⟩) (hfixed : Head.Fixed ⟨w?, suffix, tag⟩) {hidden : Bool}
    {ms : List Mark} (h : ∀ m ∈ ms, m.output ≠ wildcard) :
    ∀ m ∈ Reading.enclose hidden suffix tag ms, m.output ≠ wildcard := by
  have hcontrols : ∀ {l : List Control}, ∀ label ∈ l.map Control.text, label ≠ wildcard := by
    intro l label hlabel
    obtain ⟨c, -, rfl⟩ := List.mem_map.mp hlabel
    exact c.text_ne_wildcard
  intro m hm
  rcases List.mem_append.mp hm with hm | hm
  · rcases List.mem_append.mp hm with hm | hm
    · refine output_ne_of_mem_saidMarks (fun label hlabel => ?_) m hm
      refine ⟨sayable_labelsBefore suffix tag label hlabel, ?_⟩
      rw [labelsBefore_eq] at hlabel
      exact hcontrols label hlabel
    · exact h m hm
  · refine output_ne_of_mem_saidMarks (fun label hlabel => ?_) m hm
    refine ⟨sayable_labelsAfter hplain label hlabel, ?_⟩
    rw [labelsAfter_eq] at hlabel
    rcases List.mem_append.mp hlabel with hlabel | hlabel
    · exact hfixed label (List.mem_append_right _ (mem_substitutions_of_saidInstead hlabel))
    · exact hcontrols label hlabel

mutual

/-- The marks of a reading say no wildcard if none is written in it. -/
theorem Reading.output_ne_of_mem_marks : ∀ {r : Reading} {hidden : Bool},
    r.All (fun h => h.Plain ∧ h.Fixed) → ∀ m ∈ r.marks hidden, m.output ≠ wildcard
  | .word text suffix tag, hidden, hr => by
      rw [All] at hr
      have hmem : text ∈ (⟨some text, suffix, tag⟩ : Head).word.toList
          ++ Head.substitutions ⟨some text, suffix, tag⟩ := List.mem_append_left _ (by simp)
      rw [marks]
      refine output_ne_of_mem_enclose hr.1 hr.2 fun m hm => ?_
      rw [Mark.eq_of_mem_spelled hm]
      change (if (hidden || isReplaced suffix tag) = true then "" else Label.pack text) ≠ wildcard
      split
      · decide
      · exact (Label.sayable_of_not_isControl (hr.1 text hmem)).pack_ne_wildcard (hr.2 text hmem)
  | .node slot parts suffix tag, hidden, hr => by
      rw [All] at hr
      rw [marks]
      refine output_ne_of_mem_enclose hr.1.1 hr.1.2 fun m hm => ?_
      rcases List.mem_append.mp hm with hm | hm
      · exact output_ne_of_mem_marksInTurn hr.2 m hm
      · obtain ⟨name, -, hm⟩ := List.mem_flatMap.mp hm
        refine output_ne_of_mem_saidMarks (fun label hlabel => ?_) m hm
        rw [List.mem_singleton.mp hlabel]
        exact ⟨Label.sayable_source _, Control.text_ne_wildcard _⟩

theorem Reading.output_ne_of_mem_marksInTurn : ∀ {rs : List Reading} {hidden : Bool},
    AllInTurn (fun h => h.Plain ∧ h.Fixed) rs → ∀ m ∈ marksInTurn hidden rs, m.output ≠ wildcard
  | [], _, _, m, hm => (List.not_mem_nil hm).elim
  | r :: rs, hidden, hrs, m, hm => by
      rw [AllInTurn] at hrs
      rcases List.mem_append.mp hm with hm | hm
      · exact output_ne_of_mem_marks hrs.1 m hm
      · exact output_ne_of_mem_marksInTurn hrs.2 m hm

end

/-! ## Paths that spell a reading -/

namespace Graph.Follows

variable {g : Graph} {R : Edge → List String → Prop} {a b : Nat} {p : Path}

theorem output_ne (hp : g.Follows R a p b) (hg : g.Ascending) (hwild : g.Inputs (· ≠ wildcard))
    (hfixed : ∀ m ∈ g.spelled p, m.output ≠ wildcard) :
    ∀ s ∈ p, ∀ e, g.edge? s.source s.target = some e → e.output ≠ wildcard := by
  intro s hs e he
  obtain ⟨e', he', hmark⟩ := hp.exists_mark hg hwild s hs
  obtain rfl : e = e' := Option.some.inj (he.symm.trans he')
  rcases hmark with hsilent | hmem
  · have houtput : e.output = "" := congrArg Mark.output hsilent
    rw [houtput]
    decide
  · exact hfixed _ hmem

end Graph.Follows

end Utterance
