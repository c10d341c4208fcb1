import Utterance.Proofs.Compile.Acceptance
import Utterance.Proofs.Compile.Balance
import Utterance.Proofs.Search.Found

/-!
# The steps of a path through a compiled graph

A path from the start to the final state of a compiled graph enters an intent
with its first step, and the marks along the others are balanced
(`Crosses.exists_steps`).  The labels of the steps carry the same controls
(`Follows.carries`), as long as the tokens that are said in place of a
wildcard are *inert*: they are no marks, or at most name a source.
-/

namespace Utterance

open Utterance.Graph

/-- The sentences and the table hold no word and no substitution that looks like
a mark. -/
def PlainTemplates (l : IntentSentences) (t : Table) : Prop :=
  ∀ h ∈ l.heads ++ t.heads, h.Plain

instance (l : IntentSentences) (t : Table) : Decidable (PlainTemplates l t) :=
  inferInstanceAs (Decidable (∀ h ∈ l.heads ++ t.heads,
    ∀ x ∈ h.word.toList ++ h.substitutions, Label.isControl x = false))

/-! ## Marks of compiled graphs -/

/-- A path through a compiled graph spells what the compiled sentences spell. -/
theorem Graph.Crosses.spelled_mem {l : IntentSentences} {t : Table} {o : CompileOptions}
    {g : Graph} (hg : Graph.ofSentences l t o = .ok g) {R : Edge → List String → Prop} {p : Path}
    (hp : g.Crosses R p) : g.spelled p ∈ languageOfIntents t o.expandSlots l ∧
      ∃ final, g.Follows R 0 p final := by
  obtain ⟨final, hfinal, E⟩ := ofSentences_extends hg
  obtain ⟨start, final', hstart, hfinal', hfollows⟩ := hp
  obtain rfl : 0 = start := Option.some.inj ((start_ofSentences hg).symm.trans hstart)
  obtain rfl : final = final' := Option.some.inj (hfinal.symm.trans hfinal')
  exact ⟨(E.spells _).mpr ⟨final, List.mem_singleton_self final, hfollows.route E.ascending⟩,
    final, hfollows⟩

/-- A path that spells the mark of an intent first enters this intent with its first step. -/
theorem Graph.Crosses.exists_entry {l : IntentSentences} {t : Table} {o : CompileOptions}
    {g : Graph} (hg : Graph.ofSentences l t o = .ok g) {R : Edge → List String → Prop} {p : Path}
    (hp : g.Crosses R p) {intent : String} {ms : List Mark}
    (hspelled : g.spelled p = intentMark intent :: ms) :
    ∃ s rest a b, p = s :: rest ∧ g.entered? p = some intent ∧
      g.label? s = some (Control.intent intent).text ∧ g.Follows R a rest b ∧
      g.spelled rest = ms := by
  obtain ⟨-, final, hfollows⟩ := hp.spelled_mem hg
  have hentered := hfollows.entered?_of_spelled hg hspelled
  cases hfollows with
  | nil => cases hspelled
  | @cons _ c _ e matched rest he hR hrest =>
      obtain ⟨q, -, hq, hcons⟩ := (Follows.cons he hR hrest).entered?_eq hg
      obtain rfl : q.1 = intent := Option.some.inj (hq.symm.trans hentered)
      have houtput : e.output = (Control.intent q.1).text := by
        have hintent : Label.intent? e.output = some q.1 := by
          rw [← hentered, entered?, List.head?_cons, Option.bind_some, he, Option.bind_some]
        exact Label.intent?_eq_some.mp hintent
      refine ⟨_, rest, c, final, rfl, hentered, ?_, hrest,
        (List.cons.inj (hcons.symm.trans hspelled)).2⟩
      rw [label?, he, Option.bind_some, Edge.spoken_of_ne (houtput ▸ Control.text_ne_wildcard _),
        houtput]
      exact Label.unpack?_of_not_packed (Control.not_packed _)

/-- A path through a compiled graph enters an intent first and is balanced
afterwards. -/
theorem Graph.Crosses.exists_steps {l : IntentSentences} {t : Table} {o : CompileOptions}
    {g : Graph} (hplain : PlainTemplates l t) (hg : Graph.ofSentences l t o = .ok g)
    {R : Edge → List String → Prop} {p : Path} (hp : g.Crosses R p) :
    ∃ intent s rest a b, p = s :: rest ∧ g.entered? p = some intent ∧
      g.label? s = some (Control.intent intent).text ∧ g.Follows R a rest b ∧
      Balanced (g.spelled rest) ∧ g.spelled p = intentMark intent :: g.spelled rest := by
  obtain ⟨intent, ms, hspelled, hbalanced⟩ :=
    compositional_balanced.of_mem_languageOfIntents hplain (hp.spelled_mem hg).1
  obtain ⟨s, rest, a, b, hsteps, hentered, hlabel, hrest, rfl⟩ := hp.exists_entry hg hspelled
  exact ⟨intent, s, rest, a, b, hsteps, hentered, hlabel, hrest, hbalanced, hspelled⟩

/-! ## Labels and marks -/

/-- What is said in place of a wildcard is no mark, or at most names a source. -/
def Label.Inert (text : String) : Prop :=
  ∃ label, Label.unpack? text = some label ∧
    (Control.read? label = none ∨ ∃ slot, Control.read? label = some (.source slot))

/-- Wherever a wildcard is said on a path, the text in its place has the property. -/
def Graph.SaysOnly (g : Graph) (P : String → Prop) (p : Path) : Prop :=
  ∀ s ∈ p, ∀ e, g.edge? s.source s.target = some e → e.output = wildcard → P (spaced s.matched)

theorem Label.intent?_of_read? {label : String} (h : ∀ name, Control.read? label ≠ some (.intent name)) :
    Label.intent? label = none := by
  cases hintent : Label.intent? label with
  | none => rfl
  | some name =>
      rw [Label.intent?_eq_some.mp hintent, Control.read?_text] at h
      exact absurd rfl (h name)

/-- A control of this kind leaves stack and entities alone. -/
theorem nestAll_of_inert {label : String} (h : Control.read? label = none ∨
    ∃ slot, Control.read? label = some (.source slot)) (S : List Opened) (l : List Control) :
    nestAll S ((Control.read? label).toList ++ l) = nestAll S l := by
  rcases h with h | ⟨slot, h⟩
  · rw [h]
    rfl
  · rw [h]
    rfl

/-- The labels on a path carry the controls of its marks. -/
structure Graph.Carries (g : Graph) (p : Path) (ms : List Mark) : Prop where
  said : ∀ s ∈ p, ∃ label, g.label? s = some label ∧ Label.intent? label = none
  nestAll_eq : ∀ S, nestAll S ((g.labels p).filterMap Control.read?)
    = nestAll S (ms.filterMap Mark.control?)
  closed_eq : ((g.labels p).filterMap Control.read?).filterMap Control.closed?
    = (ms.filterMap Mark.control?).filterMap Control.closed?
  converters : ∀ key, .endConvert key ∈ (g.labels p).filterMap Control.read? →
    .endConvert key ∈ ms.filterMap Mark.control?

theorem Graph.Carries.nil (g : Graph) : g.Carries [] [] :=
  ⟨fun _ h => (List.not_mem_nil h).elim, fun _ => rfl, rfl, fun _ h => h⟩

theorem Graph.labels_cons {g : Graph} {s : PathStep} {label : String}
    (hs : g.label? s = some label) (p : Path) : g.labels (s :: p) = label :: g.labels p := by
  rw [labels, List.map_cons, hs]
  rfl

/-- A step whose label has the control of its mark. -/
theorem Graph.Carries.cons {g : Graph} {p : Path} {ms : List Mark} (hp : g.Carries p ms)
    {s : PathStep} {m : Mark} {label : String} (hs : g.label? s = some label)
    (hintent : Label.intent? label = none) (hm : m.control? = Control.read? label) :
    g.Carries (s :: p) (m.spelled ++ ms) where
  said t ht := by
    rcases List.mem_cons.mp ht with rfl | ht
    · exact ⟨label, hs, hintent⟩
    · exact hp.said t ht
  nestAll_eq S := by
    rw [labels_cons hs, filterMap_cons_toList, List.filterMap_append, filterMap_control?_spelled,
      hm, nestAll_append, nestAll_append]
    exact congrArg (Option.bind _) (funext hp.nestAll_eq)
  closed_eq := by
    simp only [labels_cons hs, filterMap_cons_toList, List.filterMap_append,
      filterMap_control?_spelled, hm, hp.closed_eq]
  converters key h := by
    rw [labels_cons hs, filterMap_cons_toList] at h
    rw [List.filterMap_append, filterMap_control?_spelled, hm]
    exact List.mem_append.mpr ((List.mem_append.mp h).imp_right (hp.converters key))

/-- A step whose label is inert, with no mark that carries a control. -/
theorem Graph.Carries.cons_inert {g : Graph} {p : Path} {ms ns : List Mark} (hp : g.Carries p ms)
    {s : PathStep} {label : String} (hs : g.label? s = some label)
    (hinert : Control.read? label = none ∨ ∃ slot, Control.read? label = some (.source slot))
    (hns : ns.filterMap Mark.control? = []) : g.Carries (s :: p) (ns ++ ms) where
  said t ht := by
    rcases List.mem_cons.mp ht with rfl | ht
    · refine ⟨label, hs, Label.intent?_of_read? fun name hname => ?_⟩
      rcases hinert with h | ⟨slot, h⟩ <;> rw [h] at hname <;> cases hname
    · exact hp.said t ht
  nestAll_eq S := by
    rw [labels_cons hs, filterMap_cons_toList, List.filterMap_append, hns, nestAll_of_inert hinert,
      hp.nestAll_eq]
    rfl
  closed_eq := by
    have hnone : (Control.read? label).toList.filterMap Control.closed? = [] := by
      rcases hinert with h | ⟨slot, h⟩ <;> rw [h] <;> rfl
    rw [labels_cons hs, filterMap_cons_toList, List.filterMap_append, List.filterMap_append, hns,
      hnone, hp.closed_eq]
    rfl
  converters key h := by
    rw [labels_cons hs, filterMap_cons_toList] at h
    rw [List.filterMap_append]
    rcases List.mem_append.mp h with h | h
    · rcases hinert with hread | ⟨slot, hread⟩ <;> rw [hread] at h <;> simp at h
    · exact List.mem_append_right _ (hp.converters key h)

/-- Along a path with tame marks and inert wildcards the labels carry the
controls of the marks. -/
theorem Graph.Follows.carries {g : Graph} (hg : g.Ascending) {R : Edge → List String → Prop}
    {a b : Nat} {p : Path} (hp : g.Follows R a p b) (htame : ∀ m ∈ g.spelled p, m.Tame)
    (hinert : g.SaysOnly Label.Inert p) : g.Carries p (g.spelled p) := by
  induction hp with
  | nil => exact .nil g
  | @cons a b c e matched p he _ _ ih =>
      have hm := mark?_of_edge? he
      have hinert' : g.SaysOnly Label.Inert p := fun s hs => hinert s (List.mem_cons_of_mem _ hs)
      by_cases hwild : e.output = wildcard
      -- what is heard is said: it has no control that counts, and the mark has none at all
      · obtain ⟨label, hunpack, hlabel⟩ := hinert _ List.mem_cons_self e he hwild
        have hs : g.label? ⟨a, b, matched⟩ = some label := by
          rw [label?, he, Option.bind_some, Edge.spoken_of_eq hwild, hunpack]
        rcases hg.lt_or_loop hm with hlt | ⟨rfl, -⟩
        · rw [spelled_cons_of_lt hm hlt] at htame ⊢
          refine (ih (fun m h => htame m (List.mem_append_right _ h)) hinert').cons_inert hs hlabel ?_
          rw [filterMap_control?_spelled, Mark.control?_of_wildcard hwild]
          rfl
        · rw [spelled_cons_self] at htame ⊢
          exact @Carries.cons_inert _ _ _ [] (ih htame hinert') _ _ hs hlabel rfl
      · have hlabel : g.label? ⟨a, b, matched⟩ = e.mark.label? := by
          rw [label?, he, Option.bind_some, Edge.spoken_of_ne hwild]
          rfl
        rcases hg.lt_or_loop hm with hlt | ⟨-, hloop⟩
        · rw [spelled_cons_of_lt hm hlt] at htame ⊢
          have hp := ih (fun m h => htame m (List.mem_append_right _ h)) hinert'
          obtain ⟨label, hsome, -, hintent⟩ : e.mark.Tame := by
            by_cases hsilent : e.mark = Mark.silent
            · exact hsilent ▸ Mark.tame_silent
            · refine htame _ (List.mem_append_left _ ?_)
              rw [Mark.spelled, if_neg hsilent]
              exact List.mem_singleton_self _
          refine hp.cons (hlabel.trans hsome) hintent ?_
          rw [Mark.control?, hsome]
          rfl
        · exact absurd (congrArg Mark.output hloop) hwild

end Utterance
