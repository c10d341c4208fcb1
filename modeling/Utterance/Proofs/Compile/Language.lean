import Utterance.Compile.Graph
import Utterance.Proofs.Graph.Extension

/-!
# The language of a compiled graph

`Tree.language` says, as an expression over languages, which marks a tree can
spell: a group is a product, an alternative a sum, and suffix and tag put fixed
marks before and after.

The main statement is that building a tree extends the graph by exactly this
language (`build_extends`, one case per kind of tree).  For a whole set of
intents it follows that the routes from the start to the final state spell the
label of an intent and then one of its sentences (`ofSentences_extends`).
-/

namespace Utterance

open Utterance.Graph

/-! ## The language of a tree -/

/-- What suffix and tag say around a language. -/
def wrappedMarks (hidden : Bool) (suffix : Suffix) (tag : Option Tag) (L : Language Mark) :
    Language Mark :=
  {saidMarks (labelsBefore suffix tag)} * L * {saidMarks (labelsAfter hidden suffix tag)}

/-- The mark of the label that names a slot. -/
def sourceMarks (name : String) : List Mark := saidMarks [(Control.source (slotBase name)).text]

mutual

/-- What a tree can spell. -/
def Tree.language (expand hidden : Bool) : Tree → Language Mark
  | .word text suffix tag =>
    wrappedMarks hidden suffix tag {wordMarks (hidden || isReplaced suffix tag) text}
  | .seq .group items suffix tag =>
    wrappedMarks hidden suffix tag (languageInTurn expand (hidden || isReplaced suffix tag) items)
  | .seq .alternative items suffix tag =>
    wrappedMarks hidden suffix tag (languageOfEach expand (hidden || isReplaced suffix tag) items)
  | .rule _ bodies tag =>
    wrappedMarks hidden {} tag
      (match bodies with
      | [] => 0
      | body :: _ => Tree.language expand (hidden || isReplaced {} tag) body)
  | .slot name values suffix tag =>
    wrappedMarks hidden suffix tag
      ((if expand then languageOfEach expand (hidden || isReplaced suffix tag) values else 1) *
        {sourceMarks name})
  | .broken _ => 0

/-- What trees can spell one after the other. -/
def languageInTurn (expand hidden : Bool) : List Tree → Language Mark
  | [] => 1
  | t :: ts => Tree.language expand hidden t * languageInTurn expand hidden ts

/-- What one of several trees can spell. -/
def languageOfEach (expand hidden : Bool) : List Tree → Language Mark
  | [] => 0
  | t :: ts => Tree.language expand hidden t + languageOfEach expand hidden ts

end

/-! ## Building a tree -/

theorem Built.andThen_eq_done {α β : Type} {b : Built α} {f : Graph → α → Built β} {h : Graph}
    {y : β} : b.andThen f = .done h y ↔ ∃ g a, b = .done g a ∧ f g a = .done h y := by
  cases b with
  | done g a =>
      refine ⟨fun hf => ⟨g, a, rfl, hf⟩, ?_⟩
      rintro ⟨g', a', hb, hf⟩
      cases hb
      exact hf
  | stopped g e =>
      refine ⟨fun hf => (nomatch hf), ?_⟩
      rintro ⟨g', a', hb, -⟩
      cases hb

theorem extends_wrap {hidden : Bool} {suffix : Suffix} {tag : Option Tag} {L : Language Mark}
    {content : Graph → Nat → Built Nat} {g h : Graph} {s x : Nat}
    (hcontent : ∀ {g s h x}, g.Ascending → s < g.size → content g s = .done h x →
      Extends g h s [x] L)
    (hg : g.Ascending) (hs : s < g.size)
    (hb : Built.wrap hidden suffix tag g s content = .done h x) :
    Extends g h s [x] (wrappedMarks hidden suffix tag L) := by
  obtain ⟨k, y, hk, hafter⟩ := Built.andThen_eq_done.mp hb
  have E := extends_emitAll (labelsBefore suffix tag) hg hs
  have hs₁ := E.exit_lt hs (List.mem_singleton_self _)
  have F := hcontent E.ascending hs₁ hk
  have hs₂ := F.exit_lt hs₁ (List.mem_singleton_self _)
  cases hafter
  exact (E.trans F hs).trans (extends_emitAll (labelsAfter hidden suffix tag) F.ascending hs₂) hs

theorem Graph.Extends.joined {content : Built (List Nat)} {g h : Graph} {s x : Nat}
    {L : Language Mark}
    (hcontent : ∀ {h xs}, content = .done h xs → Extends g h s xs L) (hs : s < g.size)
    (hb : content.joined = .done h x) : Extends g h s [x] L := by
  obtain ⟨k, xs, hk, hjoin⟩ := Built.andThen_eq_done.mp hb
  cases hjoin
  exact (hcontent hk).join hs

mutual

/-- Building a tree extends the graph by the language of the tree. -/
theorem build_extends (expand : Bool) : ∀ (t : Tree) {hidden : Bool} {g h : Graph} {s x : Nat},
    g.Ascending → s < g.size → build expand hidden g s t = .done h x →
      Extends g h s [x] (t.language expand hidden)
  | .word text suffix tag, hidden, g, h, s, x, hg, hs, hb => by
      rw [build] at hb
      refine extends_wrap (fun hg hs hword => ?_) hg hs hb
      cases hword
      exact extends_addWord hg hs _ _
  | .seq .group items suffix tag, hidden, g, h, s, x, hg, hs, hb => by
      rw [build] at hb
      exact extends_wrap (fun hg hs => buildInTurn_extends expand items hg hs) hg hs hb
  | .seq .alternative items suffix tag, hidden, g, h, s, x, hg, hs, hb => by
      rw [build] at hb
      exact extends_wrap
        (fun hg hs => Extends.joined (fun heach => buildEach_extends expand items hg hs heach) hs)
        hg hs hb
  | .rule key [] tag, hidden, g, h, s, x, hg, hs, hb => by
      rw [build] at hb
      exact extends_wrap (fun _ _ hbody => by cases hbody) hg hs hb
  | .rule key (body :: _) tag, hidden, g, h, s, x, hg, hs, hb => by
      rw [build] at hb
      exact extends_wrap (fun hg hs => build_extends expand body hg hs) hg hs hb
  | .slot name values suffix tag, hidden, g, h, s, x, hg, hs, hb => by
      rw [build] at hb
      refine extends_wrap (fun {g s h x} hg hs hslot => ?_) hg hs hb
      obtain ⟨k, y, hk, hsource⟩ := Built.andThen_eq_done.mp hslot
      cases hsource
      have E : Extends g k s [y] (if expand then
          languageOfEach expand (hidden || isReplaced suffix tag) values else 1) := by
        cases expand with
        | false =>
            cases hk
            exact .refl hg s
        | true =>
            simp only [Bool.not_true, Bool.false_eq_true, if_false] at hk
            split at hk
            · cases hk
            · exact Extends.joined (fun heach => buildEach_extends true values hg hs heach) hs hk
      exact E.trans (extends_emit E.ascending (E.exit_lt hs (List.mem_singleton_self _)) _) hs
  | .broken e, hidden, g, h, s, x, _, _, hb => by
      rw [build] at hb
      cases hb

theorem buildInTurn_extends (expand : Bool) : ∀ (ts : List Tree) {hidden : Bool} {g h : Graph}
    {s x : Nat}, g.Ascending → s < g.size → buildInTurn expand hidden g s ts = .done h x →
      Extends g h s [x] (languageInTurn expand hidden ts)
  | [], hidden, g, h, s, x, hg, _, hb => by
      rw [buildInTurn] at hb
      cases hb
      exact .refl hg s
  | t :: ts, hidden, g, h, s, x, hg, hs, hb => by
      rw [buildInTurn] at hb
      obtain ⟨k, y, hk, hrest⟩ := Built.andThen_eq_done.mp hb
      have E := build_extends expand t hg hs hk
      have hy := E.exit_lt hs (List.mem_singleton_self _)
      exact E.trans (buildInTurn_extends expand ts E.ascending hy hrest) hs

theorem buildEach_extends (expand : Bool) : ∀ (ts : List Tree) {hidden : Bool} {g h : Graph}
    {s : Nat} {xs : List Nat}, g.Ascending → s < g.size →
      buildEach expand hidden g s ts = .done h xs →
      Extends g h s xs (languageOfEach expand hidden ts)
  | [], hidden, g, h, s, xs, hg, _, hb => by
      rw [buildEach] at hb
      cases hb
      exact .none hg s
  | t :: ts, hidden, g, h, s, xs, hg, hs, hb => by
      rw [buildEach] at hb
      obtain ⟨k, y, hk, hrest⟩ := Built.andThen_eq_done.mp hb
      obtain ⟨k', ys, hk', hdone⟩ := Built.andThen_eq_done.mp hrest
      cases hdone
      have E := build_extends expand t hg hs hk
      have hs' := Nat.lt_of_lt_of_le hs E.size_le
      exact E.union (buildEach_extends expand ts E.ascending hs' hk') hs

end

/-! ## The graph of a set of intents -/

/-- The mark of the edge that enters an intent. -/
def intentMark (intent : String) : Mark := ⟨"", (Control.intent intent).text⟩

/-- What the sentences of an intent can spell, its label first. -/
def intentLanguage (t : Table) (expand : Bool) (intent : String) (sentences : List Sentence) :
    Language Mark :=
  {[intentMark intent]} *
    languageOfEach expand false (sentences.map (Sentence.unfold t intent))

/-- What the sentences of all intents can spell. -/
def languageOfIntents (t : Table) (expand : Bool) : IntentSentences → Language Mark
  | [] => 0
  | (intent, sentences) :: rest =>
    intentLanguage t expand intent sentences + languageOfIntents t expand rest

theorem mem_languageOfIntents {t : Table} {expand : Bool} {ms : List Mark} :
    ∀ {l : IntentSentences}, ms ∈ languageOfIntents t expand l ↔
      ∃ intent sentences, (intent, sentences) ∈ l ∧ ms ∈ intentLanguage t expand intent sentences
  | [] => by simp [languageOfIntents, Language.notMem_zero]
  | (intent, sentences) :: rest => by
      rw [languageOfIntents, Language.mem_add, mem_languageOfIntents (l := rest)]
      refine ⟨?_, ?_⟩
      · rintro (h | ⟨i, ss, hmem, h⟩)
        · exact ⟨intent, sentences, List.mem_cons_self, h⟩
        · exact ⟨i, ss, List.mem_cons_of_mem _ hmem, h⟩
      · rintro ⟨i, ss, hmem, h⟩
        rcases List.mem_cons.mp hmem with heq | hmem
        · cases heq
          exact .inl h
        · exact .inr ⟨i, ss, hmem, h⟩

/-- Extensions do not see what edges carry besides their labels, and which
state is the final one. -/
theorem Graph.Extends.of_same_marks {g h k : Graph} {s : Nat} {xs : List Nat} {L : Language Mark}
    (E : Extends g h s xs L) (hk : k.Ascending) (hsize : k.size = h.size)
    (hstart : k.start = h.start) (hmark : ∀ a b, k.mark? a b = h.mark? a b) :
    Extends g k s xs L where
  before := E.before
  ascending := hk
  size_le := hsize ▸ E.size_le
  start_eq := hstart ▸ E.start_eq
  old hab hb := by rw [hmark, E.old hab hb]
  kept ha has := by rw [hmark, E.kept ha has]
  exits_new := hsize ▸ E.exits_new
  spells ms := by
    rw [E.spells]
    refine exists_congr fun x => and_congr_right fun _ => ⟨fun hr => ?_, fun hr => ?_⟩
    · exact hr.congr fun _ _ => hmark _ _
    · exact hr.congr fun _ _ => (hmark _ _).symm

theorem intentMark_spelled (intent : String) : (intentMark intent).spelled = [intentMark intent] :=
  if_neg fun h => by
    have htext := congrArg (fun m => m.output.toList) h
    simp [intentMark, Mark.silent, Control.text] at htext

theorem keeps_decorate (w : EdgeWeight) : Keeps (Edge.decorate w) := by
  intro e
  cases w <;> exact ⟨rfl, rfl⟩

/-- The graph with a new state, to which the edge of an intent leads from `start`. -/
def Graph.enter (g : Graph) (start : Nat) (intent : String) (w : EdgeWeight) : Graph :=
  (g.addState.addEdge start g.size "" (Control.intent intent).text).modifyEdge start g.size
    (Edge.decorate w)

theorem enter_spec {g : Graph} {start : Nat} (hg : g.Ascending) (hs : start < g.size)
    (intent : String) (w : EdgeWeight) :
    Extends g (g.enter start intent w) start [g.size] {[intentMark intent]} ∧
      ∀ a b, (g.enter start intent w).mark? a b
        = if a = start ∧ b = g.size then some (intentMark intent) else g.mark? a b := by
  have hkeeps := keeps_decorate w
  have hdecorate : ∀ e, (Edge.decorate w e).mark = e.mark := fun e => by cases w <;> rfl
  have hg' := hg.addState .none
  have hs' : start < g.addState.size := Nat.lt_of_lt_of_le hs (by rw [size_addState]; omega)
  have E : Extends g _ start [g.size] {(intentMark intent).spelled} :=
    extends_of_edge hg' (size_addState g _) rfl hs
      (fun _ => mark?_addState g _ _ _) hg (by rw [word?_addState_self]; rfl) _
  have hmark := E.ascending.valid.mark?_modifyEdge hkeeps hdecorate start g.size
  have E' := E.of_same_marks (E.ascending.modifyEdge hkeeps hdecorate start g.size)
    (size_modifyEdge ..) (start_modifyEdge ..) hmark
  rw [intentMark_spelled] at E'
  refine ⟨E', fun a b => ?_⟩
  rw [enter, hmark, hg'.valid.mark?_addEdge hs', mark?_addState]
  rfl

/-- Building an intent adds the edge that enters it and then builds its
sentences from there. -/
theorem buildIntent_eq (t : Table) (expand : Bool) (g : Graph) (start : Nat) (intent : String)
    (sentences : List Sentence) (w : EdgeWeight) :
    buildIntent t expand g start intent sentences w =
      buildEach expand false (g.enter start intent w) g.size
        (sentences.map (Sentence.unfold t intent)) := rfl

theorem buildIntent_extends {t : Table} {expand : Bool} {g h : Graph} {start : Nat}
    {intent : String} {sentences : List Sentence} {w : EdgeWeight} {xs : List Nat}
    (hg : g.Ascending) (hs : start < g.size)
    (hb : buildIntent t expand g start intent sentences w = .done h xs) :
    Extends g h start xs (intentLanguage t expand intent sentences) := by
  rw [buildIntent_eq] at hb
  obtain ⟨E, -⟩ := enter_spec hg hs intent w
  have hexit := E.exit_lt hs (List.mem_singleton_self _)
  exact E.trans (buildEach_extends expand _ E.ascending hexit hb) hs

theorem buildIntents_extends {t : Table} {expand : Bool} {start : Nat} :
    ∀ (l : List ((String × List Sentence) × EdgeWeight)) {g h : Graph} {xs : List Nat},
      g.Ascending → start < g.size → buildIntents t expand g start l = .done h xs →
      Extends g h start xs (languageOfIntents t expand (l.map Prod.fst))
  | [], g, h, xs, hg, _, hb => by
      rw [buildIntents] at hb
      cases hb
      exact .none hg start
  | ((intent, sentences), w) :: rest, g, h, xs, hg, hs, hb => by
      rw [buildIntents] at hb
      obtain ⟨k, ys, hk, hrest⟩ := Built.andThen_eq_done.mp hb
      obtain ⟨k', zs, hk', hdone⟩ := Built.andThen_eq_done.mp hrest
      cases hdone
      have E := buildIntent_extends hg hs hk
      have hs' := Nat.lt_of_lt_of_le hs E.size_le
      exact E.union (buildIntents_extends rest E.ascending hs' hk') hs

/-! ## One weight for each intent -/

theorem length_of_mapM_ok {ε α β : Type} {f : α → Except ε β} :
    ∀ {l : List α} {r : List β}, l.mapM f = .ok r → r.length = l.length
  | [], r, h => by
      cases h
      rfl
  | a :: l, r, h => by
      rw [List.mapM_cons] at h
      cases hb : f a with
      | error e =>
          rw [hb] at h
          cases h
      | ok b =>
          cases hbs : l.mapM f with
          | error e =>
              rw [hb, hbs] at h
              cases h
          | ok bs =>
              rw [hb, hbs] at h
              cases h
              rw [List.length_cons, List.length_cons, length_of_mapM_ok hbs]

theorem length_intentWeights (counts : List Nat) : (intentWeights counts).length = counts.length := by
  have hraw : ∀ l, (rawWeights l).length = l.length := fun l => by
    unfold rawWeights
    split <;> exact List.length_map ..
  simp only [intentWeights]
  split <;> simp [hraw]

theorem length_edgeWeights {l : IntentSentences} {t : Table} {o : CompileOptions}
    {ws : List EdgeWeight} (h : edgeWeights l t o = .ok ws) : ws.length = l.length := by
  unfold edgeWeights at h
  split at h
  · cases hcounts : intentCounts l t o.excludeSlots with
    | error e =>
        rw [hcounts] at h
        cases h
    | ok counts =>
        rw [hcounts] at h
        cases h
        have hlen := length_of_mapM_ok hcounts
        simp [length_intentWeights, hlen]
  · cases h
    exact List.length_map ..

/-! ## The compiled graph -/

/-- The graph that holds the start state only. -/
def Graph.initial : Graph := Graph.setStart (Graph.addState {}) 0

theorem Graph.mark?_initial (a b : Nat) : Graph.initial.mark? a b = none := by
  change (Graph.addState {}).mark? a b = none
  rw [mark?_addState, mark?, edge?_of_size_le (Nat.zero_le a), Option.map_none]

theorem ascending_initial : Graph.initial.Ascending := by
  have h := ascending_empty.addState .none
  exact ⟨h.valid.congr (fun _ => rfl) rfl, h.lt_or_loop, h.lt_size, h.heard⟩

/-- Compiling succeeds by building all intents and joining their ends in the
final state. -/
theorem ofSentences_eq_ok {l : IntentSentences} {t : Table} {o : CompileOptions} {g : Graph}
    (hg : Graph.ofSentences l t o = .ok g) :
    ∃ ws h xs, ws.length = l.length ∧
      buildIntents t o.expandSlots Graph.initial 0 (l.zip ws) = .done h xs ∧
      g = (h.join xs).1.setFinal (h.join xs).2 := by
  unfold Graph.ofSentences at hg
  cases hws : edgeWeights l t o with
  | error e =>
      rw [hws] at hg
      cases hg
  | ok ws =>
      simp only [hws, bind, Except.bind] at hg
      split at hg
      next => cases hg
      next h xs hb => exact ⟨ws, h, xs, length_edgeWeights hws, hb, (Except.ok.inj hg).symm⟩

theorem map_fst_zip_of_length_eq {l : IntentSentences} {ws : List EdgeWeight}
    (h : ws.length = l.length) : (l.zip ws).map Prod.fst = l :=
  List.map_fst_zip (Nat.le_of_eq h.symm)

/-- Compiling sentences extends the start state by their language, up to the
final state. -/
theorem ofSentences_extends {l : IntentSentences} {t : Table} {o : CompileOptions} {g : Graph}
    (hg : Graph.ofSentences l t o = .ok g) :
    ∃ final, g.final = some final ∧
      Extends Graph.initial g 0 [final] (languageOfIntents t o.expandSlots l) := by
  obtain ⟨ws, h, xs, hlength, hb, rfl⟩ := ofSentences_eq_ok hg
  have hs : 0 < Graph.initial.size := Nat.zero_lt_one
  have E := (buildIntents_extends (l.zip ws) ascending_initial hs hb).join hs
  rw [map_fst_zip_of_length_eq hlength] at E
  have hasc := E.ascending
  refine ⟨(h.join xs).2, rfl, E.of_same_marks ?_ rfl rfl fun _ _ => rfl⟩
  exact ⟨hasc.valid.congr (fun _ => rfl) rfl, hasc.lt_or_loop, hasc.lt_size, hasc.heard⟩

theorem ascending_ofSentences {l : IntentSentences} {t : Table} {o : CompileOptions} {g : Graph}
    (hg : Graph.ofSentences l t o = .ok g) : g.Ascending :=
  (ofSentences_extends hg).elim fun _ h => h.2.ascending

/-! ## The edges out of the start state -/

/-- The edges that building the intents adds to the start state enter the
intents. -/
theorem mark?_start_buildIntents {t : Table} {expand : Bool} {start : Nat} :
    ∀ (l : List ((String × List Sentence) × EdgeWeight)) {g h : Graph} {xs : List Nat},
      g.Ascending → start < g.size → buildIntents t expand g start l = .done h xs →
      ∀ {b m}, h.mark? start b = some m →
        g.mark? start b = some m ∨ ∃ p ∈ l.map Prod.fst, m = intentMark p.1
  | [], g, h, xs, _, _, hb, b, m, hm => by
      rw [buildIntents] at hb
      cases hb
      exact .inl hm
  | ((intent, sentences), w) :: rest, g, h, xs, hg, hs, hb, b, m, hm => by
      rw [buildIntents] at hb
      obtain ⟨k, ys, hk, hrest⟩ := Built.andThen_eq_done.mp hb
      obtain ⟨k', zs, hk', hdone⟩ := Built.andThen_eq_done.mp hrest
      cases hdone
      have E := buildIntent_extends hg hs hk
      have hs' := Nat.lt_of_lt_of_le hs E.size_le
      rcases mark?_start_buildIntents rest E.ascending hs' hk' hm with hm | ⟨p, hp, rfl⟩
      · rw [buildIntent_eq] at hk
        obtain ⟨E₁, hmark⟩ := enter_spec hg hs intent w
        have hexit := E₁.exit_lt hs (List.mem_singleton_self _)
        have E₂ := buildEach_extends expand _ E₁.ascending hexit hk
        rw [E₂.kept (Nat.lt_of_lt_of_le hs E₁.size_le) (Nat.ne_of_lt hs), hmark] at hm
        split at hm
        · exact .inr ⟨_, List.mem_cons_self, (Option.some.inj hm).symm⟩
        · exact .inl hm
      · exact .inr ⟨p, List.mem_cons_of_mem _ hp, rfl⟩

/-- Every edge out of the start state of a compiled graph enters an intent. -/
theorem mark?_start_ofSentences {l : IntentSentences} {t : Table} {o : CompileOptions} {g : Graph}
    (hg : Graph.ofSentences l t o = .ok g) {b : Nat} {m : Mark} (hm : g.mark? 0 b = some m) :
    ∃ p ∈ l, m = intentMark p.1 := by
  obtain ⟨ws, h, xs, hlength, hb, rfl⟩ := ofSentences_eq_ok hg
  have hs : 0 < Graph.initial.size := Nat.zero_lt_one
  have E := buildIntents_extends (l.zip ws) ascending_initial hs hb
  have hstart : 0 ∉ xs := fun h0 => by
    obtain ⟨intent, sentences, -, hnil⟩ :=
      mem_languageOfIntents.mp ((E.spells []).mpr ⟨0, h0, .refl 0⟩)
    obtain ⟨_, rfl, ms, -, happend⟩ := Language.mem_mul.mp hnil
    cases happend
  obtain ⟨-, -, -, hmark⟩ := join_spec E.ascending fun x hx => E.exit_lt hs hx
  change (h.join xs).1.mark? 0 b = some m at hm
  rw [hmark, if_neg fun h => hstart h.1] at hm
  rcases mark?_start_buildIntents _ ascending_initial hs hb hm with hm | ⟨p, hp, rfl⟩
  · rw [mark?_initial] at hm
    cases hm
  · rw [map_fst_zip_of_length_eq hlength] at hp
    exact ⟨p, hp, rfl⟩

end Utterance
