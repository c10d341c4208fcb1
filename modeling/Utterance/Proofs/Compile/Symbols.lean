import Utterance.Corpus.Ini
import Utterance.Proofs.Compile.Counting
import Utterance.Proofs.Compile.Heads
import Utterance.Proofs.Graph.Packing
import Utterance.Proofs.Graph.Transducer

/-!
# Labels as symbols

A label with blanks in it is no symbol of a transducer.  What a compiled graph says
is packed when it has to be, with one exception: the edge by which an intent is
entered says the intent's name as it is written.  So the labels with blanks are
exactly those of the intents whose names have blanks.

A walk that stops names the label that it could not write, and this label stands on
an edge that it has come to (`FstWalk.writes_of_run_eq_error`).  The walk from the
start comes to the edges of the intents first.  Together: a graph is refused for
something that it says if and only if an intent is accepted whose name has blanks
(`hasBlank_output_ofSentences`).  The texts of single intents begin behind these
edges, and are never refused for something that the graph says.
-/

/-! ## Which labels have blanks -/

namespace Utterance

theorem hasBlank_text_intent (name : String) :
    (Control.intent name).text.hasBlank = name.hasBlank := by
  have hmark : "__label__".hasBlank = false := by decide
  rw [Control.text, String.hasBlank_append, hmark, Bool.false_or]

/-! ## Which label stops a walk -/

/-- Writing the edge stops, and the label in the error is the first of the edge that
has blanks. -/
def Edge.Refused (e : Edge) (err : FstError) : Prop :=
  (e.input.hasBlank = true ∧ err = .blankLabel e.input) ∨
    (e.input.hasBlank = false ∧ e.output.hasBlank = true ∧ err = .blankLabel e.output)

theorem Except.exists_of_foldlM_eq_error {ε α β : Type} {f : α → β → Except ε α} {err : ε} :
    ∀ {bs : List β} {a : α}, bs.foldlM f a = .error err → ∃ b ∈ bs, ∃ a', f a' b = .error err
  | [], a, h => by cases h
  | b :: bs, a, h => by
      rw [List.foldlM_cons] at h
      cases hb : f a b with
      | error err' =>
          rw [hb] at h
          cases h
          exact ⟨b, List.mem_cons_self, a, hb⟩
      | ok a' =>
          rw [hb] at h
          obtain ⟨c, hc, hfail⟩ := exists_of_foldlM_eq_error h
          exact ⟨c, List.mem_cons_of_mem _ hc, hfail⟩

namespace FstWalk

variable {g : Graph} {o : FstOptions} {follows : Edge → Bool} {root n s : Nat} {w w' : FstWalk}
  {e : Edge} {es : List Edge} {err : FstError} {inputs outputs : SymbolTable}

theorem refused_of_addEdge (h : addEdge o n w e = .error err) : e.Refused err := by
  by_cases hinput : e.input.hasBlank = true
  · simp only [addEdge, symbol_eq, hinput, if_true, bind, Except.bind] at h
    exact .inl ⟨hinput, (Except.error.inj h).symm⟩
  · rw [Bool.not_eq_true] at hinput
    by_cases houtput : e.output.hasBlank = true
    · simp only [addEdge, symbol_eq, hinput, houtput, if_true, bind, Except.bind] at h
      exact .inr ⟨hinput, houtput, (Except.error.inj h).symm⟩
    · rw [Bool.not_eq_true] at houtput
      obtain ⟨met, -, hadd⟩ := addEdge_eq_ok ⟨hinput, houtput⟩ o n w
      rw [hadd] at h
      cases h

theorem met_of_addEdge (h : addEdge o n w e = .ok w') :
    ∀ s ∈ w'.met.toList, s ∈ w.met.toList ∨ s = e.target := by
  by_cases he : e.Printable
  · obtain ⟨met, hmet, hadd⟩ := addEdge_eq_ok he o n w
    rw [hadd] at h
    obtain rfl := Except.ok.inj h
    intro s hs
    change s ∈ met.toList at hs
    rw [hmet, Graph.appendNew] at hs
    split at hs
    · exact .inl hs
    · simpa using hs
  · obtain ⟨err, hadd⟩ := addEdge_eq_error he o n w
    rw [hadd] at h
    cases h

theorem met_of_foldlM_addEdge (h : es.foldlM (addEdge o n) w = .ok w') :
    ∀ s ∈ w'.met.toList, s ∈ w.met.toList ∨ ∃ e ∈ es, s = e.target := by
  induction es generalizing w with
  | nil =>
      cases h
      exact fun s hs => .inl hs
  | cons e es ih =>
      rw [List.foldlM_cons] at h
      cases hadd : addEdge o n w e with
      | error err =>
          rw [hadd] at h
          cases h
      | ok w₁ =>
          rw [hadd] at h
          intro s hs
          rcases ih h s hs with hs | ⟨f, hf, hs⟩
          · exact (met_of_addEdge hadd s hs).imp_right fun hs => ⟨e, List.mem_cons_self, hs⟩
          · exact .inr ⟨f, List.mem_cons_of_mem _ hf, hs⟩

/-- A walk that stops has come to an edge that is refused. -/
theorem writes_of_run_eq_error (hg : g.Consistent) {steps : Nat}
    (hmeets : ∀ s ∈ w.met.toList, g.Meets follows root s)
    (h : run g o follows steps n w = .error err) :
    ∃ e, g.Writes follows root e ∧ e.Refused err := by
  induction steps generalizing n w with
  | zero => cases h
  | succ steps ih =>
      rw [run] at h
      cases hs : w.met[n]? with
      | none =>
          rw [hs] at h
          cases h
      | some s =>
          have hmet : g.Meets follows root s :=
            hmeets s (Array.mem_toList_iff.mpr (Array.mem_of_getElem? hs))
          have hwrites : ∀ e ∈ edges g follows s, g.Writes follows root e := by
            intro e he
            obtain ⟨hmem, rfl, hfollows⟩ := hg.mem_edges_iff.mp he
            exact ⟨hmem, hfollows, hmet⟩
          simp only [hs] at h
          cases hfold : (edges g follows s).foldlM (addEdge o n) w with
          | error err' =>
              rw [hfold] at h
              cases h
              obtain ⟨e, he, _, hadd⟩ := Except.exists_of_foldlM_eq_error hfold
              exact ⟨e, hwrites e he, refused_of_addEdge hadd⟩
          | ok w₁ =>
              rw [hfold] at h
              refine ih (fun s hs => ?_) h
              rcases met_of_foldlM_addEdge hfold s hs with hs | ⟨e, he, rfl⟩
              · exact hmeets s hs
              · exact (hwrites e he).target

theorem writes_of_ofRoot_eq_error (hg : g.Consistent)
    (h : ofRoot g o follows root inputs outputs = .error err) :
    ∃ e, g.Writes follows root e ∧ e.Refused err := by
  refine writes_of_run_eq_error hg (fun s hs => ?_) h
  obtain rfl := List.mem_singleton.mp hs
  exact .root

/-- The edges out of the root are written first. -/
theorem ofRoot_eq_error_of_root (hg : g.Consistent)
    (hbad : ∃ e ∈ g.edges.toList, e.source = root ∧ follows e = true ∧ ¬e.Printable)
    (o : FstOptions) (inputs outputs : SymbolTable) :
    ∃ err, ofRoot g o follows root inputs outputs = .error err ∧
      ∃ e ∈ g.edges.toList, e.source = root ∧ follows e = true ∧ e.Refused err := by
  obtain ⟨e, he, hsource, hfollows, hprintable⟩ := hbad
  have hmem : e ∈ edges g follows root := hg.mem_edges_iff.mpr ⟨he, hsource, hfollows⟩
  obtain ⟨err, hfold⟩ := foldlM_addEdge_eq_error ⟨e, hmem, hprintable⟩ o 0
    { met := #[root], inputs, outputs }
  obtain ⟨f, hf, _, hadd⟩ := Except.exists_of_foldlM_eq_error hfold
  obtain ⟨hf, hsource, hfollows⟩ := hg.mem_edges_iff.mp hf
  refine ⟨err, ?_, f, hf, hsource, hfollows, refused_of_addEdge hadd⟩
  rw [ofRoot, run]
  change ((edges g follows root).foldlM (addEdge o 0) _ >>= _) = _
  rw [hfold]
  rfl

end FstWalk

/-! ## The labels of a compiled graph -/

section

variable {l : IntentSentences} {t : Table} {c : CompileOptions} {g : Graph}

/-- Every intent has an edge by which it is entered. -/
theorem exists_mark?_start_buildIntents {t : Table} {expand : Bool} {start : Nat} :
    ∀ (l : List ((String × List Sentence) × EdgeWeight)) {g h : Graph} {xs : List Nat},
      g.Ascending → start < g.size → buildIntents t expand g start l = .done h xs →
      ∀ p ∈ l.map Prod.fst, ∃ b < h.size, h.mark? start b = some (intentMark p.1)
  | [], _, _, _, _, _, _, p, hp => (List.not_mem_nil hp).elim
  | (q, w) :: rest, g, h, xs, hg, hs, hb, p, hp => by
      rw [buildIntents] at hb
      obtain ⟨k, ys, hk, hrest⟩ := Built.andThen_eq_done.mp hb
      obtain ⟨k', zs, hk', hdone⟩ := Built.andThen_eq_done.mp hrest
      cases hdone
      have E := buildIntent_extends hg hs hk
      have hs' := Nat.lt_of_lt_of_le hs E.size_le
      rcases List.mem_cons.mp hp with rfl | hp
      · -- the edge leads to the state where the sentences begin, and nothing changes it later
        rw [buildIntent_eq] at hk
        obtain ⟨E₁, hmark⟩ := enter_spec hg hs p.1 w
        have hexit := E₁.exit_lt hs (List.mem_singleton_self _)
        have E₂ := buildEach_extends expand _ E₁.ascending hexit hk
        have hlt : g.size < k.size := Nat.lt_of_lt_of_le hexit E₂.size_le
        have E₃ := buildIntents_extends rest E.ascending hs' hk'
        refine ⟨g.size, Nat.lt_of_lt_of_le hlt E₃.size_le, ?_⟩
        rw [E₃.old hs hlt, E₂.kept (Nat.lt_of_lt_of_le hs E₁.size_le) (Nat.ne_of_lt hs), hmark,
          if_pos ⟨rfl, rfl⟩]
      · exact exists_mark?_start_buildIntents rest E.ascending hs' hk' p hp

theorem exists_mark?_start_ofSentences (hg : Graph.ofSentences l t c = .ok g)
    {p : String × List Sentence} (hp : p ∈ l) : ∃ b, g.mark? 0 b = some (intentMark p.1) := by
  obtain ⟨ws, h, xs, hlength, hb, rfl⟩ := ofSentences_eq_ok hg
  have hs : 0 < Graph.initial.size := Nat.zero_lt_one
  have E := buildIntents_extends (l.zip ws) ascending_initial hs hb
  rw [← map_fst_zip_of_length_eq hlength] at hp
  obtain ⟨b, hlt, hmark⟩ := exists_mark?_start_buildIntents _ ascending_initial hs hb p hp
  refine ⟨b, ?_⟩
  change (h.join xs).1.mark? 0 b = some (intentMark p.1)
  rw [Graph.mark?_join_of_lt E.ascending (fun x hx => E.exit_lt hs hx) hlt, hmark]

/-- An edge that says a label with blanks enters an intent whose name has blanks. -/
theorem mark_of_hasBlank_output (hg : Graph.ofSentences l t c = .ok g) {e : Edge}
    (he : e ∈ g.edges.toList) (hblank : e.output.hasBlank = true) :
    e.source = 0 ∧ ∃ p ∈ l, p.1.hasBlank = true ∧ e.mark = intentMark p.1 := by
  have hmarks : g.Marks fun s m => m.output.hasBlank = true →
      s = 0 ∧ ∃ p ∈ l, p.1.hasBlank = true ∧ m = intentMark p.1 := by
    refine marks_ofSentences (fun label s h => ?_) (fun p hp h => ?_) (fun h _ => ?_) hg
    · rw [Label.hasBlank_pack] at h
      cases h
    · exact ⟨rfl, p, hp, (hasBlank_text_intent p.1).symm.trans h, rfl⟩
    · intro text _ hidden s hblank
      cases hidden
      · simp [Label.hasBlank_pack] at hblank
      · simp [String.hasBlank] at hblank
  exact hmarks e (Array.mem_toList_iff.mp he) hblank

theorem exists_edge_of_mem (hg : Graph.ofSentences l t c = .ok g) {p : String × List Sentence}
    (hp : p ∈ l) : ∃ e ∈ g.edges.toList, e.source = 0 ∧ e.mark = intentMark p.1 := by
  obtain ⟨b, hmark⟩ := exists_mark?_start_ofSentences hg hp
  obtain ⟨e, he, hmark⟩ := Graph.exists_edge? hmark
  obtain ⟨hmem, hends⟩ := (consistent_ofSentences hg).edge?_eq_some_iff.mp he
  exact ⟨e, hmem, congrArg Prod.fst hends, hmark⟩

theorem follows_of_mark {o : FstOptions} {e : Edge} {name : String}
    (he : e.mark = intentMark name) : o.follows e = o.accepts name := by
  have houtput : e.output = (Control.intent name).text := congrArg Mark.output he
  simp [FstOptions.follows, houtput]

/-- Behind an intent's edge the start state is not met again. -/
theorem pos_of_meets (hg : Graph.ofSentences l t c = .ok g) {follows : Edge → Bool}
    {root s : Nat} (hroot : 0 < root) (hs : g.Meets follows root s) : 0 < s := by
  induction hs with
  | root => exact hroot
  | @step e _ he _ ih =>
      have hedge := (consistent_ofSentences hg).edge?_eq_some_iff.mpr ⟨he, rfl⟩
      exact Nat.lt_of_lt_of_le ih ((ascending_ofSentences hg).le (Graph.mark?_of_edge? hedge))

end

/-! ## Texts of a compiled graph -/

section

variable {g : Graph} {o : FstOptions} {err : FstError}

theorem Graph.writes_of_toFst_eq_error (hg : g.Consistent) {start : Nat}
    (hstart : g.start = some start) (h : g.toFst o = .error err) :
    ∃ e, g.Writes o.follows start e ∧ e.Refused err := by
  rw [toFst, hstart] at h
  cases hwalk : FstWalk.ofRoot g o o.follows start (.new o.eps) (.new o.eps) with
  | error err' =>
      simp only [hwalk, bind, Except.bind] at h
      cases h
      exact FstWalk.writes_of_ofRoot_eq_error hg hwalk
  | ok w =>
      simp only [hwalk, bind, Except.bind] at h
      cases h

theorem Graph.writes_of_toIntentFsts_eq_error (hg : g.Consistent)
    (h : g.toIntentFsts o = .error err) :
    ∃ i ∈ g.acceptedIntents o, ∃ e, g.Writes everyEdge i.2.target e ∧ e.Refused err := by
  obtain ⟨i, hi, f, hadd⟩ := Except.exists_of_foldlM_eq_error h
  refine ⟨i, hi, ?_⟩
  rw [IntentFsts.add] at hadd
  cases hwalk : FstWalk.ofRoot g o (fun _ => true) i.2.target f.inputs f.outputs with
  | error err' =>
      simp only [hwalk, bind, Except.bind] at hadd
      cases hadd
      exact FstWalk.writes_of_ofRoot_eq_error hg hwalk
  | ok w =>
      simp only [hwalk, bind, Except.bind] at hadd
      cases hadd

end

/-- The names of the intents that are accepted although they are no symbols. -/
def IntentSentences.blankNames (l : IntentSentences) (o : FstOptions) : List String :=
  (l.map Prod.fst).filter fun name => o.accepts name && name.hasBlank

section

variable {l : IntentSentences} {t : Table} {c : CompileOptions} {g : Graph} {o : FstOptions}

theorem mem_blankNames {name : String} :
    name ∈ l.blankNames o ↔
      (∃ p ∈ l, p.1 = name) ∧ o.accepts name = true ∧ name.hasBlank = true := by
  simp [IntentSentences.blankNames]

/-- What is refused of an edge that is followed: what it hears, or the label of an
accepted intent. -/
theorem Edge.Refused.input_or_mem_blankNames (hg : Graph.ofSentences l t c = .ok g) {e : Edge}
    {err : FstError} (he : e ∈ g.edges.toList) (hfollows : o.follows e = true)
    (hrefused : e.Refused err) :
    (e.input.hasBlank = true ∧ err = .blankLabel e.input) ∨
      ∃ name ∈ l.blankNames o, err = .blankLabel (Control.intent name).text := by
  rcases hrefused with hinput | ⟨-, houtput, rfl⟩
  · exact .inl hinput
  · obtain ⟨-, p, hp, hblank, hmark⟩ := mark_of_hasBlank_output hg he houtput
    rw [follows_of_mark hmark] at hfollows
    refine .inr ⟨p.1, mem_blankNames.mpr ⟨⟨p, hp, rfl⟩, hfollows, hblank⟩, ?_⟩
    exact congrArg FstError.blankLabel (congrArg Mark.output hmark)

/-- An accepted name with blanks stops the walk at one of the intents' edges. -/
theorem toFst_eq_error_of_mem_blankNames (hg : Graph.ofSentences l t c = .ok g) {name : String}
    (hname : name ∈ l.blankNames o) :
    ∃ name ∈ l.blankNames o, g.toFst o = .error (.blankLabel (Control.intent name).text) := by
  obtain ⟨⟨p, hp, rfl⟩, haccepts, hblank⟩ := mem_blankNames.mp hname
  have hcons := consistent_ofSentences hg
  obtain ⟨e, he, hsource, hmark⟩ := exists_edge_of_mem hg hp
  have houtput : e.output = (Control.intent p.1).text := congrArg Mark.output hmark
  have hprintable : ¬e.Printable := by
    rintro ⟨-, h⟩
    rw [houtput, hasBlank_text_intent, hblank] at h
    cases h
  obtain ⟨err, hwalk, f, hf, hroot, hfollows, hrefused⟩ :=
    FstWalk.ofRoot_eq_error_of_root hcons
      ⟨e, he, hsource, (follows_of_mark hmark).trans haccepts, hprintable⟩ o (.new o.eps)
      (.new o.eps)
  have hsilent : f.input = "" := by
    have hedge := hcons.edge?_eq_some_iff.mpr ⟨hf, rfl⟩
    have hmark := mark?_start_ofSentences hg (b := f.target) (hroot ▸ Graph.mark?_of_edge? hedge)
    obtain ⟨q, -, hq⟩ := hmark
    exact congrArg Mark.input hq
  have herror : g.toFst o = .error err := by
    rw [Graph.toFst, start_ofSentences hg]
    simp only [hwalk, bind, Except.bind]
  rcases hrefused.input_or_mem_blankNames hg hf hfollows with
    ⟨hinput, -⟩ | ⟨q, hq, rfl⟩
  · rw [hsilent] at hinput
    cases hinput
  · exact ⟨q, hq, herror⟩

theorem pos_of_mem_acceptedIntents (hg : Graph.ofSentences l t c = .ok g) {i : String × Edge}
    (hi : i ∈ g.acceptedIntents o) : 0 < i.2.target := by
  have hmem := (List.mem_filter.mp hi).1
  rw [Graph.intentEdges, start_ofSentences hg] at hmem
  obtain ⟨e, he, hname⟩ := List.mem_filterMap.mp hmem
  obtain ⟨name, -, rfl⟩ := Option.map_eq_some_iff.mp hname
  have hmark := Graph.mark?_of_edge? ((ascending_ofSentences hg).valid.mem_edgesFrom.mp he)
  rcases (ascending_ofSentences hg).lt_or_loop hmark with hlt | ⟨-, hloop⟩
  · exact hlt
  · obtain ⟨p, -, hp⟩ := mark?_start_ofSentences hg hmark
    rw [hp] at hloop
    simp [intentMark, Mark.loop, wildcard] at hloop

/-- What a compiled graph says has blanks only on the edges by which intents are
entered whose names have blanks, and every intent is entered by such an edge.  So the
text of the whole graph is refused for what some edge hears, or for the name of an
accepted intent, and for such a name whenever there is one; the texts of single
intents are refused for what some edge hears. -/
theorem hasBlank_output_ofSentences (hg : Graph.ofSentences l t c = .ok g) :
    (∀ e ∈ g.edges.toList, e.output.hasBlank = true ↔
      e.source = 0 ∧ ∃ p ∈ l, p.1.hasBlank = true ∧ e.output = (Control.intent p.1).text) ∧
    (∀ p ∈ l, ∃ e ∈ g.edges.toList,
      e.source = 0 ∧ e.output = (Control.intent p.1).text) ∧
    ∀ o : FstOptions,
      (∀ err, g.toFst o = .error err →
        (∃ e ∈ g.edges.toList, e.input.hasBlank = true ∧ err = .blankLabel e.input) ∨
          ∃ name ∈ l.blankNames o, err = .blankLabel (Control.intent name).text) ∧
      (l.blankNames o ≠ [] →
        ∃ name ∈ l.blankNames o, g.toFst o = .error (.blankLabel (Control.intent name).text)) ∧
      ∀ err, g.toIntentFsts o = .error err →
        ∃ e ∈ g.edges.toList, e.input.hasBlank = true ∧ err = .blankLabel e.input := by
  have hcons := consistent_ofSentences hg
  refine ⟨fun e he => ⟨fun hblank => ?_, ?_⟩, fun p hp => ?_, fun o => ⟨fun err herr => ?_,
    fun hne => ?_, fun err herr => ?_⟩⟩
  · obtain ⟨hsource, p, hp, hname, hmark⟩ := mark_of_hasBlank_output hg he hblank
    exact ⟨hsource, p, hp, hname, congrArg Mark.output hmark⟩
  · rintro ⟨-, p, -, hname, houtput⟩
    rw [houtput, hasBlank_text_intent, hname]
  · obtain ⟨e, he, hsource, hmark⟩ := exists_edge_of_mem hg hp
    exact ⟨e, he, hsource, congrArg Mark.output hmark⟩
  · obtain ⟨e, he, hrefused⟩ :=
      Graph.writes_of_toFst_eq_error hcons (start_ofSentences hg) herr
    rcases hrefused.input_or_mem_blankNames hg he.mem he.followed with hinput | hname
    · exact .inl ⟨e, he.mem, hinput⟩
    · exact .inr hname
  · obtain ⟨name, hname⟩ := List.exists_mem_of_ne_nil _ hne
    exact toFst_eq_error_of_mem_blankNames hg hname
  · obtain ⟨i, hi, e, he, hrefused⟩ := Graph.writes_of_toIntentFsts_eq_error hcons herr
    have hpos := pos_of_meets hg (pos_of_mem_acceptedIntents hg hi) he.source
    rcases hrefused with hinput | ⟨-, houtput, -⟩
    · exact ⟨e, he.mem, hinput⟩
    · rw [(mark_of_hasBlank_output hg he.mem houtput).1] at hpos
      exact absurd hpos (Nat.lt_irrefl 0)

end

/-- One intent, whose name is two words. -/
def turnOnText : String := "[Turn on]\nhello\n"

def turnOnSentence : Sentence := ⟨"hello", [.plain "hello"]⟩

def turnOnGraph : Graph where
  nodes := #[⟨none, #[0]⟩, ⟨none, #[1]⟩, ⟨some "hello", #[2]⟩, ⟨none, #[]⟩]
  edges := #[{ source := 0, target := 1, output := "__label__Turn on" },
    { source := 1, target := 2, input := "hello", output := "hello" },
    { source := 2, target := 3 }]
  start := some 0
  final := some 3

theorem split_turnOnText : (Corpus.parse turnOnText "t.ini").map Corpus.split =
    .ok ([("Turn on", [turnOnSentence])], []) := by with_unfolding_all rfl

theorem ofSentences_turnOnGraph :
    Graph.ofSentences [("Turn on", [turnOnSentence])] [] = .ok turnOnGraph := by
  refine (ofSentences_singleton (e := .seq .group [.word "hello" {} none] {} none) ?_).trans rfl
  simp [Sentence.unfold, Sentence.toExpr, turnOnSentence, unfold, unfoldAll, Expr.plain]

/-- The name stands on the edge as it is written, so the whole graph has no text; left
out, or on its own, the intent has one. -/
theorem toFst_turnOnGraph :
    Graph.ofSentences [("Turn on", [turnOnSentence])] [] = .ok turnOnGraph ∧
      turnOnGraph.toFst = .error (.blankLabel "__label__Turn on") ∧
      (∀ err, turnOnGraph.toFst { accepts := (· != "Turn on") } ≠ .error err) ∧
      ∀ err, turnOnGraph.toIntentFsts ≠ .error err := by
  obtain ⟨-, -, htexts⟩ := hasBlank_output_ofSentences ofSentences_turnOnGraph
  have hinputs : ∀ e ∈ turnOnGraph.edges.toList, e.input.hasBlank = false := by decide
  have hnone : ∀ {err}, ¬∃ e ∈ turnOnGraph.edges.toList,
      e.input.hasBlank = true ∧ err = FstError.blankLabel e.input := by
    rintro err ⟨e, he, hblank, -⟩
    rw [hinputs e he] at hblank
    cases hblank
  have hone : IntentSentences.blankNames [("Turn on", [turnOnSentence])] {} = ["Turn on"] := by
    decide
  have hempty : IntentSentences.blankNames [("Turn on", [turnOnSentence])]
      { accepts := (· != "Turn on") } = [] := by decide
  refine ⟨ofSentences_turnOnGraph, ?_, fun err herr => ?_, fun err herr => ?_⟩
  · obtain ⟨name, hname, herr⟩ := (htexts {}).2.1 (hone ▸ List.cons_ne_nil _ _)
    rw [hone, List.mem_singleton] at hname
    rw [herr, hname]
    rfl
  · rcases (htexts { accepts := (· != "Turn on") }).1 err herr with hinput | ⟨name, hname, -⟩
    · exact hnone hinput
    · rw [hempty] at hname
      exact List.not_mem_nil hname
  · exact hnone ((htexts {}).2.2 err herr)

/-- The graph of a corpus can say a label with blanks and be refused for it. -/
theorem hasBlank_output_turnOnText :
    ∃ corpus g, Corpus.parse turnOnText "t.ini" = .ok corpus ∧
      Graph.ofSentences corpus.split.1 corpus.split.2 = .ok g ∧
      (∃ e ∈ g.edges.toList, e.output.hasBlank = true ∧
        g.toFst = .error (.blankLabel e.output)) := by
  obtain ⟨corpus, hparse, hsplit⟩ := Except.map_eq_ok.mp split_turnOnText
  refine ⟨corpus, turnOnGraph, hparse, ?_, ⟨0, 1, "", "__label__Turn on", none, none⟩, ?_, ?_, ?_⟩
  · rw [hsplit]
    exact ofSentences_turnOnGraph
  · exact List.mem_cons_self
  · decide
  · rfl

end Utterance
