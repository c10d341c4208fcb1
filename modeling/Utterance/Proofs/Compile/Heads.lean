import Utterance.Proofs.Compile.Reading

/-!
# What is written in templates

The *head* of a node is what is written at it: its word, if it is one, with its
suffix and tag.  A property of all heads in the sentences and the table carries
over to the unfolded trees (`all_unfold`) and to the readings (`Reads.all`).

What the edges of a compiled graph hear and say is known from this
(`marks_ofSentences`): it is a word at such a node, a label that is packed if it
has to be, or the label of an intent, which is written as it is.
-/

namespace Utterance

/-! ## Heads -/

structure Head where
  word : Option String
  suffix : Suffix
  tag : Option Tag
deriving DecidableEq, Repr, Inhabited

/-- The tokens that are said in place of what is inside the node. -/
def Head.substitutions (h : Head) : List String :=
  h.suffix.substitution.getD [] ++ (tagSubstitution h.tag).getD []

/-- The word at the node, if there is one, has the property. -/
def Head.Hears (P : String → Prop) (h : Head) : Prop := ∀ text ∈ h.word, P text

namespace Expr

def head : Expr → Head
  | word text suffix tag => ⟨some text, suffix, tag⟩
  | seq _ _ _ suffix tag => ⟨none, suffix, tag⟩
  | rule _ tag => ⟨none, {}, tag⟩
  | slot _ _ suffix tag => ⟨none, suffix, tag⟩

/-- The heads of all nodes in a tree. -/
def heads (e : Expr) : List Head := e.nodes.map head

theorem nodesOf_eq_flatMap (es : List Expr) : nodesOf es = es.flatMap nodes := by
  induction es with
  | nil => rw [nodesOf, List.flatMap_nil]
  | cons e es ih => rw [nodesOf, ih, List.flatMap_cons]

theorem mem_heads_seq {kind : SequenceKind} {text : String} {items : List Expr} {suffix : Suffix}
    {tag : Option Tag} {h : Head} :
    h ∈ (seq kind text items suffix tag).heads ↔
      h = ⟨none, suffix, tag⟩ ∨ ∃ e ∈ items, h ∈ e.heads := by
  rw [heads, nodes, List.map_cons, List.mem_cons, nodesOf_eq_flatMap, List.map_flatMap,
    List.mem_flatMap]
  rfl

theorem head_mem_heads (e : Expr) : e.head ∈ e.heads := by
  cases e <;> simp [heads, nodes, head]

end Expr

/-- The heads of all expressions in a table. -/
def Table.heads (t : Table) : List Head := t.flatMap fun entry => entry.2.flatMap Expr.heads

/-- The heads of all sentences. -/
def IntentSentences.heads (l : IntentSentences) : List Head :=
  l.flatMap fun p => p.2.flatMap fun s => s.toExpr.heads

theorem Table.mem_of_get? {t : Table} {key : String} {values : List Expr}
    (h : t.get? key = some values) : (key, values) ∈ t := by
  obtain ⟨before, after, rfl, -⟩ := List.lookup_eq_some_iff.mp h
  exact List.mem_append_right _ List.mem_cons_self

theorem Table.mem_heads_of_get? {t : Table} {key : String} {values : List Expr} {e : Expr}
    {h : Head} (hget : t.get? key = some values) (he : e ∈ values) (hh : h ∈ e.heads) :
    h ∈ t.heads :=
  List.mem_flatMap.mpr ⟨_, mem_of_get? hget, List.mem_flatMap.mpr ⟨e, he, hh⟩⟩

theorem IntentSentences.mem_heads {l : IntentSentences} {intent : String}
    {sentences : List Sentence} {s : Sentence} {h : Head} (hmem : (intent, sentences) ∈ l)
    (hs : s ∈ sentences) (hh : h ∈ s.toExpr.heads) : h ∈ l.heads :=
  List.mem_flatMap.mpr ⟨_, hmem, List.mem_flatMap.mpr ⟨s, hs, hh⟩⟩

/-! ## Properties of all heads -/

mutual

/-- All heads in a tree have the property; a broken place has none. -/
def Tree.All (P : Head → Prop) : Tree → Prop
  | .word text suffix tag => P ⟨some text, suffix, tag⟩
  | .seq _ items suffix tag => P ⟨none, suffix, tag⟩ ∧ AllOf P items
  | .rule _ bodies tag => P ⟨none, {}, tag⟩ ∧ AllOf P bodies
  | .slot _ values suffix tag => P ⟨none, suffix, tag⟩ ∧ AllOf P values
  | .broken _ => True

def AllOf (P : Head → Prop) : List Tree → Prop
  | [] => True
  | t :: ts => Tree.All P t ∧ AllOf P ts

end

mutual

/-- All heads in a reading have the property. -/
def Reading.All (P : Head → Prop) : Reading → Prop
  | .word text suffix tag => P ⟨some text, suffix, tag⟩
  | .node _ parts suffix tag => P ⟨none, suffix, tag⟩ ∧ AllInTurn P parts

def Reading.AllInTurn (P : Head → Prop) : List Reading → Prop
  | [] => True
  | r :: rs => Reading.All P r ∧ AllInTurn P rs

end

theorem allOf_iff {P : Head → Prop} {ts : List Tree} : AllOf P ts ↔ ∀ t ∈ ts, t.All P := by
  induction ts with
  | nil => rw [AllOf]; exact ⟨fun _ _ h => (List.not_mem_nil h).elim, fun _ => trivial⟩
  | cons t ts ih => rw [AllOf, ih, List.forall_mem_cons]

/-- A property of what is written in an expression and in the table is one of
the unfolded tree. -/
theorem all_unfold {P : Head → Prop} {t : Table} (ht : ∀ h ∈ t.heads, P h) :
    ∀ (c : Scope) (e : Expr), (∀ h ∈ e.heads, P h) → (unfold t c e).All P := by
  have hvalues : ∀ {key : String} {values : List Expr}, t.get? key = some values →
      ∀ e ∈ values, ∀ h ∈ e.heads, P h :=
    fun hget e he h hh => ht h (Table.mem_heads_of_get? hget he hh)
  have hbroken : ∀ err, AllOf P [.broken err] := fun err => allOf_iff.mpr fun _ hmem => by
    obtain rfl := List.mem_singleton.mp hmem
    rw [Tree.All]
    trivial
  refine (unfold.mutual_induct t (fun c e => (∀ h ∈ e.heads, P h) → (unfold t c e).All P)
    (fun c es => (∀ e ∈ es, ∀ h ∈ e.heads, P h) → AllOf P (unfoldAll t c es))
    ?word ?seq ?ruleMissing ?ruleClosed ?ruleOpen ?slotMissing ?slotClosed ?slotOpen ?nil
    ?cons).1
  case word =>
    intro c text suffix tag he
    rw [unfold, Tree.All]
    exact he _ (Expr.head_mem_heads _)
  case seq =>
    intro c kind text items suffix tag ih he
    rw [unfold, Tree.All]
    exact ⟨he _ (Expr.head_mem_heads _),
      ih fun e hmem h hh => he h (Expr.mem_heads_seq.mpr (.inr ⟨e, hmem, hh⟩))⟩
  case ruleMissing =>
    intro c ref tag key hnone he
    rw [unfold_rule_of_none hnone, Tree.All]
    exact ⟨he _ (Expr.head_mem_heads _), hbroken _⟩
  case ruleClosed =>
    intro c ref tag key bodies hbodies hclosed ih he
    rw [unfold_rule_of_get? hbodies, hclosed, if_neg Bool.false_ne_true, Tree.All]
    exact ⟨he _ (Expr.head_mem_heads _), ih (hvalues hbodies)⟩
  case ruleOpen =>
    intro c ref tag key bodies hbodies hopen he
    rw [unfold_rule_of_get? hbodies, if_pos (Bool.of_not_eq_false hopen), Tree.All]
    exact ⟨he _ (Expr.head_mem_heads _), hbroken _⟩
  case slotMissing =>
    intro c text name suffix tag key hnone he
    rw [unfold_slot_of_none hnone, Tree.All]
    exact ⟨he _ (Expr.head_mem_heads _), hbroken _⟩
  case slotClosed =>
    intro c text name suffix tag key values hget hclosed ih he
    rw [unfold_slot_of_get? hget, hclosed, if_neg Bool.false_ne_true, Tree.All]
    exact ⟨he _ (Expr.head_mem_heads _), ih (hvalues hget)⟩
  case slotOpen =>
    intro c text name suffix tag key values hget hopen he
    rw [unfold_slot_of_get? hget, if_pos (Bool.of_not_eq_false hopen), Tree.All]
    exact ⟨he _ (Expr.head_mem_heads _), hbroken _⟩
  case nil =>
    intro c _
    rw [unfoldAll, AllOf]
    trivial
  case cons =>
    intro c e es ihe ihes hes
    rw [unfoldAll, AllOf]
    exact ⟨ihe (hes e List.mem_cons_self), ihes fun e he => hes e (List.mem_cons_of_mem _ he)⟩

mutual

/-- A property of what is written in an expression and in the table is one of
every reading. -/
theorem Reads.all {P : Head → Prop} {t : Table} (ht : ∀ h ∈ t.heads, P h) :
    ∀ {here : String} {e : Expr} {r : Reading}, Reads t here e r → (∀ h ∈ e.heads, P h) →
      r.All P
  | _, _, _, .word, he => by
      rw [Reading.All]
      exact he _ (Expr.head_mem_heads _)
  | _, _, _, .group hrs, he => by
      rw [Reading.All]
      exact ⟨he _ (Expr.head_mem_heads _),
        ReadsInTurn.all ht hrs fun e hmem h hh => he h (Expr.mem_heads_seq.mpr (.inr ⟨e, hmem, hh⟩))⟩
  | _, _, _, .alternative hmem hr, he => by
      rw [Reading.All, Reading.AllInTurn, Reading.AllInTurn]
      exact ⟨he _ (Expr.head_mem_heads _),
        Reads.all ht hr fun h hh => he h (Expr.mem_heads_seq.mpr (.inr ⟨_, hmem, hh⟩)), trivial⟩
  | _, _, _, .rule hbodies hr, he => by
      rw [Reading.All, Reading.AllInTurn, Reading.AllInTurn]
      exact ⟨he _ (Expr.head_mem_heads _), Reads.all ht hr fun h hh =>
        ht h (Table.mem_heads_of_get? hbodies List.mem_cons_self hh), trivial⟩
  | _, _, _, .slot hvalues hmem hr, he => by
      rw [Reading.All, Reading.AllInTurn, Reading.AllInTurn]
      exact ⟨he _ (Expr.head_mem_heads _),
        Reads.all ht hr fun h hh => ht h (Table.mem_heads_of_get? hvalues hmem hh), trivial⟩

theorem ReadsInTurn.all {P : Head → Prop} {t : Table} (ht : ∀ h ∈ t.heads, P h) :
    ∀ {here : String} {es : List Expr} {rs : List Reading}, ReadsInTurn t here es rs →
      (∀ e ∈ es, ∀ h ∈ e.heads, P h) → Reading.AllInTurn P rs
  | _, _, _, .nil, _ => by
      rw [Reading.AllInTurn]
      trivial
  | _, _, _, .cons hr hrs, he => by
      rw [Reading.AllInTurn]
      exact ⟨Reads.all ht hr (he _ List.mem_cons_self),
        ReadsInTurn.all ht hrs fun e hmem => he e (List.mem_cons_of_mem _ hmem)⟩

end

/-! ## What the edges of a graph hear and say -/

/-- Heard or hidden, from whatever state, the word at the node has a mark with the
property. -/
def Head.Marks (Q : Nat → Mark → Prop) (h : Head) : Prop :=
  ∀ text ∈ h.word, ∀ (hidden : Bool) (s : Nat), Q s ⟨text, if hidden then "" else Label.pack text⟩

namespace Graph

/-- The mark of every edge has the property, which may depend on where the edge
starts. -/
def Marks (Q : Nat → Mark → Prop) (g : Graph) : Prop := ∀ e ∈ g.edges, Q e.source e.mark

/-- Whatever an edge hears has the property. -/
def Inputs (P : String → Prop) (g : Graph) : Prop := ∀ e ∈ g.edges, P e.input

namespace Marks

variable {Q : Nat → Mark → Prop} {g : Graph}

theorem of_edge? (hg : g.Marks Q) {a b : Nat} {e : Edge} (he : g.edge? a b = some e) :
    Q e.source e.mark := by
  obtain ⟨i, -, hi⟩ := Option.bind_eq_some_iff.mp he
  exact hg e (Array.mem_of_getElem? hi)

theorem addState (hg : g.Marks Q) (w : Option String) : (g.addState w).Marks Q := hg

theorem modify (hg : g.Marks Q) {f : Edge → Edge} {i : Nat}
    (hf : ∀ e, g.edges[i]? = some e → Q (f e).source (f e).mark) :
    ∀ e ∈ g.edges.modify i f, Q e.source e.mark := by
  intro e he
  obtain ⟨j, hj, rfl⟩ := Array.mem_iff_getElem.mp he
  rw [Array.getElem_modify]
  rw [Array.size_modify] at hj
  split
  next heq => exact hf _ (heq ▸ Array.getElem?_eq_getElem hj)
  next => exact hg _ (Array.getElem_mem hj)

/-- It is enough to know the property for edges from the state where the edge is
added. -/
theorem addEdge_from (hg : g.Marks Q) (hvalid : g.Valid) {input output : String} {s : Nat}
    (hQ : Q s ⟨input, output⟩) (t : Nat) : (g.addEdge s t input output).Marks Q := by
  unfold Graph.addEdge
  split
  next i hposition =>
    refine hg.modify (f := fun e => { e with input, output }) fun e he => ?_
    obtain ⟨e', he', hsource, -⟩ := hvalid.of_position? hposition
    obtain rfl : e' = e := Option.some.inj (he'.symm.trans he)
    exact hsource.symm ▸ hQ
  next =>
    intro e he
    rcases Array.mem_push.mp he with he | rfl
    · exact hg e he
    · exact hQ

theorem addEdge (hg : g.Marks Q) {input output : String} (hQ : ∀ s, Q s ⟨input, output⟩)
    (s t : Nat) : (g.addEdge s t input output).Marks Q := by
  unfold Graph.addEdge
  split
  · exact hg.modify (f := fun e => { e with input, output }) fun e _ => hQ e.source
  · intro e he
    rcases Array.mem_push.mp he with he | rfl
    · exact hg e he
    · exact hQ s

theorem modifyEdge (hg : g.Marks Q) {f : Edge → Edge} (hf : Keeps f)
    (hmark : ∀ e, (f e).mark = e.mark) (s t : Nat) : (g.modifyEdge s t f).Marks Q := by
  unfold Graph.modifyEdge
  split
  · refine hg.modify fun e he => ?_
    rw [(hf e).1, hmark]
    exact hg e (Array.mem_of_getElem? he)
  · exact hg

theorem emitAll (hQ : ∀ label s, Q s ⟨"", Label.pack label⟩) :
    ∀ (labels : List String) {g : Graph} {s : Nat}, g.Marks Q → (g.emitAll s labels).1.Marks Q
  | [], _, _, hg => hg
  | label :: rest, _, _, hg => emitAll hQ rest ((hg.addState .none).addEdge (hQ label) _ _)

theorem join (hQ : ∀ s, Q s Mark.silent) (hg : g.Marks Q) (xs : List Nat) :
    (g.join xs).1.Marks Q := by
  have hfold : ∀ (xs : List Nat) {j : Nat} {h : Graph}, h.Marks Q →
      (xs.foldl (fun h x => h.addEdge x j "" "") h).Marks Q := by
    intro xs
    induction xs with
    | nil => exact fun hh => hh
    | cons x xs ih => exact fun hh => ih (hh.addEdge hQ _ _)
  exact hfold xs (hg.addState .none)

/-- The loop of a wildcard has the mark of the word. -/
theorem addWord (hg : g.Marks Q) {text : String}
    (hQ : ∀ (hidden : Bool) (s : Nat), Q s ⟨text, if hidden then "" else Label.pack text⟩)
    (s : Nat) (hidden : Bool) : (g.addWord s text (if hidden then "" else Label.pack text)).1.Marks Q := by
  simp only [Graph.addWord]
  split
  next hwild =>
    have hloop : ∀ s, Q s ⟨wildcard, wildcard⟩ := by
      have hword := hQ false
      rw [eq_of_beq hwild] at hword
      exact hword
    exact ((hg.addState _).addEdge hloop _ _).addEdge (hQ hidden) _ _
  next => exact (hg.addState _).addEdge (hQ hidden) _ _

end Marks

end Graph

section

variable {Q : Nat → Mark → Prop}

theorem marks_wrap (hQ : ∀ label s, Q s ⟨"", Label.pack label⟩) {hidden : Bool} {suffix : Suffix}
    {tag : Option Tag} {content : Graph → Nat → Built Nat} {g h : Graph} {s x : Nat}
    (hcontent : ∀ {g s h x}, g.Marks Q → content g s = .done h x → h.Marks Q)
    (hg : g.Marks Q) (hb : Built.wrap hidden suffix tag g s content = .done h x) : h.Marks Q := by
  obtain ⟨k, y, hk, hafter⟩ := Built.andThen_eq_done.mp hb
  cases hafter
  exact Graph.Marks.emitAll hQ _ (hcontent (Graph.Marks.emitAll hQ _ hg) hk)

theorem marks_joined (hQ : ∀ label s, Q s ⟨"", Label.pack label⟩) {content : Built (List Nat)}
    {h : Graph} {x : Nat} (hcontent : ∀ {h xs}, content = .done h xs → h.Marks Q)
    (hb : content.joined = .done h x) : h.Marks Q := by
  obtain ⟨k, xs, hk, hjoin⟩ := Built.andThen_eq_done.mp hb
  cases hjoin
  exact (hcontent hk).join (hQ "") xs

mutual

/-- Building a tree adds edges with the marks of its words, and others that hear
nothing and say a label that is packed if it has to be. -/
theorem marks_build (hQ : ∀ label s, Q s ⟨"", Label.pack label⟩) (expand : Bool) :
    ∀ (t : Tree) {hidden : Bool} {g h : Graph} {s x : Nat}, t.All (Head.Marks Q) →
      g.Marks Q → build expand hidden g s t = .done h x → h.Marks Q
  | .word text suffix tag, hidden, g, h, s, x, ht, hg, hb => by
      rw [build] at hb
      rw [Tree.All] at ht
      refine marks_wrap hQ (fun hg hword => ?_) hg hb
      cases hword
      exact hg.addWord (ht _ rfl) _ _
  | .seq .group items suffix tag, hidden, g, h, s, x, ht, hg, hb => by
      rw [build] at hb
      rw [Tree.All] at ht
      exact marks_wrap hQ (fun hg => marks_buildInTurn hQ expand items ht.2 hg) hg hb
  | .seq .alternative items suffix tag, hidden, g, h, s, x, ht, hg, hb => by
      rw [build] at hb
      rw [Tree.All] at ht
      exact marks_wrap hQ
        (fun hg => marks_joined hQ (marks_buildEach hQ expand items ht.2 hg)) hg hb
  | .rule key [] tag, hidden, g, h, s, x, _, hg, hb => by
      rw [build] at hb
      exact marks_wrap hQ (fun _ hbody => by cases hbody) hg hb
  | .rule key (body :: _) tag, hidden, g, h, s, x, ht, hg, hb => by
      rw [build] at hb
      rw [Tree.All, AllOf] at ht
      exact marks_wrap hQ (fun hg => marks_build hQ expand body ht.2.1 hg) hg hb
  | .slot name values suffix tag, hidden, g, h, s, x, ht, hg, hb => by
      rw [build] at hb
      rw [Tree.All] at ht
      refine marks_wrap hQ (fun {g s h x} hg hslot => ?_) hg hb
      obtain ⟨k, y, hk, hsource⟩ := Built.andThen_eq_done.mp hslot
      cases hsource
      have hmarks : k.Marks Q := by
        cases expand with
        | false =>
            cases hk
            exact hg
        | true =>
            simp only [Bool.not_true, Bool.false_eq_true, if_false] at hk
            split at hk
            · cases hk
            · exact marks_joined hQ (marks_buildEach hQ true values ht.2 hg) hk
      exact (hmarks.addState .none).addEdge (hQ _) _ _
  | .broken e, hidden, g, h, s, x, _, _, hb => by
      rw [build] at hb
      cases hb

theorem marks_buildInTurn (hQ : ∀ label s, Q s ⟨"", Label.pack label⟩) (expand : Bool) :
    ∀ (ts : List Tree) {hidden : Bool} {g h : Graph} {s x : Nat}, AllOf (Head.Marks Q) ts →
      g.Marks Q → buildInTurn expand hidden g s ts = .done h x → h.Marks Q
  | [], hidden, g, h, s, x, _, hg, hb => by
      rw [buildInTurn] at hb
      cases hb
      exact hg
  | t :: ts, hidden, g, h, s, x, hts, hg, hb => by
      rw [buildInTurn] at hb
      obtain ⟨k, y, hk, hrest⟩ := Built.andThen_eq_done.mp hb
      exact marks_buildInTurn hQ expand ts hts.2
        (marks_build hQ expand t hts.1 hg hk) hrest

theorem marks_buildEach (hQ : ∀ label s, Q s ⟨"", Label.pack label⟩) (expand : Bool) :
    ∀ (ts : List Tree) {hidden : Bool} {g h : Graph} {s : Nat} {xs : List Nat},
      AllOf (Head.Marks Q) ts → g.Marks Q → buildEach expand hidden g s ts = .done h xs →
      h.Marks Q
  | [], hidden, g, h, s, xs, _, hg, hb => by
      rw [buildEach] at hb
      cases hb
      exact hg
  | t :: ts, hidden, g, h, s, xs, hts, hg, hb => by
      rw [buildEach] at hb
      obtain ⟨k, y, hk, hrest⟩ := Built.andThen_eq_done.mp hb
      obtain ⟨k', ys, hk', hdone⟩ := Built.andThen_eq_done.mp hrest
      cases hdone
      exact marks_buildEach hQ expand ts hts.2
        (marks_build hQ expand t hts.1 hg hk) hk'

end

end

theorem marks_buildIntents {Q : Nat → Mark → Prop} (hQ : ∀ label s, Q s ⟨"", Label.pack label⟩)
    {t : Table} (ht : ∀ h ∈ t.heads, h.Marks Q) {expand : Bool} {start : Nat} :
    ∀ (l : List ((String × List Sentence) × EdgeWeight)) {g h : Graph} {xs : List Nat},
      (∀ p ∈ l.map Prod.fst, Q start (intentMark p.1) ∧
        ∀ s ∈ p.2, ∀ h ∈ s.toExpr.heads, h.Marks Q) →
      g.Ascending → start < g.size → g.Marks Q → buildIntents t expand g start l = .done h xs →
      h.Marks Q
  | [], _, _, _, _, _, _, hg, hb => by
      rw [buildIntents] at hb
      cases hb
      exact hg
  | ((intent, sentences), w) :: rest, g, h, xs, hl, hasc, hs, hg, hb => by
      rw [buildIntents] at hb
      obtain ⟨k, _, hintent, hb⟩ := Built.andThen_eq_done.mp hb
      obtain ⟨k', _, hrest, hdone⟩ := Built.andThen_eq_done.mp hb
      cases hdone
      have E := buildIntent_extends hasc hs hintent
      obtain ⟨hlabel, hsentences⟩ := hl _ List.mem_cons_self
      have htrees : AllOf (Head.Marks Q) (sentences.map (Sentence.unfold t intent)) :=
        allOf_iff.mpr fun _ hmem => by
          obtain ⟨s, hs, rfl⟩ := List.mem_map.mp hmem
          exact all_unfold ht _ _ (hsentences s hs)
      have hentered : (g.enter start intent w).Marks Q :=
        ((hg.addState .none).addEdge_from (hasc.valid.addState .none) hlabel _).modifyEdge
          (keeps_decorate w) (fun e => by cases w <;> rfl) _ _
      have hk : k.Marks Q := marks_buildEach hQ expand _ htrees hentered hintent
      exact marks_buildIntents hQ ht rest (fun p hp => hl p (List.mem_cons_of_mem _ hp))
        E.ascending (Nat.lt_of_lt_of_le hs E.size_le) hk hrest

/-- The edges of a compiled graph enter an intent, have the mark of a word that is
written in the sentences or the table, or hear nothing and say a label that is
packed if it has to be. -/
theorem marks_ofSentences {Q : Nat → Mark → Prop} (hQ : ∀ label s, Q s ⟨"", Label.pack label⟩)
    {l : IntentSentences} {t : Table} {o : CompileOptions} {g : Graph}
    (hintents : ∀ p ∈ l, Q 0 (intentMark p.1)) (hl : ∀ h ∈ l.heads ++ t.heads, h.Marks Q)
    (hg : Graph.ofSentences l t o = .ok g) : g.Marks Q := by
  obtain ⟨ws, h, xs, hlength, hb, rfl⟩ := ofSentences_eq_ok hg
  have hempty : Graph.initial.Marks Q := fun e he => (Array.not_mem_empty e he).elim
  refine (marks_buildIntents hQ (fun h hh => hl h (List.mem_append_right _ hh)) _ ?_
    ascending_initial Nat.zero_lt_one hempty hb).join (hQ "") xs
  rw [map_fst_zip_of_length_eq hlength]
  exact fun p hp => ⟨hintents p hp, fun s hs h hh =>
    hl h (List.mem_append_left _ (IntentSentences.mem_heads hp hs hh))⟩

/-- The edges of a compiled graph hear nothing or a word that is written in the
sentences or the table. -/
theorem inputs_ofSentences {P : String → Prop} (hP : P "") {l : IntentSentences} {t : Table}
    {o : CompileOptions} {g : Graph} (hl : ∀ h ∈ l.heads ++ t.heads, h.Hears P)
    (hg : Graph.ofSentences l t o = .ok g) : g.Inputs P :=
  marks_ofSentences (Q := fun _ m => P m.input) (fun _ _ => hP) (fun _ _ => hP)
    (fun h hh text htext _ _ => hl h hh text htext) hg

end Utterance
