import Utterance.Proofs.Compile.Inlining
import Utterance.Proofs.Corpus.Merging

/-!
# Rules are found by their names

The last line that a section has for a name declares the rule of that name
(`Ini.exists_last_of_mem_declared`), and taking a corpus apart puts the rule's body in the
table under a key made of the section's name and the rule's (`Corpus.get?_split`).  A
reference in a sentence of the section is looked up under the same key (`keyOf_of_text`).
So compiling does not tell the reference from the body (`ofSentences_inline_rule`).

Dots are in the way of this (`rules_not_found_by_name`).  The last dot in a reference parts
the name of a section from that of a rule, so a rule with a dot in its own name is not found
by this name alone.  And a rule of a later section, with a dot in its name, may have a key
that is spelled in the same way, and replaces the body in the table.
-/

namespace Utterance

/-! ## Lines that declare rules -/

namespace Ini

variable {o : LoadOptions}

/-- What may stand before an equals sign. -/
structure Key (key : String) : Prop where
  trimmed : Text.trim key.toList = key.toList
  not_equals : '=' ∉ key.toList

theorem key_of_read {cs : List Char} {key value : String}
    (h : Line.read cs = .entry key (some value)) : Key key := by
  have hcut : ∃ before after, Text.cutAt? '=' cs = some (before, after) ∧
      key = String.ofList (Text.trim before) := by
    rw [Line.read.eq_def] at h
    split at h
    next => cases h
    next => cases h
    next => cases h
    next =>
      split at h
      next => cases h
      next =>
        split at h
        next before after hcut =>
          cases h
          exact ⟨before, after, hcut, rfl⟩
        next => cases h
  obtain ⟨before, after, hcut, rfl⟩ := hcut
  refine ⟨by rw [String.toList_ofList, Text.trim_trim], fun hmem => ?_⟩
  rw [String.toList_ofList] at hmem
  exact (Text.cutAt?_eq_some_iff.mp hcut).2 (Text.trim_subset before hmem)

theorem key_of_mem_declaredIn {name key value : String} : ∀ {current : Option String}
    {ls : List (List Char)}, (key, some value) ∈ declaredIn name current ls → Key key
  | _, [], h => (List.not_mem_nil h).elim
  | current, cs :: ls, h => by
      rw [declaredIn] at h
      split at h
      next => exact key_of_mem_declaredIn h
      next => exact key_of_mem_declaredIn h
      next hread =>
        split at h
        · rcases List.mem_cons.mp h with h | h
          · cases h
            exact key_of_read hread
          · exact key_of_mem_declaredIn h
        · exact key_of_mem_declaredIn h

/-- What is declared for a key stands in the last line with it. -/
theorem exists_last_of_mem_declared {text name : String} {d : Declaration}
    (h : d ∈ declared text name) :
    ∃ before after, declaredIn name none (rows text) = before ++ d :: after ∧
      d.1 ∉ after.map Prod.fst := by
  rw [declared_eq_latest] at h
  exact mem_latest_iff.mp h

theorem rule_of_item {intent : String} {d : Declaration} {rule : Rule}
    (h : item? o intent d = some (.rule rule)) :
    ∃ value, d.2 = some value ∧ Rule.parse ("<" ++ d.1 ++ "> = (" ++
      o.transform (unescapeBracket value) ++ ");") (some ⟨"", 0, some intent⟩) = .ok rule := by
  obtain ⟨key, _ | value⟩ := d
  · simp [item?, Entry.item, Except.toOption_map] at h
  · simp only [item?, Entry.item, Except.toOption_map, Option.map_eq_some_iff] at h
    obtain ⟨_, hparse, ⟨⟩⟩ := h
    exact ⟨value, rfl, Except.toOption_eq_some_iff.mp hparse⟩

theorem sentence_of_item {intent : String} {d : Declaration} {s : Sentence}
    (h : item? o intent d = some (.sentence s)) :
    d.2 = none ∧
      Sentence.parse (o.transform (unescapeBracket d.1)) (some ⟨"", 0, some intent⟩) = .ok s := by
  obtain ⟨key, _ | value⟩ := d
  · simp only [item?, Entry.item, Except.toOption_map, Option.map_eq_some_iff] at h
    obtain ⟨_, hparse, ⟨⟩⟩ := h
    exact ⟨rfl, Except.toOption_eq_some_iff.mp hparse⟩
  · simp [item?, Entry.item, Except.toOption_map] at h

end Ini

/-! ## The rules of a section -/

namespace Corpus

open Ini

variable {o : LoadOptions} {text file : String} {c : Corpus} {s : IntentSection}

/-- Every item of a section stands for a line that the text declares there. -/
theorem exists_declared_of_mem_items (hc : Corpus.parse text file o = .ok c) (hs : s ∈ c.sections)
    {item : CorpusItem} (h : item ∈ s.items) :
    ∃ d ∈ declared text s.name, item? o s.name d = some item := by
  have haccepts : o.accepts s.name = true := by
    by_contra hnot
    exact not_mem_names hc hnot (List.mem_map_of_mem hs)
  have hfound : c.get? s.name = some s := find?_key_of_mem (nodup_names hc) hs
  have hitems := (parse_spec hc).2.2 s.name haccepts
  rw [itemsOf, hfound, Option.elim_some] at hitems
  exact List.mem_map.mp (hitems ▸ List.mem_map_of_mem h)

/-- A rule is declared under its name, which may stand in a reference if it has no backslash. -/
theorem exists_declared_of_rule (hc : Corpus.parse text file o = .ok c) (hs : s ∈ c.sections)
    {rule : Rule} (h : .rule rule ∈ s.items) :
    ∃ value, (rule.name, some value) ∈ declared text s.name ∧
      item? o s.name (rule.name, some value) = some (.rule rule) ∧
      ('\\' ∉ rule.name.toList → RefName rule.name) := by
  obtain ⟨⟨key, _⟩, hd, hitem⟩ := exists_declared_of_mem_items hc hs h
  obtain ⟨value, rfl, hparse⟩ := rule_of_item hitem
  obtain ⟨before, after, hlines, -⟩ := exists_last_of_mem_declared hd
  have hkey : Key key :=
    key_of_mem_declaredIn (hlines ▸ List.mem_append_right _ List.mem_cons_self)
  obtain ⟨rfl, hne, hcloser⟩ := Rule.name_of_parse hkey.trimmed hkey.not_equals hparse
  exact ⟨value, hd, hitem, fun hescape => ⟨hne, hkey.trimmed, hcloser, hescape⟩⟩

theorem eq_of_rule_name_eq (hc : Corpus.parse text file o = .ok c) (hs : s ∈ c.sections)
    {rule rule' : Rule} (h : .rule rule ∈ s.items) (h' : .rule rule' ∈ s.items)
    (hname : rule'.name = rule.name) : rule' = rule := by
  obtain ⟨value, hd, hitem, -⟩ := exists_declared_of_rule hc hs h
  obtain ⟨value', hd', hitem', -⟩ := exists_declared_of_rule hc hs h'
  rw [hname] at hd' hitem'
  obtain rfl : value' = value := by
    simpa using List.inj_on_of_nodup_map (nodup_keys_declared text s.name) hd' hd rfl
  rw [hitem] at hitem'
  exact (CorpusItem.rule.inj (Option.some.inj hitem')).symm

end Corpus

/-! ## The table -/

theorem Table.get?_insert (key : String) (values : List Expr) (t : Table) (k : String) :
    (t.insert key values).get? k = if k = key then some values else t.get? k := by
  induction t with
  | nil => exact Ini.lookup_cons_eq (key, values) [] k
  | cons entry t ih =>
      obtain ⟨old, olds⟩ := entry
      rw [get?, get?] at ih
      rw [insert]
      split
      next hkey =>
        rw [get?, get?, Ini.lookup_cons_eq, Ini.lookup_cons_eq, eq_of_beq hkey]
        split <;> rfl
      next hkey =>
        rw [get?, get?, Ini.lookup_cons_eq, Ini.lookup_cons_eq, ih]
        split
        next hk => rw [if_neg fun h => hkey (beq_iff_eq.mpr (hk.symm.trans h))]
        next => rfl

theorem ruleKey_inj {grammar rule rule' : String}
    (h : ruleKey grammar rule = ruleKey grammar rule') : rule = rule' := by
  simpa [ruleKey] using h

/-- The last dot in a key stands between the two names. -/
theorem ruleKey_inj_of_dotless {grammar grammar' rule rule' : String} (hdot : '.' ∉ rule.toList)
    (hdot' : '.' ∉ rule'.toList) (h : ruleKey grammar rule = ruleKey grammar' rule') :
    grammar = grammar' ∧ rule = rule' := by
  have hkey : ∀ grammar rule, (ruleKey grammar rule).toList =
      '<' :: (grammar.toList ++ '.' :: rule.toList) ++ ['>'] := by
    simp [ruleKey]
  have hchars : grammar.toList ++ '.' :: rule.toList = grammar'.toList ++ '.' :: rule'.toList := by
    have hkeys := congrArg String.toList h
    rw [hkey, hkey] at hkeys
    exact (List.cons.inj (List.append_cancel_right hkeys)).2
  have hcut := congrArg (Text.cutAtLast? '.') hchars
  rw [Text.cutAtLast?_append hdot, Text.cutAtLast?_append hdot'] at hcut
  obtain ⟨hgrammar, hrule⟩ := Prod.mk.inj (Option.some.inj hcut)
  exact ⟨String.toList_injective hgrammar, String.toList_injective hrule⟩

namespace IntentSection

variable {s : IntentSection}

/-- The section has a rule with this key. -/
def Declares (s : IntentSection) (key : String) : Prop :=
  ∃ rule, .rule rule ∈ s.items ∧ ruleKey s.name rule.name = key

/-- Sections without dots in the names of their rules do not have each other's keys. -/
theorem not_declares_of_dotless (h : ∀ rule, .rule rule ∈ s.items → '.' ∉ rule.name.toList)
    {grammar name : String} (hgrammar : grammar ≠ s.name) (hdot : '.' ∉ name.toList) :
    ¬s.Declares (ruleKey grammar name) := by
  rintro ⟨rule, hrule, hkey⟩
  exact hgrammar (ruleKey_inj_of_dotless (h rule hrule) hdot hkey).1.symm

/-- Under a key stands one of the section's rules, or what has been there if it has none. -/
theorem get?_addRules (s : IntentSection) (t : Table) (key : String) :
    ¬s.Declares key ∧ (s.addRules t).get? key = t.get? key ∨
      ∃ rule, .rule rule ∈ s.items ∧ ruleKey s.name rule.name = key ∧
        (s.addRules t).get? key = some [rule.body.toExpr] := by
  obtain ⟨name, items⟩ := s
  -- from the end of the items, since the rule that is added last is the one that stands
  induction items using List.reverseRecOn with
  | nil => exact .inl ⟨by simp [Declares], rfl⟩
  | append_singleton items item ih =>
      cases item with
      | sentence sentence => simpa [Declares, addRules] using ih
      | rule rule =>
          have hadd : addRules ⟨name, items ++ [.rule rule]⟩ t =
              (addRules ⟨name, items⟩ t).insert (ruleKey name rule.name) [rule.body.toExpr] := by
            simp [addRules]
          rw [hadd, Table.get?_insert]
          by_cases hkey : key = ruleKey name rule.name
          · exact .inr ⟨rule, by simp, hkey.symm, if_pos hkey⟩
          · rw [if_neg hkey]
            rcases ih with ⟨hnone, hget⟩ | ⟨rule', hrule', hkey', hget⟩
            · refine .inl ⟨?_, hget⟩
              rintro ⟨rule', hrule', hkey'⟩
              rcases List.mem_append.mp hrule' with hrule' | hrule'
              · exact hnone ⟨rule', hrule', hkey'⟩
              · obtain rfl := CorpusItem.rule.inj (List.mem_singleton.mp hrule')
                exact hkey hkey'.symm
            · exact .inr ⟨rule', List.mem_append_left _ hrule', hkey', hget⟩

end IntentSection

namespace Corpus

variable {c : Corpus} {s : IntentSection}

theorem get?_foldl_addRules {key : String} {sections : List IntentSection}
    (h : ∀ s ∈ sections, ¬s.Declares key) (t : Table) :
    Table.get? (sections.foldl (fun t s => s.addRules t) t) key = t.get? key := by
  induction sections generalizing t with
  | nil => rfl
  | cons s sections ih =>
      rw [List.forall_mem_cons] at h
      rw [List.foldl_cons, ih h.2]
      rcases s.get?_addRules t key with ⟨-, hget⟩ | ⟨rule, hrule, hkey, -⟩
      · exact hget
      · exact absurd ⟨rule, hrule, hkey⟩ h.1

/-- A rule is in the table unless another one is declared with its key afterwards. -/
theorem get?_split {before after : List IntentSection} (hs : c.sections = before ++ s :: after)
    {rule : Rule} (hrule : .rule rule ∈ s.items)
    (hunique : ∀ rule', .rule rule' ∈ s.items → rule'.name = rule.name → rule' = rule)
    (hlater : ∀ later ∈ after, ¬later.Declares (ruleKey s.name rule.name)) (t : Table) :
    (c.split t).2.get? (ruleKey s.name rule.name) = some [rule.body.toExpr] := by
  have hhere : ∀ t, (s.addRules t).get? (ruleKey s.name rule.name) = some [rule.body.toExpr] := by
    intro t
    rcases s.get?_addRules t (ruleKey s.name rule.name) with
      ⟨hnone, -⟩ | ⟨rule', hrule', hkey, hget⟩
    · exact absurd ⟨rule, hrule, rfl⟩ hnone
    · rw [hget, hunique rule' hrule' (ruleKey_inj hkey)]
  rw [split, hs, List.foldl_append, List.foldl_cons, get?_foldl_addRules hlater, hhere]

end Corpus

/-! ## References in sentences -/

/-- In a sentence of an intent, the name alone stands for the intent's own rule. -/
theorem keyOf_of_text {o : LoadOptions} {text file : String} {c : Corpus} {s : IntentSection}
    (hc : Corpus.parse text file o = .ok c) (hs : s ∈ c.sections) {name : String}
    (hname : RefName name) (hdot : '.' ∉ name.toList)
    {sentence : Sentence} (hsentence : sentence ∈ s.sentences)
    {ref : RuleRef} {tag : Option Tag} (hmem : .rule ref tag ∈ sentence.toExpr.nodes)
    (htext : ref.text = "<" ++ name ++ ">") :
    Scope.keyOf { intent := s.name } ref = ruleKey s.name name := by
  have hitem : .sentence sentence ∈ s.items := by
    obtain ⟨item, hitem, heq⟩ := List.mem_filterMap.mp hsentence
    cases item with
    | sentence read =>
        cases heq
        exact hitem
    | rule rule => cases heq
  obtain ⟨d, -, hd⟩ := Corpus.exists_declared_of_mem_items hc hs hitem
  have hrefs := Sentence.refs_name hname hdot (Ini.sentence_of_item hd).2
  obtain rfl := hrefs ref tag hmem htext
  by_cases hempty : s.name.isEmpty = true <;> simp [Scope.keyOf, Scope.grammarOf, hempty]

/-- Let a rule `r` of a section `S` have a name without dot and backslash and a body that refers to
nothing, and let no rule of a later section have a key that is spelled in the same way.  Then the
rule is what the last line for `r` in `S` declares, and `<r>` means its body in the sentences of
`S`: compiling is the same with the body written out, and does not fail to find the rule. -/
theorem ofSentences_inline_rule {o : LoadOptions} {text file : String} {c : Corpus}
    (hc : Corpus.parse text file o = .ok c) {before after : List IntentSection} {s : IntentSection}
    (hs : c.sections = before ++ s :: after) {rule : Rule} (hrule : .rule rule ∈ s.items)
    (hescape : '\\' ∉ rule.name.toList) (hdot : '.' ∉ rule.name.toList)
    (hbody : rule.body.toExpr.Literal)
    (hlater : ∀ later ∈ after, ¬later.Declares (ruleKey s.name rule.name)) (t : Table) :
    (∃ value earlier later, Ini.declaredIn s.name none (Ini.rows text) =
        earlier ++ (rule.name, some value) :: later ∧ rule.name ∉ later.map Prod.fst ∧
      Ini.item? o s.name (rule.name, some value) = some (.rule rule)) ∧
    (∀ sentence ∈ s.sentences, ∀ ref tag, .rule ref tag ∈ sentence.toExpr.nodes →
      ref.text = "<" ++ rule.name ++ ">" →
        (c.split t).2.get? (Scope.keyOf { intent := s.name } ref) = some [rule.body.toExpr]) ∧
    ∀ options, Graph.ofSentences (c.split t).1 (c.split t).2 options =
        Graph.ofSentences ((c.split t).1.inline s.name ("<" ++ rule.name ++ ">") rule.body.toExpr)
          (c.split t).2 options ∧
      Graph.ofSentences (c.split t).1 (c.split t).2 options ≠
        .error (.unresolved (ruleKey s.name rule.name)) := by
  have hmem : s ∈ c.sections := hs ▸ List.mem_append_right _ List.mem_cons_self
  obtain ⟨value, hdeclared, hitem, hname⟩ := Corpus.exists_declared_of_rule hc hmem hrule
  obtain ⟨earlier, later, hlines, hlast⟩ := Ini.exists_last_of_mem_declared hdeclared
  have hget := Corpus.get?_split hs hrule
    (fun _ h => Corpus.eq_of_rule_name_eq hc hmem hrule h) hlater t
  have hrefs : ∀ sentence ∈ s.sentences, ∀ ref tag, .rule ref tag ∈ sentence.toExpr.nodes →
      ref.text = "<" ++ rule.name ++ ">" →
        (c.split t).2.get? (Scope.keyOf { intent := s.name } ref) = some [rule.body.toExpr] := by
    intro sentence hsentence ref tag href htext
    rw [keyOf_of_text hc hmem (hname hescape) hdot hsentence href htext, hget]
  refine ⟨⟨value, earlier, later, hlines, hlast, hitem⟩, hrefs, fun options => ⟨?_, ?_⟩⟩
  · refine (ofSentences_inline hbody (fun sentences hsentences => ?_) options).symm
    -- no other section of the corpus has the name of this one
    have hsame : sentences = s.sentences := by
      obtain ⟨s', hs', heq⟩ := List.mem_map.mp hsentences
      obtain ⟨hname', rfl⟩ := Prod.mk.inj heq
      rw [List.inj_on_of_nodup_map (Corpus.nodup_names hc) hs' hmem hname']
    exact hsame ▸ hrefs
  · intro herror
    cases lacks_of_ofSentences herror _ hget

/-! ## A colour, and what is in the way -/

/-- The rule `name = word` as it is read. -/
def wordRule (name word : String) : Rule :=
  ⟨name, ⟨"(" ++ word ++ ")", [.seq .group word [.plain word] {} none]⟩, false,
    "<" ++ name ++ "> = (" ++ word ++ ");"⟩

/-- The sentence `say <text>` as it is read. -/
def saySentence (text name grammar : String) : Sentence :=
  ⟨"say <" ++ text ++ ">", [.plain "say", .rule ⟨"<" ++ text ++ ">", name, some grammar⟩ none]⟩

theorem literal_wordRule (name word : String) : (wordRule name word).body.toExpr.Literal := by
  constructor
  · simp [wordRule, Sentence.toExpr, Expr.AllRefs, Expr.nodes, Expr.nodesOf, Expr.plain]
  · rfl

/-- One colour is declared twice, and another one in a section of its own. -/
def colourText : String :=
  "[Paint]\ncolour = red\nsay <colour>\ncolour = blue\n[Fade]\ncolour = grey\n"

def paintSection : IntentSection :=
  ⟨"Paint", [.rule (wordRule "colour" "blue"), .sentence (saySentence "colour" "colour" "Paint")]⟩

def fadeSection : IntentSection := ⟨"Fade", [.rule (wordRule "colour" "grey")]⟩

def colourCorpus : Corpus := ⟨[paintSection, fadeSection]⟩

theorem parse_colourText : Corpus.parse colourText "colour.ini" = .ok colourCorpus := by
  with_unfolding_all rfl

/-- The sentence is compiled with the last colour of its section in the place of the reference. -/
theorem compile_colourText :
    Ini.declaredIn "Paint" none (Ini.rows colourText) =
        [("colour", some "red"), ("say <colour>", none), ("colour", some "blue")] ∧
      Corpus.parse colourText "colour.ini" = .ok colourCorpus ∧
      ∀ options, Graph.ofSentences colourCorpus.split.1 colourCorpus.split.2 options =
          Graph.ofSentences [("Paint", [⟨"say <colour>", [.plain "say", .seq .group "<colour>"
            [(wordRule "colour" "blue").body.toExpr] {} none]⟩]), ("Fade", [])]
            colourCorpus.split.2 options ∧
        Graph.ofSentences colourCorpus.split.1 colourCorpus.split.2 options ≠
          .error (.unresolved "<Paint.colour>") := by
  refine ⟨by decide +kernel, parse_colourText, fun options => ?_⟩
  have hsections : colourCorpus.sections = [] ++ paintSection :: [fadeSection] := rfl
  have hrule : .rule (wordRule "colour" "blue") ∈ paintSection.items := List.mem_cons_self
  have hlater : ∀ later ∈ [fadeSection], ¬later.Declares (ruleKey "Paint" "colour") := by
    refine List.forall_mem_singleton.mpr (IntentSection.not_declares_of_dotless ?_ ?_ ?_)
    · simp [fadeSection, wordRule]
    · decide
    · decide
  obtain ⟨-, -, hcompile⟩ := ofSentences_inline_rule parse_colourText hsections hrule
    (by decide) (by decide) (literal_wordRule _ _) hlater []
  exact hcompile options

/-- The name of a rule has a dot. -/
def dottedText : String := "[A]\na.b = x\nsay <a.b>\n"

def dottedSection : IntentSection :=
  ⟨"A", [.rule (wordRule "a.b" "x"), .sentence (saySentence "a.b" "b" "a")]⟩

def dottedCorpus : Corpus := ⟨[dottedSection]⟩

/-- Two rules of different sections have keys that are spelled in the same way. -/
def clashText : String := "[A.b]\nc = x\nsay <c>\n[A]\nb.c = y\n"

def firstSection : IntentSection :=
  ⟨"A.b", [.rule (wordRule "c" "x"), .sentence (saySentence "c" "c" "A.b")]⟩

def clashingSection : IntentSection := ⟨"A", [.rule (wordRule "b.c" "y")]⟩

def clashCorpus : Corpus := ⟨[firstSection, clashingSection]⟩

/-- The graph of an intent that says a word, and of one without sentences. -/
def sayGraph (word : String) : Graph where
  nodes := #[⟨none, #[0, 3]⟩, ⟨none, #[1]⟩, ⟨some "say", #[2]⟩, ⟨some word, #[4]⟩, ⟨none, #[]⟩,
    ⟨none, #[]⟩]
  edges := #[{ source := 0, target := 1, output := "__label__A.b" },
    { source := 1, target := 2, input := "say", output := "say" },
    { source := 2, target := 3, input := word, output := word },
    { source := 0, target := 4, output := "__label__A" },
    { source := 3, target := 5 }]
  start := some 0
  final := some 5

/-- The sentence of the first section with a body written out. -/
def spelledSentence (body : Expr) : Sentence :=
  ⟨"say <c>", [.plain "say", .seq .group "<c>" [body] {} none]⟩

theorem unfold_spelledSentence (t : Table) (name word : String) :
    (spelledSentence (wordRule name word).body.toExpr).unfold t "A.b" =
      .seq .group [.word "say" {} none, .seq .group [.seq .group [.seq .group [.word word {} none]
        {} none] {} none] {} none] {} none := by
  simp [Sentence.unfold, Sentence.toExpr, spelledSentence, wordRule, unfold, unfoldAll, Expr.plain]

theorem ofSentences_spelledSentence (t : Table) (name : String) : ∀ word ∈ ["x", "y"],
    Graph.ofSentences [("A.b", [spelledSentence (wordRule name word).body.toExpr]), ("A", [])] t
      { addWeights := false } = .ok (sayGraph word) := by
  have hweights : ∀ s, edgeWeights [("A.b", [s]), ("A", [])] t { addWeights := false } =
      .ok [none, none] := fun _ => rfl
  intro word hword
  unfold Graph.ofSentences
  simp only [hweights, bind, Except.bind, List.zip_cons_cons, List.zip_nil_left, buildIntents,
    buildIntent, List.map_cons, List.map_nil, unfold_spelledSentence]
  rw [List.mem_pair] at hword
  rcases hword with rfl | rfl <;> rfl

theorem unfold_dotted :
    (saySentence "a.b" "b" "a").unfold dottedCorpus.split.2 "A" = .seq .group
      [.word "say" {} none, .rule "<a.b>" [.broken (.unresolved "<a.b>")] none] {} none := by
  have hnone : dottedCorpus.split.2.get?
      (Scope.keyOf { intent := "A" } ⟨"<" ++ "a.b" ++ ">", "b", some "a"⟩) = none := by
    with_unfolding_all rfl
  rw [Sentence.unfold, Sentence.toExpr, saySentence, unfold, unfoldAll, unfoldAll, unfoldAll,
    unfold_rule_of_none hnone, Expr.plain, unfold]
  rfl

/-- A rule with a dot in its name is not found by it, and one whose key a later section declares
as well gives way to the other.  In neither case is compiling the same as with the body of the
section's own rule. -/
theorem rules_not_found_by_name :
    (Corpus.parse dottedText "a.ini" = .ok dottedCorpus ∧
      .rule (wordRule "a.b" "x") ∈ dottedSection.items ∧
      (wordRule "a.b" "x").body.toExpr.Literal ∧
      saySentence "a.b" "b" "a" ∈ dottedSection.sentences ∧
      Graph.ofSentences dottedCorpus.split.1 dottedCorpus.split.2 =
        .error (.unresolved "<a.b>")) ∧
    Corpus.parse clashText "a.ini" = .ok clashCorpus ∧
      .rule (wordRule "c" "x") ∈ firstSection.items ∧ (wordRule "c" "x").body.toExpr.Literal ∧
      saySentence "c" "c" "A.b" ∈ firstSection.sentences ∧
      Graph.ofSentences clashCorpus.split.1 clashCorpus.split.2 { addWeights := false } =
        .ok (sayGraph "y") ∧
      Graph.ofSentences
          (clashCorpus.split.1.inline "A.b" "<c>" (wordRule "c" "x").body.toExpr)
          clashCorpus.split.2 { addWeights := false } =
        .ok (sayGraph "x") := by
  have hgiven : ∀ sentences, ("A.b", sentences) ∈ clashCorpus.split.1 → ∀ s ∈ sentences,
      ∀ ref tag, .rule ref tag ∈ s.toExpr.nodes → ref.text = "<c>" →
        clashCorpus.split.2.get? (Scope.keyOf { intent := "A.b" } ref) =
          some [(wordRule "b.c" "y").body.toExpr] := by
    intro sentences hsentences s hs ref tag href _
    have hsplit : clashCorpus.split.1 = [("A.b", [saySentence "c" "c" "A.b"]), ("A", [])] := rfl
    obtain rfl : sentences = [saySentence "c" "c" "A.b"] := by simpa [hsplit] using hsentences
    obtain rfl := List.mem_singleton.mp hs
    obtain ⟨rfl, -⟩ : ref = ⟨"<c>", "c", some "A.b"⟩ ∧ tag = none := by
      simpa [saySentence, Sentence.toExpr, Expr.nodes, Expr.nodesOf, Expr.plain] using href
    with_unfolding_all rfl
  refine ⟨⟨by with_unfolding_all rfl, List.mem_cons_self, literal_wordRule _ _,
    List.mem_cons_self, ?_⟩, by with_unfolding_all rfl, List.mem_cons_self, literal_wordRule _ _,
    List.mem_cons_self, ?_, ?_⟩
  · exact (ofSentences_singleton unfold_dotted).trans rfl
  · rw [← ofSentences_inline (literal_wordRule _ _) hgiven]
    exact ofSentences_spelledSentence _ "b.c" "y" (by decide)
  · exact ofSentences_spelledSentence _ "c" "x" (by decide)

end Utterance
