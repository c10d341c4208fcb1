import Utterance.Proofs.Corpus.Sections
import Utterance.Proofs.Failing

/-!
# Texts read apart and together

A corpus is known by its names, in order, and by the items under each name
(`Corpus.eq_of_itemsOf`).  Reading a text gives the items that its declared lines
stand for, one each, whatever the file is called and whichever number a line has
(`Corpus.parse_spec`).  Merging a corpus into another one appends its items name by
name (`Corpus.itemsOf_merge`).

So two texts read together have the sections of the merged corpora, but a line that
both declare in a section is one item of the former, as the second text has it, and
two of the latter.  They agree if and only if no line is declared in both
(`Corpus.parse_append`).
-/

namespace Utterance

/-! ## What a line stands for -/

section

variable {origin origin' : Option Origin}

theorem Sentence.toOption_parse (h : origin.bind Origin.intent = origin'.bind Origin.intent)
    (text : String) :
    (Sentence.parse text origin).toOption = (Sentence.parse text origin').toOption := by
  rw [Sentence.parse, Sentence.parse, h]
  cases Template.readItems (origin'.bind Origin.intent) text.toList <;> rfl

theorem Rule.toOption_parse (h : origin.bind Origin.intent = origin'.bind Origin.intent)
    (text : String) :
    (Rule.parse text origin).toOption = (Rule.parse text origin').toOption := by
  rw [Rule.parse, Rule.parse]
  cases RuleText.cut? (Text.trim text.toList) with
  | none => rfl
  | some parts =>
      have hbody := Sentence.toOption_parse h (String.ofList parts.body)
      simp only
      cases hp : Sentence.parse (String.ofList parts.body) origin <;>
        cases hp' : Sentence.parse (String.ofList parts.body) origin' <;>
        simp_all [Except.toOption, bind, Except.bind, pure, Except.pure]

end

namespace Ini

variable {o : LoadOptions}

/-- The sentence or rule that a line of a section stands for, if it can be read. -/
def item? (o : LoadOptions) (intent : String) (d : Declaration) : Option CorpusItem :=
  (Entry.item o "" intent ⟨d.1, d.2, 0⟩).toOption

theorem toOption_item (file intent : String) (e : Entry) :
    (Entry.item o file intent e).toOption = item? o intent e.declaration := by
  obtain ⟨key, _ | body, line⟩ := e
  · simp only [item?, Entry.item, Entry.declaration, Except.toOption_map]
    refine congrArg _ (Sentence.toOption_parse ?_ _)
    rfl
  · simp only [item?, Entry.item, Entry.declaration, Except.toOption_map]
    refine congrArg _ (Rule.toOption_parse ?_ _)
    rfl

theorem item_eq_ok_iff {file intent : String} {e : Entry} {item : CorpusItem} :
    Entry.item o file intent e = .ok item ↔ item? o intent e.declaration = some item := by
  rw [← toOption_item file]
  exact Except.toOption_eq_some_iff.symm

end Ini

/-! ## Names and items -/

namespace Corpus

variable {c d : Corpus} {name : String}

/-- The items of the section of that name, if there is one. -/
def itemsOf (c : Corpus) (name : String) : List CorpusItem :=
  (c.get? name).elim [] IntentSection.items

theorem itemsOf_cons (s : IntentSection) (rest : List IntentSection) (name : String) :
    itemsOf ⟨s :: rest⟩ name = if s.name = name then s.items else itemsOf ⟨rest⟩ name := by
  by_cases hname : s.name = name <;> simp [itemsOf, get?, hname]

theorem itemsOf_of_not_mem (h : name ∉ c.names) : c.itemsOf name = [] := by
  have hnone : c.get? name = none := by
    refine List.find?_eq_none.mpr fun s hs hname => h ?_
    exact List.mem_map.mpr ⟨s, hs, eq_of_beq hname⟩
  rw [itemsOf, hnone, Option.elim_none]

/-- A corpus in which no name occurs twice is known by its names and their items. -/
theorem eq_of_itemsOf (hnodup : c.names.Nodup) (hnames : c.names = d.names)
    (h : ∀ name, c.itemsOf name = d.itemsOf name) : c = d := by
  have hsections : ∀ c : Corpus, c.names.Nodup →
      c.sections = c.names.map fun name => ⟨name, c.itemsOf name⟩ := by
    intro c hc
    rw [names, List.map_map]
    refine ((List.map_congr_left fun s hs => ?_).trans (List.map_id _)).symm
    have hfound : c.get? s.name = some s := find?_key_of_mem hc hs
    rw [Function.comp_apply, itemsOf, hfound]
    rfl
  have heq : c.sections = d.sections := by
    rw [hsections c hnodup, hsections d (hnames ▸ hnodup), ← hnames]
    exact List.map_congr_left fun name _ => by rw [h name]
  cases c
  cases d
  exact congrArg Corpus.mk heq

theorem names_append (c : Corpus) (name : String) (items : List CorpusItem) :
    (c.append name items).names = Graph.appendNew c.names name := by
  have hsections : ∀ l : List IntentSection, (appendTo name items l).map IntentSection.name =
      Graph.appendNew (l.map IntentSection.name) name := by
    intro l
    induction l with
    | nil => rfl
    | cons s rest ih =>
        rw [appendTo, Graph.appendNew]
        by_cases hname : s.name = name
        · simp [hname]
        · have hne : ¬name = s.name := fun h => hname h.symm
          rw [Graph.appendNew] at ih
          by_cases hmem : name ∈ rest.map IntentSection.name <;> simp_all
  exact hsections c.sections

theorem itemsOf_append (c : Corpus) (added : String) (items : List CorpusItem) (name : String) :
    (c.append added items).itemsOf name =
      if added = name then c.itemsOf name ++ items else c.itemsOf name := by
  have hsections : ∀ l : List IntentSection, itemsOf ⟨appendTo added items l⟩ name =
      if added = name then itemsOf ⟨l⟩ name ++ items else itemsOf ⟨l⟩ name := by
    intro l
    induction l with
    | nil => by_cases hname : added = name <;> simp [appendTo, itemsOf, get?, hname]
    | cons s rest ih =>
        rw [appendTo]
        split
        next hs =>
          rw [itemsOf_cons, itemsOf_cons, ← eq_of_beq hs]
          split <;> rfl
        next hs =>
          rw [itemsOf_cons, itemsOf_cons, ih]
          by_cases hname : s.name = name
          · have hne : ¬added = name := fun h => hs (beq_iff_eq.mpr (hname.trans h.symm))
            simp [hname, hne]
          · simp [hname]
  exact hsections c.sections

theorem names_merge (c d : Corpus) : (c.merge d).names = d.names.foldl Graph.appendNew c.names := by
  have hsections : ∀ (l : List IntentSection) (c : Corpus),
      (l.foldl (fun c s => c.append s.name s.items) c).names =
        (l.map IntentSection.name).foldl Graph.appendNew c.names := by
    intro l
    induction l with
    | nil => exact fun _ => rfl
    | cons s rest ih =>
        intro c
        rw [List.foldl_cons, ih, names_append]
        rfl
  exact hsections d.sections c

/-- Merging appends the items name by name. -/
theorem itemsOf_merge (hd : d.names.Nodup) (c : Corpus) (name : String) :
    (c.merge d).itemsOf name = c.itemsOf name ++ d.itemsOf name := by
  have hsections : ∀ (l : List IntentSection) (c : Corpus), (l.map IntentSection.name).Nodup →
      (l.foldl (fun c s => c.append s.name s.items) c).itemsOf name =
        c.itemsOf name ++ itemsOf ⟨l⟩ name := by
    intro l
    induction l with
    | nil => exact fun c _ => (List.append_nil _).symm
    | cons s rest ih =>
        intro c hnodup
        rw [List.map_cons, List.nodup_cons] at hnodup
        rw [List.foldl_cons, ih _ hnodup.2, itemsOf_append, itemsOf_cons]
        split
        next hname =>
          have hrest : itemsOf ⟨rest⟩ name = [] := itemsOf_of_not_mem (hname ▸ hnodup.1)
          rw [hrest, List.append_nil]
        next => rfl
  exact hsections d.sections c hd

theorem empty_merge (hc : c.names.Nodup) : ({} : Corpus).merge c = c := by
  have hnames : (({} : Corpus).merge c).names = c.names := by
    rw [names_merge]
    exact (foldl_appendNew List.nodup_nil _).trans (eraseDups_of_nodup hc)
  refine eq_of_itemsOf (hnames ▸ hc) hnames fun name => ?_
  rw [itemsOf_merge hc]
  rfl

end Corpus

/-! ## Reading a text -/

namespace Ini

variable {o : LoadOptions} {file : String}

theorem declarations_cons (s : Section) (rest : List Section) (name : String) :
    declarations (s :: rest) name =
      if s.name = name then s.entries.map Entry.declaration else declarations rest name := by
  by_cases hname : s.name = name <;> simp [declarations, hname]

theorem declarations_filter {p : String → Bool} {name : String} (hname : p name = true)
    (sections : List Section) :
    declarations (sections.filter fun s => p s.name) name = declarations sections name := by
  induction sections with
  | nil => rfl
  | cons s rest ih =>
      rw [List.filter_cons, declarations_cons]
      by_cases hs : s.name = name
      · rw [hs, if_pos hname, declarations_cons, if_pos hs, if_pos rfl]
      · rw [if_neg hs]
        split
        · rw [declarations_cons, if_neg hs, ih]
        · exact ih

theorem toIntent_eq_ok_iff {s : Section} {intent : IntentSection} :
    s.toIntent o file = .ok intent ↔ intent.name = s.name ∧
      intent.items.map some = (s.entries.map Entry.declaration).map (item? o s.name) := by
  have hitems : ∀ items : List CorpusItem, s.entries.mapM (Entry.item o file s.name) = .ok items ↔
      items.map some = (s.entries.map Entry.declaration).map (item? o s.name) := by
    intro items
    rw [mapM_eq_ok_iff, List.map_map]
    simp only [toOption_item, Function.comp_def]
  obtain ⟨name, items⟩ := intent
  rw [← hitems, Section.toIntent]
  cases s.entries.mapM (Entry.item o file s.name) with
  | error e => simp [bind, Except.bind]
  | ok items' => simp [bind, Except.bind, pure, Except.pure, eq_comm]

/-- The corpus of some sections has their names, and an item for every line. -/
theorem itemsOf_of_mapM_toIntent : ∀ {sections : List Section} {intents : List IntentSection},
    sections.mapM (Section.toIntent o file) = .ok intents →
    intents.map IntentSection.name = sections.map Section.name ∧
      ∀ name, (Corpus.itemsOf ⟨intents⟩ name).map some =
        (declarations sections name).map (item? o name)
  | [], intents, h => by
      cases h
      exact ⟨rfl, fun _ => rfl⟩
  | s :: rest, intents, h => by
      rw [mapM_eq_ok_iff, List.map_cons, List.map_eq_cons_iff] at h
      obtain ⟨intent, more, rfl, hintent, hmore⟩ := h
      obtain ⟨hnames, hitems⟩ := itemsOf_of_mapM_toIntent (mapM_eq_ok_iff.mpr hmore)
      obtain ⟨hname, hlines⟩ := toIntent_eq_ok_iff.mp (Except.toOption_eq_some_iff.mp hintent.symm)
      refine ⟨by rw [List.map_cons, List.map_cons, hname, hnames], fun name => ?_⟩
      rw [Corpus.itemsOf_cons, declarations_cons, hname]
      split
      next heq => rw [hlines, heq]
      next => exact hitems name

end Ini

namespace Corpus

open Ini

variable {o : LoadOptions} {text file : String} {c : Corpus}

/-- What can be read has no line outside a section, the names that its headers give it
and that are accepted, and the items of its lines. -/
theorem parse_spec (h : Corpus.parse text file o = .ok c) :
    Headed none (rows text) ∧ c.names = ((headers (rows text)).filter o.accepts).eraseDups ∧
      ∀ name, o.accepts name = true →
        (c.itemsOf name).map some = (declared text name).map (item? o name) := by
  unfold Corpus.parse at h
  cases hread : Ini.sections text file with
  | error e =>
      rw [hread] at h
      cases h
  | ok sections =>
      simp only [hread, bind, Except.bind] at h
      split at h
      next => cases h
      next intents hintents =>
        cases h
        have hheaded := headed_of_sections hread
        obtain ⟨sections', hread', hnames, hdeclared⟩ := sections_spec hheaded file
        obtain rfl := Except.ok.inj (hread.symm.trans hread')
        obtain ⟨hnames', hitems⟩ := itemsOf_of_mapM_toIntent hintents
        refine ⟨hheaded, ?_, fun name hname => ?_⟩
        · rw [← filter_eraseDups, ← hnames, List.filter_map]
          exact hnames'
        · rw [hitems, declarations_filter hname, hdeclared]

/-- A text is read if no line stands outside a section and every line of an accepted
section can be. -/
theorem exists_parse (hheaded : Headed none (rows text))
    (hitems : ∀ name, o.accepts name = true → ∀ d ∈ declared text name,
      item? o name d ≠ none) (file : String) : ∃ c, Corpus.parse text file o = .ok c := by
  obtain ⟨sections, hread, hnames, hdeclared⟩ := sections_spec hheaded file
  have hnodup : (sections.map Section.name).Nodup := hnames ▸ nodup_eraseDups _
  have hintents : ∀ s ∈ sections.filter (fun s => o.accepts s.name),
      ∃ intent, s.toIntent o file = .ok intent := by
    intro s hs
    obtain ⟨hs, haccepts⟩ := List.mem_filter.mp hs
    have hlines : declarations sections s.name = s.entries.map Entry.declaration := by
      rw [declarations, find?_key_of_mem hnodup hs, Option.elim_some]
    obtain ⟨items, hmapM⟩ : ∃ items, s.entries.mapM (Entry.item o file s.name) = .ok items := by
      refine exists_mapM_eq_ok fun e he => ?_
      have hmem : e.declaration ∈ declared text s.name := by
        rw [← hdeclared, hlines]
        exact List.mem_map_of_mem he
      obtain ⟨item, hitem⟩ := Option.ne_none_iff_exists'.mp (hitems s.name haccepts _ hmem)
      exact ⟨item, item_eq_ok_iff.mpr hitem⟩
    exact ⟨⟨s.name, items⟩, by rw [Section.toIntent, hmapM]; rfl⟩
  obtain ⟨intents, hmapM⟩ := exists_mapM_eq_ok hintents
  refine ⟨⟨intents⟩, ?_⟩
  simp only [Corpus.parse, hread, hmapM, bind, Except.bind, pure, Except.pure]

theorem item_ne_none (h : Corpus.parse text file o = .ok c) {name : String}
    (hname : o.accepts name = true) : ∀ d ∈ declared text name, item? o name d ≠ none := by
  intro d hd hnone
  have hmem := List.mem_map_of_mem (f := item? o name) hd
  rw [← (parse_spec h).2.2 name hname, hnone, List.mem_map] at hmem
  obtain ⟨item, -, hitem⟩ := hmem
  cases hitem

/-! ## Two texts -/

theorem nodup_names (h : Corpus.parse text file o = .ok c) : c.names.Nodup :=
  (parse_spec h).2.1 ▸ nodup_eraseDups _

theorem not_mem_names (h : Corpus.parse text file o = .ok c) {name : String}
    (hname : o.accepts name ≠ true) : name ∉ c.names := by
  intro hmem
  rw [(parse_spec h).2.1, List.mem_eraseDups, List.mem_filter] at hmem
  exact hname hmem.2

section

variable {t₁ t₂ f₁ f₂ : String} {c₁ c₂ : Corpus}
  (h₁ : Corpus.parse t₁ f₁ o = .ok c₁) (h₂ : Corpus.parse t₂ f₂ o = .ok c₂)
  (hend : t₁.toList.getLast? = some '\n')

include h₁ h₂ hend

theorem exists_parse_append (file : String) : ∃ c, Corpus.parse (t₁ ++ t₂) file o = .ok c := by
  obtain ⟨hheaded₁, -, -⟩ := parse_spec h₁
  obtain ⟨hheaded₂, -, -⟩ := parse_spec h₂
  have hheaded : Headed none (rows (t₁ ++ t₂)) := by
    rw [rows_append hend]
    exact headed_append hheaded₁ hheaded₂
  refine exists_parse hheaded (fun name hname d hd => ?_) file
  rw [declared_append hend hheaded₂] at hd
  rcases mem_overlay hd with hd | hd
  · exact item_ne_none h₁ hname d hd
  · exact item_ne_none h₂ hname d hd

variable (hc : Corpus.parse (t₁ ++ t₂) file o = .ok c)

include hc

theorem names_parse_append : c.names = (c₁.merge c₂).names := by
  obtain ⟨-, hnames₁, -⟩ := parse_spec h₁
  obtain ⟨-, hnames₂, -⟩ := parse_spec h₂
  obtain ⟨-, hnames, -⟩ := parse_spec hc
  rw [hnames, names_merge, foldl_appendNew (nodup_names h₁), hnames₁, hnames₂,
    eraseDups_append_eraseDups, rows_append hend, headers_append, List.filter_append]

omit h₁ in
theorem itemsOf_parse_append {name : String} (hname : o.accepts name = true) :
    (c.itemsOf name).map some =
      (overlay (declared t₁ name) (declared t₂ name)).map (item? o name) := by
  rw [(parse_spec hc).2.2 name hname, declared_append hend (parse_spec h₂).1]

/-- In an accepted section nothing is replaced just if merging gives the same items. -/
theorem itemsOf_parse_append_eq_iff {name : String} (hname : o.accepts name = true) :
    c.itemsOf name = c₁.itemsOf name ++ c₂.itemsOf name ↔
      ((declared t₁ name).map Prod.fst).Disjoint ((declared t₂ name).map Prod.fst) := by
  have hitems := itemsOf_parse_append h₂ hend hc hname
  have hitems₁ := (parse_spec h₁).2.2 name hname
  have hitems₂ := (parse_spec h₂).2.2 name hname
  constructor
  · -- as many items as there are lines in both texts, so that no line was replaced
    intro heq
    have hcount := congrArg List.length hitems
    have hcount₁ := congrArg List.length hitems₁
    have hcount₂ := congrArg List.length hitems₂
    simp only [List.length_map] at hcount hcount₁ hcount₂
    refine disjoint_of_length_overlay ?_
    rw [← hcount, ← hcount₁, ← hcount₂, heq, List.length_append]
  · intro hdisjoint
    refine List.map_injective_iff.mpr (Option.some_injective _) ?_
    rw [hitems, overlay_of_disjoint hdisjoint, List.map_append, List.map_append, hitems₁, hitems₂]

theorem eq_merge_iff : c = c₁.merge c₂ ↔ ∀ name, o.accepts name = true →
    ((declared t₁ name).map Prod.fst).Disjoint ((declared t₂ name).map Prod.fst) := by
  have hmerge := itemsOf_merge (nodup_names h₂) c₁
  have hsame := names_parse_append h₁ h₂ hend hc
  constructor
  · intro heq name hname
    rw [← itemsOf_parse_append_eq_iff h₁ h₂ hend hc hname, heq, hmerge]
  · intro hdisjoint
    refine eq_of_itemsOf (nodup_names hc) hsame fun name => ?_
    by_cases hname : o.accepts name = true
    · rw [hmerge, itemsOf_parse_append_eq_iff h₁ h₂ hend hc hname]
      exact hdisjoint name hname
    · have hnone := not_mem_names hc hname
      rw [itemsOf_of_not_mem hnone, itemsOf_of_not_mem (hsame ▸ hnone)]

end

/-- The second of two texts that can be read follows the first one, which ends in a
line feed.  Together they can be read, with the same sections as the merged corpora.
In a section stand the items of the lines of the second text laid over those of the
first; merging lists the items of the first and then those of the second.  So the
corpora are equal just if no accepted section has a line with the same key in both. -/
theorem parse_append {t₁ t₂ f₁ f₂ : String} {c₁ c₂ : Corpus}
    (h₁ : Corpus.parse t₁ f₁ o = .ok c₁) (h₂ : Corpus.parse t₂ f₂ o = .ok c₂)
    (hend : t₁.toList.getLast? = some '\n') (file : String) :
    ∃ c, Corpus.parse (t₁ ++ t₂) file o = .ok c ∧ c.names = (c₁.merge c₂).names ∧
      (({} : Corpus).merge c₁).merge c₂ = c₁.merge c₂ ∧
      (∀ name, o.accepts name = true →
        (c₁.itemsOf name).map some = (declared t₁ name).map (item? o name) ∧
        (c₂.itemsOf name).map some = (declared t₂ name).map (item? o name) ∧
        (c.itemsOf name).map some =
          (overlay (declared t₁ name) (declared t₂ name)).map (item? o name) ∧
        (c₁.merge c₂).itemsOf name = c₁.itemsOf name ++ c₂.itemsOf name) ∧
      (c = c₁.merge c₂ ↔ ∀ name, o.accepts name = true →
        ((declared t₁ name).map Prod.fst).Disjoint ((declared t₂ name).map Prod.fst)) := by
  obtain ⟨c, hc⟩ := exists_parse_append h₁ h₂ hend file
  refine ⟨c, hc, names_parse_append h₁ h₂ hend hc, by rw [empty_merge (nodup_names h₁)],
    fun name hname => ⟨(parse_spec h₁).2.2 name hname, (parse_spec h₂).2.2 name hname,
      itemsOf_parse_append h₂ hend hc hname, itemsOf_merge (nodup_names h₂) c₁ name⟩,
    eq_merge_iff h₁ h₂ hend hc⟩

end Corpus

/-- Two intents, the first one with a rule. -/
def lampText : String := "[Lamp]\ncolour = red\nset the lamp\n[Stop]\nhalt\n"

/-- The same intents the other way round, and the rule again. -/
def moreLampText : String := "[Stop]\nwait\n[Lamp]\ncolour = blue\ndim the lamp\n"

theorem exists_parse_of_isSome {text file : String}
    (h : (Corpus.parse text file).toOption.isSome = true) :
    ∃ c, Corpus.parse text file = .ok c := by
  cases hparse : Corpus.parse text file with
  | ok c => exact ⟨c, rfl⟩
  | error e => simp [hparse, Except.toOption] at h

/-- The rule stands where it was first and has its latest body; merging keeps both. -/
theorem parse_lampText_moreLampText :
    ∃ c₁ c₂ c, Corpus.parse lampText "lamp.ini" = .ok c₁ ∧
      Corpus.parse moreLampText "more.ini" = .ok c₂ ∧ lampText.toList.getLast? = some '\n' ∧
      Corpus.parse (lampText ++ moreLampText) "lamps.ini" = .ok c ∧
      c.names = (c₁.merge c₂).names ∧ c ≠ c₁.merge c₂ ∧
      (c.itemsOf "Lamp").map some = [("colour", some "blue"), ("set the lamp", none),
        ("dim the lamp", none)].map (Ini.item? {} "Lamp") ∧
      ((c₁.merge c₂).itemsOf "Lamp").map some = [("colour", some "red"), ("set the lamp", none),
        ("colour", some "blue"), ("dim the lamp", none)].map (Ini.item? {} "Lamp") := by
  have hfirst : Ini.declared lampText "Lamp" =
      [("colour", some "red"), ("set the lamp", none)] := by decide
  have hsecond : Ini.declared moreLampText "Lamp" =
      [("colour", some "blue"), ("dim the lamp", none)] := by decide
  have hend : lampText.toList.getLast? = some '\n' := by decide
  obtain ⟨c₁, h₁⟩ := exists_parse_of_isSome
    (by decide +kernel : (Corpus.parse lampText "lamp.ini").toOption.isSome = true)
  obtain ⟨c₂, h₂⟩ := exists_parse_of_isSome
    (by decide +kernel : (Corpus.parse moreLampText "more.ini").toOption.isSome = true)
  obtain ⟨c, hc, hnames, -, hitems, hiff⟩ := Corpus.parse_append h₁ h₂ hend "lamps.ini"
  obtain ⟨hitems₁, hitems₂, hitems, hmerge⟩ := hitems "Lamp" rfl
  refine ⟨c₁, c₂, c, h₁, h₂, hend, hc, hnames, fun heq => ?_, ?_, ?_⟩
  · have hdisjoint := hiff.mp heq "Lamp" rfl
    rw [hfirst, hsecond] at hdisjoint
    exact hdisjoint List.mem_cons_self List.mem_cons_self
  · rw [hitems, hfirst, hsecond]
    rfl
  · rw [hmerge, List.map_append, hitems₁, hitems₂, hfirst, hsecond]
    rfl

/-- A sentence that stands in two texts is one item if they are read together, and two
if they are merged. -/
theorem hello_twice_ne_merge :
    ∃ c₁ c, Corpus.parse "[A]\nhello\n" "a.ini" = .ok c₁ ∧
      Corpus.parse ("[A]\nhello\n" ++ "[A]\nhello\n") "a.ini" = .ok c ∧ c ≠ c₁.merge c₁ := by
  obtain ⟨c₁, h₁⟩ := exists_parse_of_isSome
    (by decide +kernel : (Corpus.parse "[A]\nhello\n" "a.ini").toOption.isSome = true)
  obtain ⟨c, hc⟩ := exists_parse_of_isSome (by decide +kernel :
    (Corpus.parse ("[A]\nhello\n" ++ "[A]\nhello\n") "a.ini").toOption.isSome = true)
  have hone := congrArg List.length ((Corpus.parse_spec h₁).2.2 "A" rfl)
  have hboth := congrArg List.length ((Corpus.parse_spec hc).2.2 "A" rfl)
  have hdeclared : (Ini.declared "[A]\nhello\n" "A").length = 1 := by decide
  have hdeclared' : (Ini.declared ("[A]\nhello\n" ++ "[A]\nhello\n") "A").length = 1 := by
    decide
  refine ⟨c₁, c, h₁, hc, fun heq => ?_⟩
  have hmerge := congrArg List.length (Corpus.itemsOf_merge (Corpus.nodup_names h₁) c₁ "A")
  rw [← heq, List.length_append] at hmerge
  simp only [List.length_map] at hone hboth
  omega

end Utterance
