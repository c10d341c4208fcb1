import Mathlib.Data.List.Forall2
import Utterance.Proofs.Corpus.Resolving

/-!
# Which lines of a section are kept

The lines of a section are put into one list, a sentence under its text and a rule under its
name.  So the items of a section are what the last lines with these keys declare, each in the
place of the first line with its key (`Corpus.parse_keeps`).

A sentence that is written twice loses nothing by this, and a rule takes the last value that it
is given.  But sentences and rules have their keys in common: where the text of a sentence is
also the name of a rule, only the later one of the two is there (`Corpus.sentence_lost`).  All is
kept if no such lines stand in one section.
-/

namespace Utterance

section

variable {α β : Type} {R : α → β → Prop} {l : List α} {m : List β}

theorem exists_right_of_forall₂ (h : List.Forall₂ R l m) {a : α} (ha : a ∈ l) :
    ∃ b ∈ m, R a b := by
  induction h with
  | nil => cases ha
  | cons hab _ ih =>
      rcases List.mem_cons.mp ha with rfl | ha
      · exact ⟨_, List.mem_cons_self, hab⟩
      · obtain ⟨b, hb, hab⟩ := ih ha
        exact ⟨b, List.mem_cons_of_mem _ hb, hab⟩

theorem exists_left_of_forall₂ (h : List.Forall₂ R l m) {b : β} (hb : b ∈ m) : ∃ a ∈ l, R a b :=
  exists_right_of_forall₂ h.flip hb

end

theorem Sentence.text_of_parse {text : String} {origin : Option Origin} {s : Sentence}
    (h : Sentence.parse text origin = .ok s) : s.text = text := by
  rw [Sentence.parse] at h
  split at h
  · rw [← Except.ok.inj h]
  · cases h

theorem Rule.text_of_parse {text : String} {origin : Option Origin} {rule : Rule}
    (h : Rule.parse text origin = .ok rule) : rule.text = text := by
  rw [Rule.parse] at h
  split at h
  · cases h
  · obtain ⟨body, -, h⟩ := Except.bind_eq_ok_iff.mp h
    rw [← Except.ok.inj h]

namespace Ini

/-! ## What lines show -/

variable {o : LoadOptions} {lines : List Declaration} {items : List CorpusItem}

/-- The text of the rule that a line declares. -/
def ruleText (o : LoadOptions) (key value : String) : String :=
  "<" ++ key ++ "> = (" ++ o.transform (unescapeBracket value) ++ ");"

/-- The item is what the line declares. -/
def Shows (o : LoadOptions) (d : Declaration) : CorpusItem → Prop
  | .sentence s => d.2 = none ∧ s.text = o.transform (unescapeBracket d.1)
  | .rule rule => ∃ value, d.2 = some value ∧ rule.name = d.1 ∧ rule.text = ruleText o d.1 value

theorem shows_of_item {intent : String} {d : Declaration}
    (hkey : ∀ value, d.2 = some value → Key d.1) {item : CorpusItem}
    (h : item? o intent d = some item) : Shows o d item := by
  cases item with
  | sentence s =>
      obtain ⟨hnone, hparse⟩ := sentence_of_item h
      exact ⟨hnone, Sentence.text_of_parse hparse⟩
  | rule rule =>
      obtain ⟨value, hvalue, hparse⟩ := rule_of_item h
      have key := hkey value hvalue
      have hname := Rule.name_of_parse key.trimmed key.not_equals hparse
      exact ⟨value, hvalue, hname.1, Rule.text_of_parse hparse⟩

/-- Every sentence of the lines is there with its text, and every rule with the last value that
is given to it. -/
structure Keeps (o : LoadOptions) (lines : List Declaration) (items : List CorpusItem) : Prop where
  sentences : ∀ key, (key, none) ∈ lines →
    ∃ s, .sentence s ∈ items ∧ s.text = o.transform (unescapeBracket key)
  rules : ∀ before after key value, lines = before ++ (key, some value) :: after →
    (∀ later, (key, some later) ∉ after) →
    ∃ rule, .rule rule ∈ items ∧ rule.name = key ∧ rule.text = ruleText o key value

/-- A key that is given a value is given one last. -/
theorem exists_last_value {key value : String} (h : (key, some value) ∈ lines) :
    ∃ before after value, lines = before ++ (key, some value) :: after ∧
      ∀ later, (key, some later) ∉ after := by
  obtain ⟨⟨key', value'⟩, hmem, hkey⟩ :=
    exists_mem_latest (fun d : Declaration => (d.1, d.2.isSome)) h
  obtain ⟨before, after, hlines, hafter⟩ := mem_latest_iff.mp hmem
  obtain ⟨rfl, hsome⟩ := Prod.mk.inj hkey
  obtain ⟨last, rfl⟩ := Option.isSome_iff_exists.mp hsome
  refine ⟨before, after, last, hlines, fun later hlater => hafter ?_⟩
  exact List.mem_map.mpr ⟨_, hlater, rfl⟩

/-- If the last line with a key is a rule's, it has the last value that the key is given. -/
theorem mem_latest_of_last_value {before after : List Declaration} {key value : String}
    (hlines : lines = before ++ (key, some value) :: after)
    (hlast : ∀ later, (key, some later) ∉ after) (hrule : (key, none) ∉ latest Prod.fst lines) :
    (key, some value) ∈ latest Prod.fst lines := by
  refine mem_latest_iff.mpr ⟨before, after, hlines, fun hkey => ?_⟩
  obtain ⟨d, hd, hdkey⟩ := List.mem_map.mp hkey
  obtain ⟨⟨key', value'⟩, he, hekey⟩ := exists_mem_latest Prod.fst hd
  obtain rfl : key' = key := hekey.trans hdkey
  cases value' with
  | none =>
      refine hrule ?_
      rw [hlines, List.append_cons]
      exact mem_latest_append_right he
  | some later => exact hlast later (mem_of_mem_latest he)

/-- A sentence is there if some line with its text is the last one with its key, and a rule if
no sentence is the last line with its key. -/
theorem keeps_iff (h : List.Forall₂ (Shows o) (latest Prod.fst lines) items) :
    Keeps o lines items ↔
      (∀ key, (key, none) ∈ lines →
        ∃ key', o.transform (unescapeBracket key') = o.transform (unescapeBracket key) ∧
          (key', none) ∈ latest Prod.fst lines) ∧
      ∀ key value, (key, some value) ∈ lines → (key, none) ∉ latest Prod.fst lines := by
  constructor
  · intro hkeeps
    refine ⟨fun key hkey => ?_, fun key value hkey hnone => ?_⟩
    · obtain ⟨s, hs, htext⟩ := hkeeps.sentences key hkey
      obtain ⟨⟨key', _⟩, hd, rfl, htext'⟩ := exists_left_of_forall₂ h hs
      exact ⟨key', htext'.symm.trans htext, hd⟩
    · obtain ⟨before, after, last, hlines, hlast⟩ := exists_last_value hkey
      obtain ⟨rule, hrule, hname, -⟩ := hkeeps.rules before after key last hlines hlast
      obtain ⟨d, hd, value', hvalue, hname', -⟩ := exists_left_of_forall₂ h hrule
      have heq := eq_of_mem_latest hd hnone (hname'.symm.trans hname)
      rw [heq] at hvalue
      cases hvalue
  · rintro ⟨hsentences, hrules⟩
    refine ⟨fun key hkey => ?_, fun before after key value hlines hlast => ?_⟩
    · obtain ⟨key', htext, hd⟩ := hsentences key hkey
      obtain ⟨item, hitem, hshows⟩ := exists_right_of_forall₂ h hd
      cases item with
      | sentence s => exact ⟨s, hitem, hshows.2.trans htext⟩
      | rule rule =>
          obtain ⟨value, hvalue, -⟩ := hshows
          cases hvalue
    · have hmem : (key, some value) ∈ lines :=
        hlines ▸ List.mem_append_right _ List.mem_cons_self
      have hd := mem_latest_of_last_value hlines hlast (hrules key value hmem)
      obtain ⟨item, hitem, hshows⟩ := exists_right_of_forall₂ h hd
      cases item with
      | sentence s => cases hshows.1
      | rule rule =>
          obtain ⟨_, ⟨⟩, hname, htext⟩ := hshows
          exact ⟨rule, hitem, hname, htext⟩

/-- All is kept if no sentence has the name of a rule for its text. -/
theorem keeps_of_disjoint (h : List.Forall₂ (Shows o) (latest Prod.fst lines) items)
    (hdisjoint : ∀ key value, (key, none) ∈ lines → (key, some value) ∉ lines) :
    Keeps o lines items := by
  refine (keeps_iff h).mpr ⟨fun key hkey => ⟨key, rfl, ?_⟩, fun key value hkey hnone => ?_⟩
  · obtain ⟨⟨key', value⟩, hd, hkey'⟩ := exists_mem_latest Prod.fst hkey
    obtain rfl : key' = key := hkey'
    cases value with
    | none => exact hd
    | some value => exact absurd (mem_of_mem_latest hd) (hdisjoint key' value hkey)
  · exact hdisjoint key value (mem_of_mem_latest hnone) hkey

end Ini

namespace Corpus

open Ini

variable {o : LoadOptions} {text file name : String} {c : Corpus}

/-- The items of a section are what the last lines with their keys declare. -/
theorem forall₂_shows (h : Corpus.parse text file o = .ok c) (hname : o.accepts name = true) :
    List.Forall₂ (Shows o) (latest Prod.fst (written text name)) (c.itemsOf name) := by
  have hitems := (parse_spec h).2.2 name hname
  rw [declared_eq_latest] at hitems
  have hall : List.Forall₂ Eq ((latest Prod.fst (written text name)).map (item? o name))
      ((c.itemsOf name).map some) := by rw [List.forall₂_eq_eq_eq, hitems]
  have hkeys : ∀ d ∈ latest Prod.fst (written text name), ∀ value, d.2 = some value → Key d.1 := by
    rintro ⟨key, _⟩ hd value rfl
    exact key_of_mem_declaredIn (mem_of_mem_latest hd)
  rw [List.forall₂_map_left_iff, List.forall₂_map_right_iff] at hall
  exact ((List.forall₂_and_left _ _).mpr ⟨hkeys, hall⟩).imp fun d item hd =>
    shows_of_item hd.1 hd.2

/-- The items of a section are, in order, what the last lines with their keys declare.  All
sentences and rules of its lines are there exactly if every sentence has its text in a line that
is the last one with its key, and no key of a rule has a sentence for its last line; so nothing
is lost if no sentence stands beside a rule that has its text for a name. -/
theorem parse_keeps (h : Corpus.parse text file o = .ok c) (hname : o.accepts name = true) :
    List.Forall₂ (Shows o) (latest Prod.fst (written text name)) (c.itemsOf name) ∧
      (Keeps o (written text name) (c.itemsOf name) ↔
        (∀ key, (key, none) ∈ written text name →
          ∃ key', o.transform (unescapeBracket key') = o.transform (unescapeBracket key) ∧
            (key', none) ∈ latest Prod.fst (written text name)) ∧
        ∀ key value, (key, some value) ∈ written text name →
          (key, none) ∉ latest Prod.fst (written text name)) ∧
      ((∀ key value, (key, none) ∈ written text name → (key, some value) ∉ written text name) →
        Keeps o (written text name) (c.itemsOf name)) :=
  ⟨forall₂_shows h hname, keeps_iff (forall₂_shows h hname),
    keeps_of_disjoint (forall₂_shows h hname)⟩

/-- Lines are repeated, and a section is continued after another one. -/
def repeatedText : String := "[A]\nx = one\nhello\nx = two\nhello\n[B]\nbye\n[A]\nagain\n"

def repeatedCorpus : Corpus :=
  ⟨[⟨"A", [.rule (wordRule "x" "two"), .sentence ⟨"hello", [.plain "hello"]⟩,
    .sentence ⟨"again", [.plain "again"]⟩]⟩, ⟨"B", [.sentence ⟨"bye", [.plain "bye"]⟩]⟩]⟩

theorem keeps_repeatedText :
    Corpus.parse repeatedText "t.ini" = .ok repeatedCorpus ∧
      written repeatedText "A" = [("x", some "one"), ("hello", none), ("x", some "two"),
        ("hello", none), ("again", none)] ∧
      Keeps {} (written repeatedText "A") (repeatedCorpus.itemsOf "A") := by
  have hparse : Corpus.parse repeatedText "t.ini" = .ok repeatedCorpus := by
    with_unfolding_all rfl
  have hwritten : written repeatedText "A" = [("x", some "one"), ("hello", none),
      ("x", some "two"), ("hello", none), ("again", none)] := by decide +kernel
  refine ⟨hparse, hwritten, (parse_keeps hparse rfl).2.2 fun key value hkey => ?_⟩
  have hsentence : key = "hello" ∨ key = "again" := by simpa [hwritten] using hkey
  rw [hwritten]
  rcases hsentence with rfl | rfl <;> simp

/-- A sentence and a rule have the same key. -/
def helloText : String := "[A]\nhello\nhello = world\n"

/-- The rule takes the place of the sentence. -/
theorem sentence_lost :
    Corpus.parse helloText "t.ini" = .ok ⟨[⟨"A", [.rule (wordRule "hello" "world")]⟩]⟩ ∧
      written helloText "A" = [("hello", none), ("hello", some "world")] ∧
      ¬Keeps {} (written helloText "A") [.rule (wordRule "hello" "world")] := by
  have hwritten : written helloText "A" = [("hello", none), ("hello", some "world")] := by
    decide
  refine ⟨by with_unfolding_all rfl, hwritten, fun hkeeps => ?_⟩
  obtain ⟨s, hs, -⟩ := hkeeps.sentences "hello" (hwritten ▸ List.mem_cons_self)
  cases List.mem_singleton.mp hs

end Corpus

end Utterance
