import Utterance.Proofs.Compile.Heads
import Utterance.Proofs.Template.Parts
import Utterance.Proofs.Template.Trees
import Utterance.Template.Rule

/-!
# References and the names of rules

While a template is read, expressions are put into one another and references are not made
up or changed (`readerKeeps_allRefs`): every reference in the trees was read by `readRule`
somewhere in the text.  So what is true of all its results is true of all references
(`Sentence.parse_yields`).

A reference to a name without dot and backslash is one to the rule of that name, in the
grammar that the template is read for (`Sentence.refs_name`).  A rule has the name that
stands between its brackets (`Rule.name_of_parse`).
-/

namespace Utterance

/-! ## References in trees -/

namespace Expr

variable {P : RuleRef → Prop}

/-- All references to rules in the tree have the property. -/
def AllRefs (P : RuleRef → Prop) (e : Expr) : Prop := ∀ ref tag, .rule ref tag ∈ e.nodes → P ref

theorem allRefs_word (text : String) (suffix : Suffix) (tag : Option Tag) :
    (word text suffix tag).AllRefs P := by
  simp [AllRefs, nodes]

theorem allRefs_slot (text name : String) (suffix : Suffix) (tag : Option Tag) :
    (slot text name suffix tag).AllRefs P := by
  simp [AllRefs, nodes]

theorem allRefs_rule_iff {ref : RuleRef} {tag : Option Tag} : (rule ref tag).AllRefs P ↔ P ref := by
  simp [AllRefs, nodes]

theorem allRefs_seq_iff {kind : SequenceKind} {text : String} {items : List Expr} {suffix : Suffix}
    {tag : Option Tag} : (seq kind text items suffix tag).AllRefs P ↔ ∀ e ∈ items, e.AllRefs P := by
  simp only [AllRefs, nodes, nodesOf_eq_flatMap, List.mem_cons, List.mem_flatMap, reduceCtorEq,
    false_or]
  constructor
  · intro h e he ref tag hmem
    exact h ref tag ⟨e, he, hmem⟩
  · rintro h ref tag ⟨e, he, hmem⟩
    exact h e he ref tag hmem

theorem AllRefs.withTag {e : Expr} (h : e.AllRefs P) (t : Tag) : (e.withTag t).AllRefs P := by
  cases e with
  | word text suffix tag => exact allRefs_word _ _ _
  | seq kind text items suffix tag => exact allRefs_seq_iff.mpr (allRefs_seq_iff.mp h)
  | rule ref tag => exact allRefs_rule_iff.mpr (allRefs_rule_iff.mp h)
  | slot text name suffix tag => exact allRefs_slot _ _ _ _

end Expr

namespace Template

open Utterance.Except (Yields yields_ok yields_error)

/-! ## Reading -/

variable {P : RuleRef → Prop} {grammar : Option String}

theorem tokenExpr_yields (l : List Glyph) : Yields (Expr.AllRefs P) (tokenExpr l) := by
  cases l with
  | nil => exact yields_ok (Expr.allRefs_word _ _ _)
  | cons first rest =>
      rw [tokenExpr]
      split
      split
      · split
        · exact yields_error _
        · exact yields_ok (Expr.allRefs_slot _ _ _ _)
      · split
        · exact yields_error _
        · exact yields_ok (Expr.allRefs_word _ _ _)

/-- References are neither made up nor changed when trees are put together. -/
theorem readerKeeps_allRefs
    (hread : ∀ pos cs, Yields (fun r => r.1.AllRefs P) (readRule grammar pos cs)) (text : List Char) :
    ReaderKeeps grammar text (Expr.AllRefs P) where
  token l _ := tokenExpr_yields l
  rule := hread
  withTag _ t h := h.withTag t
  seq _ _ _ _ h := Expr.allRefs_seq_iff.mpr h
  optional _ _ _ _ h := Expr.allRefs_seq_iff.mpr
    (List.forall_mem_append.mpr ⟨h, List.forall_mem_singleton.mpr (Expr.allRefs_word _ _ _)⟩)

end Template

open Template

theorem Sentence.parse_yields {P : RuleRef → Prop} {origin : Option Origin}
    (hread : ∀ pos cs, Except.Yields (fun r => r.1.AllRefs P)
      (readRule (origin.bind Origin.intent) pos cs)) (text : String) :
    Except.Yields (fun s => s.toExpr.AllRefs P) (Sentence.parse text origin) := fun s hs =>
  Expr.allRefs_seq_iff.mpr (Sentence.parse_yields_kept (readerKeeps_allRefs hread text.toList) s hs)

/-! ## References by a name alone -/

/-- A reference is read without its brackets, and no dot parts a grammar from the name. -/
theorem Template.readRule_name {name : String} (h : RefName name) (hdot : '.' ∉ name.toList)
    (grammar : Option String) (pos : Nat) (cs : List Char) :
    Except.Yields (fun r => r.1.AllRefs fun ref =>
      ref.text = "<" ++ name ++ ">" → ref = ⟨"<" ++ name ++ ">", name, grammar⟩)
      (readRule grammar pos cs) := by
  rw [readRule]
  split
  next => exact Except.yields_error _
  next rest hdrop =>
    dsimp only
    split
    · exact Except.yields_error _
    · split
      · exact Except.yields_error _
      · refine Except.yields_ok (Expr.allRefs_rule_iff.mpr fun htext => ?_)
        have hraw : List.takeWhile (· != '>') cs = name.toList := by
          have hchars := congrArg String.toList htext
          simpa using hchars
        simp only [hraw, unescape_eq_self h.not_escape, h.trimmed,
          Text.cutAtLast?_of_not_mem hdot] at htext ⊢
        rw [htext, String.ofList_toList]

/-- In a template for an intent, `<name>` is a reference to the rule of that name in the
intent's grammar. -/
theorem Sentence.refs_name {name : String} (h : RefName name) (hdot : '.' ∉ name.toList)
    {origin : Option Origin} {text : String} {s : Sentence}
    (hs : Sentence.parse text origin = .ok s) :
    s.toExpr.AllRefs fun ref => ref.text = "<" ++ name ++ ">" →
      ref = ⟨"<" ++ name ++ ">", name, origin.bind Origin.intent⟩ :=
  Sentence.parse_yields (readRule_name h hdot _) text s hs

/-! ## Names of rules -/

/-- An equals sign that is first behind blanks cannot stand behind a closing bracket. -/
theorem mem_of_dropWhile_eq_cons {cs rest body : List Char}
    (h : (cs ++ '>' :: rest).dropWhile Text.isBlank = '=' :: body) : '=' ∈ cs := by
  rw [List.dropWhile_append] at h
  split at h
  next => cases h
  next hne =>
    obtain ⟨c, more, hmore⟩ := List.exists_cons_of_ne_nil (mt List.isEmpty_iff.mpr hne)
    rw [hmore, List.cons_append, List.cons.injEq] at h
    rw [← h.1]
    exact (List.dropWhile_suffix Text.isBlank).subset (hmore ▸ List.mem_cons_self)

/-- The name in the text of a rule goes up to the only closing bracket before the equals sign. -/
theorem RuleText.name_of_cut? {key rest : List Char} {parts : RuleText} (hequals : '=' ∉ key)
    (h : RuleText.cut? ('<' :: (key ++ '>' :: rest)) = some parts) :
    key ≠ [] ∧ '>' ∉ key ∧ parts.name = Text.trim key := by
  have hpublic : Text.dropStart? "public".toList ('<' :: (key ++ '>' :: rest)) = none := by
    simp [Text.dropStart?]
  have hopen : ('<' :: (key ++ '>' :: rest)).dropWhile Text.isBlank =
      '<' :: (key ++ '>' :: rest) := rfl
  simp only [RuleText.cut?, hpublic, hopen, bind, Option.bind_eq_some_iff] at h
  obtain ⟨⟨name, more⟩, hcut, h⟩ := h
  obtain ⟨heq, hname⟩ := Text.cutAt?_eq_some_iff.mp hcut
  split at h
  next => cases h
  next hne =>
    split at h
    next body hbody =>
      obtain ⟨text, -, rfl⟩ := Option.map_eq_some_iff.mp h
      obtain rfl : key = name := by
        rcases List.append_eq_append_iff.mp heq with ⟨tail, rfl, htail⟩ | ⟨tail, rfl, htail⟩
        · cases tail with
          | nil => exact (List.append_nil key).symm
          | cons c tail =>
              rw [List.cons_append, List.cons.injEq] at htail
              simp [← htail.1] at hname
        · cases tail with
          | nil => exact List.append_nil name
          | cons c tail =>
              rw [List.cons_append, List.cons.injEq] at htail
              rw [htail.2] at hbody
              have hmem := mem_of_dropWhile_eq_cons hbody
              exact absurd (List.mem_append_right _ (List.mem_cons_of_mem _ hmem)) hequals
      exact ⟨by simpa using hne, hname, rfl⟩
    next => cases h

/-- A rule has the name that it is declared by, in which no closing bracket stands. -/
theorem Rule.name_of_parse {key value : String} {origin : Option Origin} {rule : Rule}
    (hkey : Text.trim key.toList = key.toList) (hequals : '=' ∉ key.toList)
    (h : Rule.parse ("<" ++ key ++ "> = (" ++ value ++ ");") origin = .ok rule) :
    rule.name = key ∧ key ≠ "" ∧ '>' ∉ key.toList := by
  have hchars : ("<" ++ key ++ "> = (" ++ value ++ ");").toList =
      ['<'] ++ (key.toList ++ '>' :: (" = (" ++ value ++ ")").toList) ++ [';'] := by
    simp
  have htext : Text.trim ("<" ++ key ++ "> = (" ++ value ++ ");").toList =
      '<' :: (key.toList ++ '>' :: ((" = (" ++ value ++ ")").toList ++ [';'])) := by
    rw [hchars, Text.trim_append rfl rfl (by simp) (by simp)]
    simp
  rw [Rule.parse, htext] at h
  split at h
  next => cases h
  next parts hcut =>
    obtain ⟨body, -, h⟩ := Except.bind_eq_ok_iff.mp h
    cases h
    obtain ⟨hne, hcloser, hname⟩ := RuleText.name_of_cut? hequals hcut
    refine ⟨?_, fun heq => hne (by simp [heq]), hcloser⟩
    rw [hname, hkey, String.ofList_toList]

end Utterance
