import Utterance.Proofs.Template.Culprits
import Utterance.Proofs.Template.Parts
import Utterance.Proofs.Template.Totals

/-!
# Where empty words come from

A word without text is heard at no cost, so a template should have one only where it says so,
in square brackets.  A token without a word before its marks is a fault, with one exception:
converters without names do not count, so a token of nothing but `!` is the empty word
(`tokenExpr_of_tokenHost_eq_nil`).

The words without text in what a text is parsed into are counted round by round
(`textless_moves`): there are as many as square brackets and such tokens.  If there is no such
token, all of them are the last choices of what stands in square brackets (`Expr.EmptyOnlyIn`).
-/

namespace Utterance

theorem Suffix.isEmpty_iff {s : Suffix} : s.isEmpty = true ↔ s = {} := by
  obtain ⟨substitution?, converters⟩ := s
  simp [Suffix.isEmpty]

/-! ## Words without text -/

namespace Expr

/-- A word without text. -/
def isTextless : Expr → Bool
  | word t _ _ => t.isEmpty
  | _ => false

/-- The number of words without text in a tree. -/
def textless (e : Expr) : Nat := e.nodes.countP isTextless

/-- All words in the tree have a text, but for the last choices of alternatives that were written
as one of the texts `squares` in square brackets. -/
inductive EmptyOnlyIn (squares : List (List Char)) : Expr → Prop where
  | word {t s g} (ht : t ≠ "") : EmptyOnlyIn squares (word t s g)
  | slot {x n s g} : EmptyOnlyIn squares (slot x n s g)
  | rule {r g} : EmptyOnlyIn squares (rule r g)
  | seq {kind x items s g} (hitems : ∀ e ∈ items, EmptyOnlyIn squares e) :
      EmptyOnlyIn squares (seq kind x items s g)
  | optional {inner items s g} (hinner : inner ∈ squares)
      (hitems : ∀ e ∈ items, EmptyOnlyIn squares e) :
      EmptyOnlyIn squares (seq .alternative (Template.sourceText inner) (items ++ [emptyWord]) s g)

theorem EmptyOnlyIn.withTag {squares : List (List Char)} {e : Expr} (h : e.EmptyOnlyIn squares)
    (t : Tag) : (e.withTag t).EmptyOnlyIn squares := by
  cases h with
  | word ht => exact .word ht
  | slot => exact .slot
  | rule => exact .rule
  | seq hitems => exact .seq hitems
  | optional hinner hitems => exact .optional hinner hitems

theorem textless_word (t : String) (s : Suffix) (g : Option Tag) :
    (word t s g).textless = t.isEmpty.toNat := by
  cases h : t.isEmpty <;> simp [textless, nodes, isTextless, h]

@[simp] theorem textless_emptyWord : emptyWord.textless = 1 := rfl

@[simp] theorem textless_slot (x n : String) (s : Suffix) (g : Option Tag) :
    (slot x n s g).textless = 0 := rfl

@[simp] theorem textless_rule (r : RuleRef) (g : Option Tag) : (rule r g).textless = 0 := rfl

@[simp] theorem textless_seq (k : SequenceKind) (x : String) (items : List Expr) (s : Suffix)
    (g : Option Tag) : (seq k x items s g).textless = (items.map textless).sum := by
  rw [textless, nodes, List.countP_cons_of_neg Bool.false_ne_true, nodesOf_eq_flatMap,
    List.countP_flatMap]
  rfl

@[simp] theorem textless_withTag (e : Expr) (t : Tag) : (e.withTag t).textless = e.textless := by
  cases e <;> simp [withTag, textless_word]

end Expr

namespace Template

open Utterance.Except (Yields yields_ok yields_error)

/-! ## Tokens without a word -/

/-- Nothing but marks of converters. -/
def isBare (l : List Glyph) : Bool := l.all (·.marks '!')

theorem isBare_iff {l : List Glyph} : isBare l = true ↔ ∀ g ∈ l, g.marks '!' = true :=
  List.all_eq_true

/-- Marks without a word are no suffix exactly when none of them names anything. -/
theorem cutSuffix_eq_empty_iff {l : List Glyph} (h : tokenHost l = []) :
    (cutSuffix l).2 = {} ↔ isBare l = true := by
  rw [← Suffix.isEmpty_iff]
  cases l with
  | nil => exact ⟨fun _ => rfl, fun _ => rfl⟩
  | cons first rest =>
      rw [isBare_iff, ← Text.filter_splitAt_eq_nil_iff]
      cases hbang : first.marks '!' with
      | true => simp [cutSuffix, Suffix.isEmpty, hbang]
      | false =>
          have hcolon := (tokenHost_cons_eq_nil_iff.mp h).resolve_right (by simp [hbang])
          have hsplit : (Text.splitAt (·.marks '!') (first :: rest)).filter (!·.isEmpty) = [] ↔ _ :=
            Text.filter_splitAt_eq_nil_iff
          simp [cutSuffix, Suffix.isEmpty, hbang, hcolon, hsplit]

/-- A token without a word is a fault, unless it is bare, and then it is the empty word. -/
theorem tokenExpr_of_tokenHost_eq_nil {l : List Glyph} (h : tokenHost l = []) :
    isBare l = true ∧ tokenExpr l = .ok Expr.emptyWord ∨
      isBare l = false ∧ ∃ pos, tokenExpr l = .error ⟨.suffixAlone, pos⟩ := by
  cases l with
  | nil => exact .inl ⟨rfl, rfl⟩
  | cons first rest =>
      have hslot : first.marks '$' = false := by
        rcases tokenHost_cons_eq_nil_iff.mp h with hmark | hmark
        · exact Glyph.marks_of_marks hmark (by decide)
        · exact Glyph.marks_of_marks hmark (by decide)
      have hempty := cutSuffix_eq_empty_iff h
      rw [← cutSuffix_fst] at h
      cases hbare : isBare (first :: rest) with
      | true =>
          refine .inl ⟨rfl, ?_⟩
          simp [tokenExpr, hslot, h, hempty.mpr hbare, Suffix.isEmpty, charsOf, Expr.emptyWord,
            Expr.plain]
      | false =>
          refine .inr ⟨rfl, first.pos, ?_⟩
          have hsuffix : (cutSuffix (first :: rest)).2.isEmpty = false := by
            rw [Bool.eq_false_iff, Ne, Suffix.isEmpty_iff, hempty, hbare]
            exact Bool.false_ne_true
          simp [tokenExpr, hslot, h, hsuffix]

/-- A token is a slot or a word with a text, unless it is bare. -/
theorem tokenExpr_eq_ok {l : List Glyph} {e : Expr} (h : tokenExpr l = .ok e) :
    isBare l = true ∧ e = Expr.emptyWord ∨
      isBare l = false ∧ ((∃ t s, t ≠ "" ∧ e = .word t s none) ∨ ∃ x n s, e = .slot x n s none) := by
  by_cases hhost : tokenHost l = []
  · obtain ⟨hbare, hok⟩ | ⟨-, pos, herror⟩ := tokenExpr_of_tokenHost_eq_nil hhost
    · rw [hok] at h
      cases h
      exact .inl ⟨hbare, rfl⟩
    · rw [herror] at h
      cases h
  · cases l with
    | nil => exact absurd rfl hhost
    | cons first rest =>
        have hbare : isBare (first :: rest) = false := by
          rw [tokenHost_cons_eq_nil_iff, not_or, Bool.not_eq_true, Bool.not_eq_true] at hhost
          simp [isBare, hhost.2]
        refine .inr ⟨hbare, ?_⟩
        rw [tokenExpr] at h
        dsimp only at h
        split_ifs at h with hslot hempty hsuffix
        · cases h
          exact .inr ⟨_, _, _, rfl⟩
        · cases h
          refine .inl ⟨_, _, ?_, rfl⟩
          rw [cutSuffix_fst, Ne, String.ofList_eq_empty_iff]
          exact fun hchars => hhost (List.map_eq_nil_iff.mp hchars)

theorem textless_of_tokenExpr_eq_ok {l : List Glyph} {e : Expr} (h : tokenExpr l = .ok e) :
    e.textless = (isBare l).toNat := by
  obtain ⟨hbare, rfl⟩ | ⟨hbare, ⟨t, s, ht, rfl⟩ | ⟨x, n, s, rfl⟩⟩ := tokenExpr_eq_ok h
  · rw [hbare]
    rfl
  · rw [hbare, Expr.textless_word, Bool.eq_false_iff.mpr (mt String.isEmpty_iff.mp ht)]
  · rw [hbare]
    rfl

variable {grammar : Option String} {text : List Char}

theorem exists_eq_rule_of_readRule {pos : Nat} {cs : List Char} {e : Expr} {n : Nat}
    (h : readRule grammar pos cs = .ok (e, n)) : ∃ ref, e = .rule ref none := by
  rw [readRule] at h
  split at h
  · cases h
  · dsimp only at h
    split_ifs at h
    cases h
    exact ⟨_, rfl⟩

/-! ## Counting -/

theorem countP_eq_sum_toNat {α : Type} (p : α → Bool) (l : List α) :
    l.countP p = (l.map fun a => (p a).toNat).sum := by
  induction l with
  | nil => rfl
  | cons a l ih =>
      rw [List.countP_cons, List.map_cons, List.sum_cons, ih, Nat.add_comm]
      cases p a <;> rfl

theorem addsUp_textless : AddsUp Expr.textless :=
  fun _ _ _ _ => Expr.textless_seq _ _ _ _ _

theorem Level.textless_tagLast {t : Tag} {l tagged : Level} (h : l.tagLast? t = some tagged) :
    tagged.total Expr.textless = l.total Expr.textless := by
  cases hcurrent : l.current with
  | nil => simp [tagLast?, hcurrent] at h
  | cons e es =>
      rw [tagLast?, hcurrent] at h
      obtain rfl := Option.some.inj h
      simp [total, hcurrent]

namespace Reading

variable {r r' : Reading}

/-- The words without text that come of this round: a closed square bracket, and bare tokens. -/
def textlessAdded (r : Reading) : Nat := r.squares.length + r.tokens.countP isBare

theorem textless_of_flush (hflushes : r.flushes = true) {base : Level}
    (h : r.level.flush r.pending = .ok base) :
    base.total Expr.textless = r.level.total Expr.textless + r.tokens.countP isBare := by
  rw [Level.total_flush (fun _ _ => textless_of_tokenExpr_eq_ok) hflushes h, countP_eq_sum_toNat]

theorem textlessAdded_of_waits (h : r.flushes = false) : r.textlessAdded = 0 := by
  have hsquares : r.squares = [] := by
    obtain ⟨pos, cs, frames, level, pending⟩ := r
    cases cs with
    | nil => rfl
    | cons c rest =>
        refine squares_eq_nil ?_
        rintro rfl
        cases h
  simp [textlessAdded, tokens, h, hsquares]

/-- Every round but the last adds what comes of it. -/
theorem textless_moves (h : Moves grammar r r') :
    r'.total Expr.textless = r.total Expr.textless + r.textlessAdded := by
  have hbase (hflushes : r.flushes = true) {base : Level}
      (hflush : r.level.flush r.pending = .ok base) := textless_of_flush hflushes hflush
  cases h with
  | wait _ _ hwaits => exact (textlessAdded_of_waits hwaits).symm ▸ rfl
  | @opening pos rest frames level pending base b hflush =>
      have hbase := hbase (flushes_opener b pos rest frames level pending) hflush
      rw [textlessAdded, squares_eq_nil (by cases b <;> decide)]
      simp only [total, List.map_cons, List.sum_cons, hbase, Level.total_empty, List.length_nil]
      omega
  | @closing pos rest f frames level pending base kind items suffix n hflush hitems hsuffix =>
      have hbase := hbase (flushes_closer f.bracket pos rest (f :: frames) level pending) hflush
      have hsequence := Level.total_push_sequence addsUp_textless (Bracket.sequences hitems)
      have hsquares : (squares ⟨pos, f.bracket.closer :: rest, f :: frames, level, pending⟩).length =
          if f.bracket = .square then Expr.emptyWord.textless else 0 := by
        rw [squares_closer]
        split <;> rfl
      simp only [total, textlessAdded, hsquares, List.map_cons, List.sum_cons, hsequence, hbase]
      omega
  | @rule pos rest frames level pending base e n hflush hread =>
      obtain ⟨ref, rfl⟩ := exists_eq_rule_of_readRule hread
      rw [textlessAdded, squares_eq_nil (by decide)]
      simp only [total, Level.total_push, Expr.textless_rule, List.length_nil, hbase rfl hflush]
      omega
  | tag hflush hread htag =>
      rw [textlessAdded, squares_eq_nil (by decide)]
      simp only [total, Level.textless_tagLast htag, List.length_nil, hbase rfl hflush]
      omega
  | bar hflush =>
      rw [textlessAdded, squares_eq_nil (by decide)]
      simp only [total, Level.total_nextBranch, List.length_nil, hbase rfl hflush]
      omega

theorem textless_ends {branches : List (List Expr)} (h : Ends r branches) :
    sumOf Expr.textless branches = r.total Expr.textless + r.textlessAdded := by
  cases h with
  | @flush pos level pending base hflush =>
      have hflushes : flushes ⟨pos, [], [], level, pending⟩ = true := rfl
      rw [Level.sumOf_branches, textless_of_flush hflushes hflush, textlessAdded, squares,
        List.length_nil, Nat.zero_add]
      rfl

end Reading

/-- There are as many words without text as square brackets and bare tokens. -/
theorem textless_of_readItems {items : List Expr} (h : readItems grammar text = .ok items) :
    (items.map Expr.textless).sum =
      (squaresOf grammar text).length + (readTokens grammar text).countP isBare := by
  obtain ⟨branches, hread, hsum⟩ := addsUp_textless.sum_map_of_readItems h
  rw [hsum, Reading.sum_run (sumOf Expr.textless)
    (fun _ _ h => Reading.textless_moves (Reading.moves_of_step h))
    (fun _ _ => Reading.textless_ends) hread, Reading.total_start, Nat.zero_add, squaresOf, readTokens,
    List.length_flatMap, List.countP_flatMap, ← List.sum_map_add]
  rfl

/-! ## Empty words in their places -/

/-- Without bare tokens, trees whose empty words are in square brackets are put together from such
trees. -/
theorem readerKeeps_emptyOnlyIn (h : ∀ l ∈ readTokens grammar text, isBare l = false) :
    ReaderKeeps grammar text (Expr.EmptyOnlyIn (squaresOf grammar text)) where
  token l hl e he := by
    obtain ⟨hbare, -⟩ | ⟨-, ⟨t, s, ht, rfl⟩ | ⟨x, n, s, rfl⟩⟩ := tokenExpr_eq_ok he
    · rw [h l hl] at hbare
      cases hbare
    · exact .word ht
    · exact .slot
  rule pos cs r hr := by
    obtain ⟨ref, href⟩ := exists_eq_rule_of_readRule hr
    exact href ▸ .rule
  withTag _ t he := he.withTag t
  seq _ _ _ _ hitems := .seq hitems
  optional _ hinner _ _ hitems := .optional hinner hitems

/-- What stands in square brackets stands there in the text. -/
theorem bracketed_of_mem_squaresOf {inner : List Char} (h : inner ∈ squaresOf grammar text) :
    ∃ before after, text = before ++ '[' :: inner ++ ']' :: after := by
  obtain ⟨r, hr, hinner⟩ := List.mem_flatMap.mp h
  have hinside := Reading.inside_of_mem_run hr
  obtain ⟨pos, cs, frames, level, pending⟩ := r
  rw [Reading.squares] at hinner
  split at hinner
  next rest opened more _ frames' hrest hframes =>
    obtain rfl : cs = ']' :: rest := hrest
    obtain rfl : frames = _ := hframes
    obtain ⟨hlt, hopener, hmore⟩ := hinside.frames _ List.mem_cons_self
    dsimp only at hlt hopener hmore
    obtain ⟨before, hbefore⟩ : ']' :: rest <:+ more := by
      have hstands := hinside.stands.drop_eq
      dsimp only at hstands
      rw [← hmore.drop_eq, ← hstands, show pos = opened + 1 + (pos - (opened + 1)) by omega,
        ← List.drop_drop]
      exact List.drop_suffix _ _
    obtain rfl : inner = before := by
      rw [List.mem_singleton] at hinner
      simp [hinner, ← hbefore]
    obtain ⟨hlength, hget⟩ := List.getElem?_eq_some_iff.mp hopener
    refine ⟨text.take opened, rest, ?_⟩
    rw [List.append_assoc, List.cons_append, hbefore, ← hmore.drop_eq]
    have hdrop := List.drop_eq_getElem_cons hlength
    rw [hget] at hdrop
    rw [show '[' = Bracket.square.opener from rfl, ← hdrop, List.take_append_drop]
  next => cases hinner

end Template

open Template

theorem Sentence.exists_error_of_token {text : String} {origin : Option Origin} {l : List Glyph}
    (hl : l ∈ readTokens (origin.bind Origin.intent) text.toList)
    (h : ∀ e, tokenExpr l ≠ .ok e) : ∃ e, Sentence.parse text origin = .error e := by
  cases hitems : readItems (origin.bind Origin.intent) text.toList with
  | error fault => exact ⟨_, by rw [Sentence.parse, hitems]⟩
  | ok items =>
      obtain ⟨r, hr, hl⟩ := List.mem_flatMap.mp hl
      obtain ⟨branches, hread, -⟩ := Except.bind_eq_ok_iff.mp hitems
      obtain ⟨e, he⟩ := Reading.exists_tokenExpr_eq_ok
        ((Reading.read_eq_of_mem_run r hr).trans hread) l hl
      exact absurd he (h e)

/-- A token without a word is bare, or the text is rejected.  In a text that is accepted there is
one word without text for every pair of square brackets and every bare token, and if no token is
bare, such words are the last choices of what stands in square brackets. -/
theorem Sentence.textless_of_parse (text : String) (origin : Option Origin) :
    (∀ l ∈ readTokens (origin.bind Origin.intent) text.toList, tokenHost l = [] →
      isBare l = true ∨ ∃ e, Sentence.parse text origin = .error e) ∧
    (∀ inner ∈ squaresOf (origin.bind Origin.intent) text.toList,
      ∃ before after, text.toList = before ++ '[' :: inner ++ ']' :: after) ∧
    ∀ s, Sentence.parse text origin = .ok s →
      s.toExpr.nodes.countP Expr.isTextless =
        (squaresOf (origin.bind Origin.intent) text.toList).length +
          (readTokens (origin.bind Origin.intent) text.toList).countP isBare ∧
      ((∀ l ∈ readTokens (origin.bind Origin.intent) text.toList, isBare l = false) →
        ∀ e ∈ s.items, e.EmptyOnlyIn (squaresOf (origin.bind Origin.intent) text.toList)) := by
  refine ⟨fun l hl hhost => ?_, fun inner => bracketed_of_mem_squaresOf,
    fun s hs => ⟨?_, fun hbare => ?_⟩⟩
  · obtain ⟨hbare, -⟩ | ⟨-, pos, herror⟩ := tokenExpr_of_tokenHost_eq_nil hhost
    · exact .inl hbare
    · exact .inr (exists_error_of_token hl (by simp [herror]))
  · have hcount : s.toExpr.textless = (s.items.map Expr.textless).sum := Expr.textless_seq _ _ _ _ _
    exact hcount.trans (textless_of_readItems (readItems_of_parse hs))
  · exact Sentence.parse_yields_kept (readerKeeps_emptyOnlyIn hbare) s hs

/-- One pair of square brackets is one word without text, and a lone substitution is rejected. -/
theorem Sentence.textless_of_parse_please :
    (∃ s, Sentence.parse "say [please]" none = .ok s ∧ s.toExpr.nodes.countP Expr.isTextless = 1 ∧
      ∀ e ∈ s.items, e.EmptyOnlyIn ["please".toList]) ∧
      ∃ e, Sentence.parse ":x" none = .error e := by
  have hparse : Sentence.parse "say [please]" none = .ok ⟨"say [please]",
      [.plain "say", .seq .alternative "please" [.plain "please", Expr.emptyWord] {} none]⟩ := by cbv
  have hsquares : squaresOf none "say [please]".toList = ["please".toList] := by decide +kernel
  have hbare : ∀ l ∈ readTokens none "say [please]".toList, isBare l = false := by decide +kernel
  have htoken : [⟨':', false, 0⟩, ⟨'x', false, 1⟩] ∈ readTokens none ":x".toList := by decide +kernel
  obtain ⟨-, -, hcount⟩ := Sentence.textless_of_parse "say [please]" none
  obtain ⟨hone, hplaces⟩ := hcount _ hparse
  have hplaces := hplaces hbare
  obtain ⟨hrejected, -⟩ := Sentence.textless_of_parse ":x" none
  refine ⟨⟨_, hparse, ?_, ?_⟩, (hrejected _ htoken rfl).resolve_left (by decide)⟩
  · rw [hone]
    decide +kernel
  · exact hsquares ▸ hplaces

/-- A mark of a converter alone has no word, and yet it is read as the empty word. -/
theorem Sentence.parse_bang :
    (∃ l ∈ readTokens none "!".toList, tokenHost l = []) ∧
      Sentence.parse "!" none = .ok ⟨"!", [Expr.emptyWord]⟩ ∧
      ¬ Expr.emptyWord.EmptyOnlyIn (squaresOf none "!".toList) := by
  have htoken : [⟨'!', false, 0⟩] ∈ readTokens none "!".toList := by decide +kernel
  refine ⟨⟨_, htoken, rfl⟩, by cbv, fun h => ?_⟩
  cases h with
  | word ht => exact ht rfl

end Utterance
