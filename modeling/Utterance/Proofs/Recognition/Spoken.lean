import Utterance.Proofs.Compile.Acceptance
import Utterance.Proofs.Compile.Ranges
import Utterance.Proofs.Compile.Rewriting
import Utterance.Proofs.Recognition.Said
import Utterance.Proofs.Wording.Casing

/-!
# Spoken forms of numbers

Every whole number in the templates becomes a choice between its digits and its words, which
is said as the number.  A reading of the templates turns into one reading for each way to
choose (`reads_spoken`), and these hear the *forms* of the old one (`Reading.forms`): digits
or words at every number.  All of them say the same, since the words of a choice are hidden
behind what is said in their place (`Reading.filter_tells_marks`).

So the new templates accept the forms of what the old ones read, and nothing else, and all
forms of one reading are recognized with the same tokens (`spoken_forms`), unless a form is
heard on another path as well and that one stops the recognition
(`digits_not_recognized_fooGraph`).
-/

namespace Utterance

open Utterance.Graph

/-! ## Readings of a choice -/

namespace Number

/-- The number that a word is, if it has no suffix and is a whole number. -/
def integer? (text : String) (suffix : Suffix) : Option Int :=
  if suffix.isEmpty then readInteger? text.toList else none

/-- The ways in which a word is read once numbers have their spoken forms. -/
def spokenReadings (text : String) (suffix : Suffix) (tag : Option Tag) : List Reading :=
  match integer? text suffix with
  | some n =>
    [[text], English.spell n].map fun ws =>
      .node none [.ofWords ws] { substitution := some [toString n], converters := [converter] } tag
  | none => [.word text suffix tag]

/-- The tree of a word once numbers have their spoken forms. -/
def spokenTree (text : String) (suffix : Suffix) (tag : Option Tag) : Tree :=
  match integer? text suffix with
  | some n =>
    .seq .alternative [.word text {} none, .ofWords (English.spell n)]
      { substitution := some [toString n], converters := [converter] } tag
  | none => .word text suffix tag

variable {text : String} {suffix : Suffix} {tag : Option Tag} {n : Int}

theorem readInteger?_of_integer? (h : integer? text suffix = some n) :
    readInteger? text.toList = some n := by
  rw [integer?] at h
  split at h
  · exact h
  · cases h

theorem fits_of_integer? (h : integer? text suffix = some n) : Decimal.fitsInt64 n = true :=
  fits_of_readInteger? (readInteger?_of_integer? h)

theorem ne_empty_of_integer? (h : integer? text suffix = some n) : text ≠ "" := by
  rintro rfl
  have hread := readInteger?_of_integer? h
  rw [show readInteger? "".toList = none from rfl] at hread
  cases hread

/-- The words of a number differ from its digits. -/
theorem singleton_ne_spell (h : integer? text suffix = some n) : [text] ≠ English.spell n := by
  intro heq
  have hlettered := lettered_of_mem_spell (fits_of_integer? h) text
    (heq ▸ List.mem_singleton_self text)
  have hread := readInteger?_of_integer? h
  rw [readInteger?_of_lettered hlettered] at hread
  cases hread

theorem spell_ne_nil (h : integer? text suffix = some n) : English.spell n ≠ [] :=
  English.spell_ne_nil (natAbs_lt (fits_of_integer? h))

theorem integerOrSpoken_of_some (h : integer? text suffix = some n) :
    integerOrSpoken English.spell text suffix tag =
      .seq .alternative text (Expr.plain text :: spokenExprs text (English.spell n))
        { substitution := some [toString n], converters := [converter] } tag := by
  rw [integerOrSpoken, ← integer?, h]

theorem integerOrSpoken_of_none (h : integer? text suffix = none) :
    integerOrSpoken English.spell text suffix tag = .word text suffix tag := by
  rw [integerOrSpoken, ← integer?, h]

theorem unfold_integerOrSpoken (t : Table) (c : Scope) (text : String) (suffix : Suffix)
    (tag : Option Tag) :
    unfold t c (integerOrSpoken English.spell text suffix tag) = spokenTree text suffix tag := by
  rw [spokenTree]
  cases h : integer? text suffix with
  | none => rw [integerOrSpoken_of_none h, unfold]
  | some n =>
      rw [integerOrSpoken_of_some h, unfold, unfoldAll, unfold_plain,
        unfoldAll_spokenExprs t c (spell_ne_nil h) (singleton_ne_spell h)]

theorem buildable_ofWords (expand : Bool) : ∀ ws : List String,
    (Tree.ofWords ws).Buildable expand
  | [_] => trivial
  | [] => trivial
  | w :: w' :: ws => by
      rw [Tree.ofWords, Tree.Buildable, allBuildable_iff_forall, List.forall_mem_map]
      · exact fun _ _ => trivial
      · simp

theorem buildable_spokenTree (expand : Bool) (text : String) (suffix : Suffix) (tag : Option Tag) :
    (spokenTree text suffix tag).Buildable expand := by
  rw [spokenTree]
  cases integer? text suffix with
  | none => trivial
  | some n => exact ⟨trivial, buildable_ofWords expand (English.spell n), trivial⟩

end Number

theorem reads_word_iff {t : Table} {here text : String} {suffix : Suffix} {tag : Option Tag}
    {r : Reading} : Reads t here (.word text suffix tag) r ↔ r = .word text suffix tag :=
  ⟨fun h => by cases h; rfl, fun h => h ▸ .word⟩

theorem reads_alternative_iff {t : Table} {here text : String} {items : List Expr}
    {suffix : Suffix} {tag : Option Tag} {r : Reading} :
    Reads t here (.seq .alternative text items suffix tag) r ↔
      ∃ e ∈ items, ∃ r', Reads t here e r' ∧ r = .node none [r'] suffix tag := by
  constructor
  · intro h
    cases h with
    | alternative he hr => exact ⟨_, he, _, hr, rfl⟩
  · rintro ⟨e, he, r', hr, rfl⟩
    exact .alternative he hr

theorem readsInTurn_plain {t : Table} {here : String} : ∀ {ws : List String} {rs : List Reading},
    ReadsInTurn t here (ws.map Expr.plain) rs ↔ rs = ws.map fun w => .word w {} none
  | [], rs => ⟨fun h => by cases h; rfl, fun h => h ▸ .nil⟩
  | w :: ws, rs => by
      rw [List.map_cons, List.map_cons]
      constructor
      · intro h
        cases h with
        | cons hr hrs => rw [reads_word_iff.mp hr, readsInTurn_plain.mp hrs]
      · rintro rfl
        exact .cons .word (readsInTurn_plain.mpr rfl)

namespace Number

/-- The spoken form has one reading. -/
theorem reads_spokenExprs {t : Table} {here text : String} {r : Reading} :
    ∀ {ws : List String}, ws ≠ [] → [text] ≠ ws →
      ((∃ e ∈ spokenExprs text ws, Reads t here e r) ↔ r = .ofWords ws)
  | [w], _, htext => by
      have hne : (w == text) = false := beq_false_of_ne fun h => htext (h ▸ rfl)
      have hexprs : spokenExprs text [w] = [Expr.plain w] := by
        rw [spokenExprs, hne, if_neg Bool.false_ne_true]
      rw [hexprs]
      constructor
      · rintro ⟨e, he, hr⟩
        obtain rfl := List.mem_singleton.mp he
        exact reads_word_iff.mp hr
      · rintro rfl
        exact ⟨_, List.mem_singleton_self _, .word⟩
  | w :: w' :: ws, _, _ => by
      have hexprs : spokenExprs text (w :: w' :: ws) =
        [.seq .group (" ".intercalate (w :: w' :: ws)) ((w :: w' :: ws).map Expr.plain) {} none] :=
          rfl
      rw [hexprs]
      constructor
      · rintro ⟨e, he, hr⟩
        obtain rfl := List.mem_singleton.mp he
        cases hr with
        | group hrs => rw [readsInTurn_plain.mp hrs]; rfl
      · rintro rfl
        exact ⟨_, List.mem_singleton_self _, .group (readsInTurn_plain.mpr rfl)⟩

/-- A number is read as its digits or as its words, and said as itself. -/
theorem reads_integerOrSpoken (t : Table) (here text : String) (suffix : Suffix)
    (tag : Option Tag) (r : Reading) :
    Reads t here (integerOrSpoken English.spell text suffix tag) r ↔
      r ∈ spokenReadings text suffix tag := by
  rw [spokenReadings]
  cases h : integer? text suffix with
  | none => rw [integerOrSpoken_of_none h, reads_word_iff, List.mem_singleton]
  | some n =>
      have hspoken : ∀ r', (∃ e ∈ spokenExprs text (English.spell n), Reads t here e r') ↔
          r' = .ofWords (English.spell n) := fun r' =>
        reads_spokenExprs (spell_ne_nil h) (singleton_ne_spell h)
      rw [integerOrSpoken_of_some h, reads_alternative_iff]
      dsimp only [List.map_cons, List.map_nil]
      constructor
      · rintro ⟨e, he, r', hr, rfl⟩
        rcases List.mem_cons.mp he with rfl | he
        · rw [reads_word_iff.mp hr]
          exact List.mem_cons_self
        · rw [(hspoken r').mp ⟨e, he, hr⟩]
          exact List.mem_cons_of_mem _ (List.mem_singleton_self _)
      · intro hr
        rcases List.mem_cons.mp hr with rfl | hr
        · exact ⟨_, List.mem_cons_self, _, .word, rfl⟩
        · obtain ⟨e, he, hread⟩ := (hspoken _).mpr rfl
          exact ⟨e, List.mem_cons_of_mem _ he, _, hread, List.mem_singleton.mp hr⟩

end Number

/-! ## Forms of a reading -/

namespace Reading

mutual

/-- What may be heard for a reading if every whole number is heard as its digits or in words. -/
def forms : Reading → List (List String)
  | word text suffix _ =>
    match Number.integer? text suffix with
    | some n => [[text], English.spell n]
    | none => [if text = "" then [] else [text]]
  | node _ parts _ _ => formsInTurn parts

def formsInTurn : List Reading → List (List String)
  | [] => [[]]
  | r :: rs => (forms r).flatMap fun ws => (formsInTurn rs).map (ws ++ ·)

end

mutual

/-- The readings that come of one hear its forms. -/
theorem map_heard_variants : ∀ r : Reading,
    (r.variants Number.spokenReadings).map heard = r.forms
  | .word text suffix tag => by
      rw [variants, Number.spokenReadings, forms]
      cases h : Number.integer? text suffix with
      | none => rfl
      | some n =>
          have hspoken : ∀ w ∈ English.spell n, Ordinary w := fun w hw =>
            (Number.lettered_of_mem_spell (Number.fits_of_integer? h) w hw).ordinary
          have hheard : ∀ ws suffix, (node none [.ofWords ws] suffix tag).heard =
              (ofWords ws).heard := fun ws suffix => by
            rw [heard, heardInTurn, heardInTurn, List.append_nil]
          simp only [List.map_cons, List.map_nil, hheard, heard_ofWords hspoken]
          rw [ofWords, heard, if_neg (Number.ne_empty_of_integer? h)]
  | .node slot parts suffix tag => by
      rw [variants, forms, List.map_map, ← map_heardInTurn_variants parts]
      exact List.map_congr_left fun rs _ => by rw [Function.comp_apply, heard]

theorem map_heardInTurn_variants : ∀ rs : List Reading,
    (variantsInTurn Number.spokenReadings rs).map heardInTurn = formsInTurn rs
  | [] => rfl
  | r :: rs => by
      rw [variantsInTurn, formsInTurn, ← map_heard_variants r, ← map_heardInTurn_variants rs,
        List.map_flatMap, List.flatMap_map]
      refine List.flatMap_congr fun v _ => ?_
      rw [List.map_map, List.map_map]
      exact List.map_congr_left fun vs _ => by
        rw [Function.comp_apply, Function.comp_apply, heardInTurn]

end

theorem mem_forms_iff {r : Reading} {ws : List String} :
    ws ∈ r.forms ↔ ∃ v ∈ r.variants Number.spokenReadings, v.heard = ws := by
  rw [← map_heard_variants, List.mem_map]

/-! ## What variants say -/

end Reading

/-- There is a label on the edges with the mark. -/
def Mark.tells (m : Mark) : Bool := m.output != ""

theorem filter_tells_wordMarks_hidden (text : String) :
    (wordMarks true text).filter Mark.tells = [] :=
  List.filter_eq_nil_iff.mpr fun m hm => by
    rw [Mark.eq_of_mem_spelled hm]
    exact Bool.false_ne_true

namespace Reading

/-- Hidden words say nothing. -/
theorem filter_tells_ofWords (ws : List String) :
    ((ofWords ws).marks true).filter Mark.tells = [] := by
  have henclose : ∀ ms, enclose true {} none ms = ms := fun ms => by
    rw [enclose, show labelsBefore {} none = [] from rfl,
      show labelsAfter true {} none = [] from rfl, show saidMarks [] = [] from rfl,
      List.nil_append, List.append_nil]
  have hword : ∀ w, ((word w {} none).marks true).filter Mark.tells = [] := fun w => by
    rw [marks, henclose]
    exact filter_tells_wordMarks_hidden w
  have hwords : ∀ ws : List String,
      (marksInTurn true (ws.map fun w => .word w {} none)).filter Mark.tells = [] := by
    intro ws
    induction ws with
    | nil => rfl
    | cons w ws ih => rw [List.map_cons, marksInTurn, List.filter_append, hword, ih]; rfl
  match ws with
  | [w] => exact hword w
  | [] => rfl
  | w :: w' :: ws =>
    rw [ofWords, marks, henclose]
    · exact (List.append_nil _).symm ▸ hwords (w :: w' :: ws)
    · simp

mutual

/-- Whatever forms of numbers are heard, the same is said. -/
theorem filter_tells_marks : ∀ (r : Reading) (hidden : Bool),
    ∀ v ∈ r.variants Number.spokenReadings, ∀ v' ∈ r.variants Number.spokenReadings,
      (v.marks hidden).filter Mark.tells = (v'.marks hidden).filter Mark.tells
  | .word text suffix tag, hidden, v, hv, v', hv' => by
      rw [variants, Number.spokenReadings] at hv hv'
      cases h : Number.integer? text suffix with
      | none =>
          rw [h] at hv hv'
          rw [List.mem_singleton.mp hv, List.mem_singleton.mp hv']
      | some n =>
          rw [h] at hv hv'
          obtain ⟨ws, -, rfl⟩ := List.mem_map.mp hv
          obtain ⟨ws', -, rfl⟩ := List.mem_map.mp hv'
          -- the words are hidden behind the number that is said in their place
          have hreplaced : (hidden || isReplaced
              { substitution := some [toString n], converters := [Number.converter] } tag) = true :=
            Bool.or_true hidden
          rw [marks_node_singleton, marks_node_singleton, hreplaced, enclose, enclose]
          simp only [List.filter_append, filter_tells_ofWords]
  | .node slot parts suffix tag, hidden, v, hv, v', hv' => by
      obtain ⟨vs, hvs, rfl⟩ := mem_variants_node.mp hv
      obtain ⟨vs', hvs', rfl⟩ := mem_variants_node.mp hv'
      rw [marks, marks, enclose, enclose]
      simp only [List.filter_append, filter_tells_marksInTurn parts _ vs hvs vs' hvs']

theorem filter_tells_marksInTurn : ∀ (rs : List Reading) (hidden : Bool),
    ∀ vs ∈ variantsInTurn Number.spokenReadings rs, ∀ vs' ∈ variantsInTurn Number.spokenReadings rs,
      (marksInTurn hidden vs).filter Mark.tells = (marksInTurn hidden vs').filter Mark.tells
  | [], _, vs, hvs, vs', hvs' => by
      rw [List.mem_singleton.mp hvs, List.mem_singleton.mp hvs']
  | r :: rs, hidden, vs, hvs, vs', hvs' => by
      obtain ⟨v, hv, vs, hvs, rfl⟩ := mem_variantsInTurn_cons.mp hvs
      obtain ⟨v', hv', vs', hvs', rfl⟩ := mem_variantsInTurn_cons.mp hvs'
      rw [marksInTurn, marksInTurn, List.filter_append, List.filter_append,
        filter_tells_marks r hidden v ‹_› v' ‹_›, filter_tells_marksInTurn rs hidden vs ‹_› vs' ‹_›]

end

end Reading

/-- Marks that say the same give emissions that say the same. -/
theorem filter_tells_emissionsOf {ms ms' : List Mark}
    (h : ms.filter Mark.tells = ms'.filter Mark.tells) :
    (emissionsOf ms).filter Emission.tells = (emissionsOf ms').filter Emission.tells := by
  have hcons : ∀ (m : Mark) (ms : List Mark), (emissionsOf (m :: ms)).filter Emission.tells =
      (emissionsOf [m]).filter Emission.tells ++
        (emissionsOf ms).filter Emission.tells := fun m ms => by
    rw [← List.filter_append, ← emissionsOf_append, List.singleton_append]
  have htells : ∀ ms : List Mark, (emissionsOf ms).filter Emission.tells =
      (emissionsOf (ms.filter Mark.tells)).filter Emission.tells := fun ms => by
    induction ms with
    | nil => rfl
    | cons m ms ih =>
        by_cases hm : m.tells = true
        · rw [List.filter_cons_of_pos hm, hcons m ms, hcons m (ms.filter _), ih]
        · have hlabel : m.emission.label = "" := by
            have houtput : m.output = "" := by simpa [Mark.tells] using hm
            rw [Mark.emission, Mark.label?, houtput]
            rfl
          have hquiet : (emissionsOf [m]).filter Emission.tells = [] := by
            refine List.filter_eq_nil_iff.mpr fun e he => ?_
            obtain rfl := List.mem_singleton.mp (List.mem_of_mem_filter he)
            rw [Emission.tells, hlabel]
            decide
          rw [List.filter_cons_of_neg hm, hcons, hquiet, ih, List.nil_append]
  rw [htells, h, ← htells]

/-! ## Compiling -/

/-- The sentence in which numbers have their spoken forms. -/
def Sentence.spoken (s : Sentence) : Sentence := s.mapWords (Number.integerOrSpoken English.spell)

def Table.spoken (t : Table) : Table :=
  t.mapExprs (Expr.mapWords (Number.integerOrSpoken English.spell))

theorem reads_spoken {t : Table} {intent : String} {s : Sentence} {v : Reading} :
    Reads t.spoken intent s.spoken.toExpr v ↔
      ∃ r, Reads t intent s.toExpr r ∧ v ∈ r.variants Number.spokenReadings := by
  rw [Sentence.spoken, Sentence.toExpr_mapWords]
  exact reads_mapWords Number.reads_integerOrSpoken

theorem derives_spoken_iff {t : Table} {intent : String} {s : Sentence} {ws : List String} :
    s.spoken.Derives t.spoken intent ws ↔
      ∃ r, Reads t intent s.toExpr r ∧ ws ∈ r.forms := by
  simp only [Sentence.Derives, reads_spoken, Reading.mem_forms_iff]
  constructor
  · rintro ⟨v, ⟨r, hr, hv⟩, hheard⟩
    exact ⟨r, hr, v, hv, hheard⟩
  · rintro ⟨r, hr, v, hv, hheard⟩
    exact ⟨v, ⟨r, hr, hv⟩, hheard⟩

theorem unfold_spoken (s : Sentence) (t : Table) (intent : String) :
    s.spoken.unfold t.spoken intent = (s.unfold t intent).mapWords Number.spokenTree := by
  rw [Sentence.unfold, Sentence.unfold, Sentence.spoken, Sentence.toExpr_mapWords, Table.spoken,
    unfold_mapWords Number.unfold_integerOrSpoken]

/-- A sentence compiles with spoken forms if and only if it does without. -/
theorem exists_ofSentences_spoken_iff {t : Table} {o : CompileOptions} {intent : String}
    {s : Sentence} :
    (∃ g, Graph.ofSentences [(intent, [s.spoken])] t.spoken o = .ok g) ↔
      ∃ g, Graph.ofSentences [(intent, [s])] t o = .ok g := by
  rw [exists_ofSentences_intent, exists_ofSentences_intent, List.forall_mem_singleton,
    List.forall_mem_singleton, unfold_spoken]
  exact buildable_mapWords (Number.buildable_spokenTree _) _

/-- No number that is added looks like a mark or is a wildcard. -/
theorem Number.forall_heads_integerOrSpoken {R : String → Prop} (hR : ∀ w, Ordinary w → R w)
    (text : String) (suffix : Suffix) (tag : Option Tag)
    (hhead : ∀ x ∈ [text] ++ Head.substitutions ⟨some text, suffix, tag⟩, R x) :
    ∀ h ∈ (integerOrSpoken English.spell text suffix tag).heads,
      ∀ x ∈ h.word.toList ++ h.substitutions, R x := by
  cases hn : integer? text suffix with
  | none =>
      rw [integerOrSpoken_of_none hn]
      intro h hh
      obtain rfl := List.mem_singleton.mp hh
      exact hhead
  | some n =>
      rw [integerOrSpoken_of_some hn]
      intro h hh
      rcases Expr.mem_heads_seq.mp hh with rfl | ⟨e, he, hh⟩
      · intro x hx
        rcases List.mem_append.mp hx with hx | hx
        · cases hx
        · rcases List.mem_append.mp hx with hx | hx
          · rw [List.mem_singleton.mp hx]
            exact hR _ (ordinary_repr n)
          · exact hhead x (List.mem_append_right _ (List.mem_append_right _ hx))
      · rcases List.mem_cons.mp he with rfl | he
        · obtain rfl := List.mem_singleton.mp hh
          intro x hx
          obtain rfl := List.mem_singleton.mp (show x ∈ [text] from hx)
          exact hhead x (List.mem_append_left _ (List.mem_singleton_self x))
        · have hspoken : ∀ w ∈ English.spell n, Ordinary w := fun w hw =>
            (lettered_of_mem_spell (fits_of_integer? hn) w hw).ordinary
          exact fun x hx => hR x (ordinary_spokenExprs hspoken e he h hh x hx)

theorem forall_heads_spoken {R : String → Prop} (hR : ∀ w, Ordinary w → R w) {t : Table}
    {intent : String} {s : Sentence}
    (h : ∀ h ∈ IntentSentences.heads [(intent, [s])] ++ t.heads,
      ∀ x ∈ h.word.toList ++ h.substitutions, R x) :
    ∀ h ∈ IntentSentences.heads [(intent, [s.spoken])] ++ t.spoken.heads,
      ∀ x ∈ h.word.toList ++ h.substitutions, R x := by
  have hnode : ∀ suffix tag, (∀ x ∈ (⟨none, suffix, tag⟩ : Head).word.toList ++
      Head.substitutions ⟨none, suffix, tag⟩, R x) → _ := fun _ _ h => h
  refine List.forall_mem_append.mpr ⟨?_, ?_⟩
  · exact IntentSentences.forall_heads_mapWords (l := [(intent, [s])]) hnode
      (Number.forall_heads_integerOrSpoken hR) fun h' hh => h h' (List.mem_append_left _ hh)
  · exact Table.forall_heads_mapWords hnode (Number.forall_heads_integerOrSpoken hR)
      fun h' hh => h h' (List.mem_append_right _ hh)

/-! ## Recognizing -/

namespace Graph

/-- If no path fails for another reason than a rejected value, all that paths stand for is given. -/
theorem exists_interpretAll {g : Graph} {cs : Converters} : ∀ {l : List (Path × Option Float)},
    (∀ q ∈ l, ∀ e, g.interpret cs q.1 q.2 = .error e → ∃ key message, e = .conversion key message) →
    ∃ rs, g.interpretAll cs l = .ok rs ∧ ∀ q ∈ l, ∀ r, g.interpret cs q.1 q.2 = .ok r → r ∈ rs
  | [], _ => ⟨[], rfl, fun _ hq => (List.not_mem_nil hq).elim⟩
  | (p, cost) :: rest, h => by
      obtain ⟨hp, hrest⟩ := List.forall_mem_cons.mp h
      obtain ⟨rs, hrs, hmem⟩ := exists_interpretAll hrest
      rw [interpretAll]
      cases hr : g.interpret cs p cost with
      | ok r =>
          refine ⟨r :: rs, by rw [hrs]; rfl, List.forall_mem_cons.mpr ⟨fun r' hr' => ?_, ?_⟩⟩
          · obtain rfl := Except.ok.inj (hr.symm.trans hr')
            exact List.mem_cons_self
          · exact fun q hq r' hr' => List.mem_cons_of_mem _ (hmem q hq r' hr')
      | error e =>
          obtain ⟨key, message, rfl⟩ := hp e hr
          refine ⟨rs, hrs, List.forall_mem_cons.mpr ⟨fun r' hr' => ?_, hmem⟩⟩
          cases hr.symm.trans hr'

/-- A path from the start of a compiled graph on which something is heard is not empty, and so it
enters an intent. -/
theorem exists_entered? {l : IntentSentences} {t : Table} {o : CompileOptions} {g : Graph}
    (hg : Graph.ofSentences l t o = .ok g) {tokens : List String} (hne : tokens ≠ []) {p : Path}
    (hp : p ∈ g.exactPaths {} tokens) : ∃ q ∈ l, g.entered? p = some q.1 := by
  obtain ⟨start, final, hstart, -, hfollows, htokens⟩ :=
    follows_of_mem_exactPaths (R := fun _ _ => True) (ascending_ofSentences hg).valid
      (fun _ _ => trivial) hp
  obtain rfl : 0 = start := Option.some.inj ((start_ofSentences hg).symm.trans hstart)
  cases p with
  | nil => exact (hne htokens.symm).elim
  | cons s p =>
      obtain ⟨q, hq, hentered, -⟩ := hfollows.entered?_eq hg
      exact ⟨q, hq, hentered⟩

end Graph

section

variable {t : Table} {o : CompileOptions} {intent : String} {s : Sentence} {g : Graph}
  (hfixed : ∀ h ∈ IntentSentences.heads [(intent, [s])] ++ t.heads, h.Fixed)
  (hexpand : o.expandSlots = true) (hg : Graph.ofSentences [(intent, [s])] t o = .ok g)
include hfixed hexpand hg

/-- The graph of a sentence accepts what the sentence derives. -/
theorem exactPaths_ne_nil_iff_derives (tokens : List String) :
    g.exactPaths {} tokens ≠ [] ↔ tokens ≠ [] ∧ s.Derives t intent tokens := by
  by_cases hne : tokens = []
  · subst hne
    exact iff_of_false (fun h => h (Graph.exactPaths_nil .none)) fun h => h.1 rfl
  have hwild : ∀ h ∈ IntentSentences.heads [(intent, [s])] ++ t.heads, h.word ≠ some wildcard :=
    fun h hh hword =>
      hfixed h hh wildcard (List.mem_append_left _ (hword ▸ List.mem_singleton_self _)) rfl
  constructor
  · intro hpaths
    obtain ⟨p, hp⟩ := List.exists_mem_of_ne_nil _ hpaths
    obtain ⟨q, hq, hentered⟩ := Graph.exists_entered? hg hne hp
    obtain rfl := List.mem_singleton.mp hq
    obtain ⟨sentences, hmem, s', hs', hderives⟩ :=
      exists_derives_of_entered hwild hexpand hg hp hentered
    obtain ⟨-, rfl⟩ := Prod.mk.inj (List.mem_singleton.mp hmem)
    obtain rfl := List.mem_singleton.mp hs'
    exact ⟨hne, hderives⟩
  · rintro ⟨-, hderives⟩
    obtain ⟨p, hp, -⟩ := exists_entered_of_derives hwild hexpand hg
      (List.mem_singleton_self _) (List.mem_singleton_self _) hderives hne
    exact List.ne_nil_of_mem hp

/-- What a reading hears is matched on a path that stands for what the reading says. -/
theorem exists_exactPath_of_reads (hplain : PlainTemplates [(intent, [s])] t) {r : Reading}
    (hr : Reads t intent s.toExpr r) (hne : r.heard ≠ []) :
    ∃ p ∈ g.exactPaths {} r.heard, ∀ cs,
      g.interpret cs p = interpretEmissions cs intent (emissionsOf (r.marks false)) := by
  have hasc := ascending_ofSentences hg
  have hinputs := Graph.inputs_of_fixed hfixed hg
  obtain ⟨final, hfinal, E⟩ := ofSentences_extends hg
  have hstart := start_ofSentences hg
  have hroute := (route_ofSentences hg hexpand hfinal).mpr
    ⟨intent, [s], List.mem_singleton_self _, s, List.mem_singleton_self _, r, hr, rfl⟩
  obtain ⟨p, hfollows, hlength, hspelled, htokens⟩ := hroute.exists_follows
  have hheard : p.tokens = r.heard := by
    rw [htokens, heardOf_intentMark_cons, r.heardOf_marks]
  have hsize : p.length ≤ g.size := by
    have := E.exit_lt Nat.zero_lt_one (List.mem_singleton_self final)
    omega
  have hcrosses : g.Crosses Edge.Exactly p := ⟨0, final, hstart, hfinal, hfollows⟩
  refine ⟨p, ?_, fun cs => hcrosses.interpret_eq hplain hfixed hexpand hg hspelled cs none⟩
  rw [← hheard] at hne ⊢
  exact mem_exactPaths_of_follows hasc.valid hinputs hstart hfinal hfollows hne hsize

end

/-- With spoken forms the sentence accepts the forms of its readings, and all forms of a reading
stand for the same tokens. -/
theorem spoken_forms {t : Table} {o : CompileOptions} {intent : String} {s : Sentence}
    (hplain : PlainTemplates [(intent, [s])] t)
    (hfixed : ∀ h ∈ IntentSentences.heads [(intent, [s])] ++ t.heads, h.Fixed)
    (hexpand : o.expandSlots = true)
    (hcompiles : ∃ g, Graph.ofSentences [(intent, [s])] t o = .ok g) :
    ∃ g, Graph.ofSentences [(intent, [s.spoken])] t.spoken o = .ok g ∧
      (∀ tokens, g.exactPaths {} tokens ≠ [] ↔
        tokens ≠ [] ∧ ∃ r, Reads t intent s.toExpr r ∧ tokens ∈ r.forms) ∧
      ∀ r, Reads t intent s.toExpr r → ∀ cs : Converters,
        ∃ outcome : Except InterpretError (String × List Value), ∀ ws ∈ r.forms, ws ≠ [] →
          ∃ p ∈ g.exactPaths {} ws, (g.interpret cs p).map Recognition.told = outcome ∧
            ∀ said, outcome = .ok said →
              (∀ q ∈ g.exactPaths {} ws, ∀ e, g.interpret cs q = .error e →
                ∃ key message, e = .conversion key message) →
              ∃ rs, g.recognize ({ tolerant := false } : RecognizerConfig).options cs ws = .ok rs ∧
                ∃ n ∈ rs, n.told = said := by
  obtain ⟨g, hg⟩ := exists_ofSentences_spoken_iff.mpr hcompiles
  have hplain' : PlainTemplates [(intent, [s.spoken])] t.spoken :=
    forall_heads_spoken (fun _ hw => hw.not_control) hplain
  have hfixed' := forall_heads_spoken (R := (· ≠ wildcard)) (fun _ hw => hw.ne_wildcard) hfixed
  refine ⟨g, hg, fun tokens => ?_, fun r hr cs => ?_⟩
  · rw [exactPaths_ne_nil_iff_derives hfixed' hexpand hg, derives_spoken_iff]
  · -- every variant comes to what the first one comes to
    let first := ((r.variants Number.spokenReadings).head?.map (Reading.marks false)).getD []
    refine ⟨(interpretEmissions cs intent (emissionsOf first)).map Recognition.told, ?_⟩
    intro ws hws hne
    obtain ⟨v, hv, rfl⟩ := Reading.mem_forms_iff.mp hws
    obtain ⟨p, hp, hinterpret⟩ := exists_exactPath_of_reads hfixed' hexpand hg hplain'
      (reads_spoken.mpr ⟨r, hr, hv⟩) hne
    have hsame : (v.marks false).filter Mark.tells = first.filter Mark.tells := by
      obtain ⟨v₀, rest, hcons⟩ := List.exists_cons_of_ne_nil (List.ne_nil_of_mem hv)
      have hfirst : first = v₀.marks false := by simp only [first, hcons]; rfl
      rw [hfirst]
      exact r.filter_tells_marks false v hv v₀ (hcons ▸ List.mem_cons_self)
    have htold : (g.interpret cs p).map Recognition.told =
        (interpretEmissions cs intent (emissionsOf first)).map Recognition.told := by
      rw [hinterpret cs]
      exact interpretEmissions_congr cs intent (filter_tells_emissionsOf hsame) none
    refine ⟨p, hp, htold, fun said hsaid hrejects => ?_⟩
    obtain ⟨n, hn, rfl⟩ := Except.map_eq_ok.mp (htold.trans hsaid)
    obtain ⟨rs, hrs, hmem⟩ := Graph.exists_interpretAll
      (l := (g.exactPaths {} v.heard).map fun p => (p, none)) (g := g)
      (List.forall_mem_map.mpr hrejects)
    refine ⟨rs, ?_, n, List.forall_mem_map.mp hmem p hp n hn, rfl⟩
    rw [Graph.recognize, Graph.candidates_strict]
    exact hrs

/-! ## Twenty-five -/

def levelSentence : Sentence :=
  ⟨"set 25", [.plain "set", .word "25" {} (some { name := "level" })]⟩

def levelGraph : Graph where
  nodes := #[⟨none, #[0]⟩, ⟨none, #[1]⟩, ⟨some "set", #[2]⟩, ⟨none, #[3]⟩, ⟨none, #[4, 5]⟩,
    ⟨some "25", #[7]⟩, ⟨some "twenty", #[6]⟩, ⟨some "five", #[8]⟩, ⟨none, #[9]⟩, ⟨none, #[10]⟩,
    ⟨none, #[11]⟩, ⟨none, #[12]⟩, ⟨none, #[]⟩]
  edges := #[{ source := 0, target := 1, output := "__label__Set" },
    { source := 1, target := 2, input := "set", output := "set" },
    { source := 2, target := 3, output := "__begin__level" },
    { source := 3, target := 4, output := "__convert__int" },
    { source := 4, target := 5, input := "25" },
    { source := 4, target := 6, input := "twenty" },
    { source := 6, target := 7, input := "five" },
    { source := 5, target := 8 },
    { source := 7, target := 8 },
    { source := 8, target := 9, output := "25" },
    { source := 9, target := 10, output := "__converted__int" },
    { source := 10, target := 11, output := "__end__level" },
    { source := 11, target := 12 }]
  start := some 0
  final := some 12

theorem spell_twentyFive : English.spell 25 = ["twenty", "five"] := by decide +kernel

theorem integer?_twentyFive : Number.integer? "25" {} = some 25 := by decide

theorem integer?_set : Number.integer? "set" {} = none := by decide

theorem unfold_spoken_levelSentence : levelSentence.spoken.unfold [] "Set" =
    .seq .group [.word "set" {} none, .seq .alternative [.word "25" {} none,
      .seq .group [.word "twenty" {} none, .word "five" {} none] {} none]
        { substitution := some ["25"], converters := ["int"] } (some { name := "level" })]
      {} none := by
  have hwords : Sentence.unfold [] "Set" levelSentence =
      .seq .group [.word "set" {} none, .word "25" {} (some { name := "level" })] {} none := by
    simp [Sentence.unfold, Sentence.toExpr, levelSentence, unfold, unfoldAll, Expr.plain]
  have hspoken : levelSentence.spoken.unfold [] "Set" =
      Tree.mapWords Number.spokenTree (Sentence.unfold [] "Set" levelSentence) :=
    unfold_spoken levelSentence [] "Set"
  simp only [hspoken, hwords, Tree.mapWords, Tree.mapWordsOf, Number.spokenTree, integer?_set,
    integer?_twentyFive, spell_twentyFive]
  rfl

theorem ofSentences_spoken_levelSentence :
    Graph.ofSentences [("Set", [levelSentence.spoken])] [] = .ok levelGraph :=
  (ofSentences_singleton unfold_spoken_levelSentence).trans rfl

/-- The level is heard in digits. -/
def digitsPath : Path :=
  [⟨0, 1, []⟩, ⟨1, 2, ["set"]⟩, ⟨2, 3, []⟩, ⟨3, 4, []⟩, ⟨4, 5, ["25"]⟩, ⟨5, 8, []⟩, ⟨8, 9, []⟩,
    ⟨9, 10, []⟩, ⟨10, 11, []⟩, ⟨11, 12, []⟩]

/-- The level is heard in words. -/
def wordsPath : Path :=
  [⟨0, 1, []⟩, ⟨1, 2, ["set"]⟩, ⟨2, 3, []⟩, ⟨3, 4, []⟩, ⟨4, 6, ["twenty"]⟩, ⟨6, 7, ["five"]⟩,
    ⟨7, 8, []⟩, ⟨8, 9, []⟩, ⟨9, 10, []⟩, ⟨10, 11, []⟩, ⟨11, 12, []⟩]

def levelReading : Reading :=
  .node none [.word "set" {} none, .word "25" {} (some { name := "level" })] {} none

theorem reads_levelSentence : Reads [] "Set" levelSentence.toExpr levelReading :=
  .group (.cons .word (.cons .word .nil))

theorem forms_levelReading :
    levelReading.forms = [["set", "25"], ["set", "twenty", "five"]] := by
  simp [levelReading, Reading.forms, Reading.formsInTurn, integer?_set, integer?_twentyFive,
    spell_twentyFive]

theorem told_digitsPath (now : DateTime) :
    (levelGraph.interpret (Converters.builtin (English.extractor now)) digitsPath).map
      Recognition.told = .ok ("Set", [.text "set", .int 25]) := rfl

theorem exactPaths_digits : levelGraph.exactPaths {} ["set", "25"] = [digitsPath] := by
  decide +kernel

theorem exactPaths_words : levelGraph.exactPaths {} ["set", "twenty", "five"] = [wordsPath] := by
  decide +kernel

/-- The level is the same number in digits and in words. -/
theorem twentyFive_spoken :
    PlainTemplates [("Set", [levelSentence])] [] ∧
      (∀ h ∈ IntentSentences.heads [("Set", [levelSentence])] ++ Table.heads [], h.Fixed) ∧
      (∃ g, Graph.ofSentences [("Set", [levelSentence])] [] = .ok g) ∧
      Graph.ofSentences [("Set", [levelSentence.spoken])] [] = .ok levelGraph ∧
      ∀ ws ∈ [["set", "25"], ["set", "twenty", "five"]], levelGraph.exactPaths {} ws ≠ [] ∧
        ∃ rs, levelGraph.recognize ({ tolerant := false } : RecognizerConfig).options
            (Converters.builtin (English.extractor (DateTime.ofUnix 0 0))) ws = .ok rs ∧
          ∃ n ∈ rs, n.told = ("Set", [.text "set", .int 25]) := by
  have hplain : PlainTemplates [("Set", [levelSentence])] [] := by decide
  have hfixed : ∀ h ∈ IntentSentences.heads [("Set", [levelSentence])] ++ Table.heads [],
      h.Fixed := by
    unfold Head.Fixed
    decide
  have hcompiles : ∃ g, Graph.ofSentences [("Set", [levelSentence])] [] = .ok g :=
    exists_ofSentences_spoken_iff.mp ⟨levelGraph, ofSentences_spoken_levelSentence⟩
  obtain ⟨g, hg, haccepts, hsame⟩ := spoken_forms hplain hfixed rfl hcompiles
  obtain rfl : levelGraph = g :=
    Except.ok.inj (ofSentences_spoken_levelSentence.symm.trans hg)
  obtain ⟨outcome, hforms⟩ := hsame levelReading reads_levelSentence
    (Converters.builtin (English.extractor (DateTime.ofUnix 0 0)))
  rw [forms_levelReading] at hforms
  have houtcome : outcome = .ok ("Set", [.text "set", .int 25]) := by
    obtain ⟨p, hp, htold, -⟩ := hforms ["set", "25"] (by decide) (by decide)
    rw [exactPaths_digits] at hp
    rw [← htold, List.mem_singleton.mp hp, told_digitsPath]
  have hne : ∀ ws ∈ [["set", "25"], ["set", "twenty", "five"]], ws ≠ [] := by decide
  have hsingle : ∀ ws ∈ [["set", "25"], ["set", "twenty", "five"]],
      ∃ p, levelGraph.exactPaths {} ws = [p] :=
    List.forall_mem_cons.mpr ⟨⟨_, exactPaths_digits⟩,
      List.forall_mem_singleton.mpr ⟨_, exactPaths_words⟩⟩
  refine ⟨hplain, hfixed, hcompiles, hg, fun ws hws => ⟨?_, ?_⟩⟩
  · exact (haccepts ws).mpr ⟨hne ws hws, levelReading, reads_levelSentence,
      by rwa [forms_levelReading]⟩
  · obtain ⟨p, hp, htold, hrecognized⟩ := hforms ws hws (hne ws hws)
    refine hrecognized _ houtcome fun q hq e herror => ?_
    obtain ⟨only, honly⟩ := hsingle ws hws
    rw [honly] at hp hq
    obtain rfl : q = p := (List.mem_singleton.mp hq).trans (List.mem_singleton.mp hp).symm
    rw [herror, houtcome] at htold
    cases htold

/-! ## A path that stops the recognition of a form

The forms of a reading need not be heard on its own paths alone.  A path on which a converter
rejects its values is dropped, but a converter that is not known ends the recognition, and
since only the digits are heard on that path the words are recognized and they are not. -/

/-- `(5 | 5!foo)`, where nothing is known about `foo`. -/
def fooSentence : Sentence :=
  ⟨"(5 | 5!foo)", [.seq .alternative "5 | 5!foo"
    [.plain "5", .word "5" { converters := ["foo"] } none] {} none]⟩

def fooGraph : Graph where
  nodes := #[⟨none, #[0]⟩, ⟨none, #[1, 8]⟩, ⟨none, #[2, 3]⟩, ⟨some "5", #[4]⟩,
    ⟨some "five", #[5]⟩, ⟨none, #[6]⟩, ⟨none, #[7]⟩, ⟨none, #[11]⟩, ⟨none, #[9]⟩,
    ⟨some "5", #[10]⟩, ⟨none, #[12]⟩, ⟨none, #[13]⟩, ⟨none, #[]⟩]
  edges := #[{ source := 0, target := 1, output := "__label__Set" },
    { source := 1, target := 2, output := "__convert__int" },
    { source := 2, target := 3, input := "5" },
    { source := 2, target := 4, input := "five" },
    { source := 3, target := 5 },
    { source := 4, target := 5 },
    { source := 5, target := 6, output := "5" },
    { source := 6, target := 7, output := "__converted__int" },
    { source := 1, target := 8, output := "__convert__foo" },
    { source := 8, target := 9, input := "5", output := "5" },
    { source := 9, target := 10, output := "__converted__foo" },
    { source := 7, target := 11 },
    { source := 10, target := 11 },
    { source := 11, target := 12 }]
  start := some 0
  final := some 12

theorem spell_five : English.spell 5 = ["five"] := by decide +kernel

theorem integer?_five : Number.integer? "5" {} = some 5 := by decide

theorem integer?_foo : Number.integer? "5" { converters := ["foo"] } = none := by decide

theorem ofSentences_spoken_fooSentence :
    Graph.ofSentences [("Set", [fooSentence.spoken])] [] = .ok fooGraph := by
  have hspoken : fooSentence.spoken.unfold [] "Set" =
      Tree.mapWords Number.spokenTree (Sentence.unfold [] "Set" fooSentence) :=
    unfold_spoken fooSentence [] "Set"
  have hwords : Sentence.unfold [] "Set" fooSentence =
      .seq .group [.seq .alternative [.word "5" {} none,
        .word "5" { converters := ["foo"] } none] {} none] {} none := by
    simp [Sentence.unfold, Sentence.toExpr, fooSentence, unfold, unfoldAll, Expr.plain]
  have hunfold : fooSentence.spoken.unfold [] "Set" =
      .seq .group [.seq .alternative [.seq .alternative [.word "5" {} none, .ofWords ["five"]]
          { substitution := some ["5"], converters := ["int"] } none,
        .word "5" { converters := ["foo"] } none] {} none] {} none := by
    simp only [hspoken, hwords, Tree.mapWords, Tree.mapWordsOf, Number.spokenTree, integer?_five,
      integer?_foo, spell_five]
    rfl
  exact (ofSentences_singleton hunfold).trans rfl

/-- The number five, by the first branch. -/
def fiveReading : Reading := .node none [.node none [.word "5" {} none] {} none] {} none

theorem reads_fooSentence : Reads [] "Set" fooSentence.toExpr fiveReading :=
  .group (.cons (.alternative List.mem_cons_self .word) .nil)

theorem forms_fiveReading : fiveReading.forms = [["5"], ["five"]] := by
  simp [fiveReading, Reading.forms, Reading.formsInTurn, integer?_five, spell_five]

/-- The path of the reading: its number is heard in digits or in a word. -/
def fivePath (state : Nat) (heard : String) : Path :=
  [⟨0, 1, []⟩, ⟨1, 2, []⟩, ⟨2, state, [heard]⟩, ⟨state, 5, []⟩, ⟨5, 6, []⟩, ⟨6, 7, []⟩,
    ⟨7, 11, []⟩, ⟨11, 12, []⟩]

def fooPath : Path :=
  [⟨0, 1, []⟩, ⟨1, 8, []⟩, ⟨8, 9, ["5"]⟩, ⟨9, 10, []⟩, ⟨10, 11, []⟩, ⟨11, 12, []⟩]

theorem exactPaths_five_digits : fooGraph.exactPaths {} ["5"] = [fooPath, fivePath 3 "5"] := by
  decide +kernel

theorem exactPaths_five_word : fooGraph.exactPaths {} ["five"] = [fivePath 4 "five"] := by
  decide

/-- The two forms of five say the same on the path of their reading.  The word is recognized as
the number, and the digits are not. -/
theorem digits_not_recognized_fooGraph :
    let options := ({ tolerant := false } : RecognizerConfig).options
    let builtin := Converters.builtin (English.extractor (DateTime.ofUnix 0 0))
    PlainTemplates [("Set", [fooSentence])] [] ∧
      (∀ h ∈ IntentSentences.heads [("Set", [fooSentence])] ++ Table.heads [], h.Fixed) ∧
      Graph.ofSentences [("Set", [fooSentence.spoken])] [] = .ok fooGraph ∧
      Reads [] "Set" fooSentence.toExpr fiveReading ∧ fiveReading.forms = [["5"], ["five"]] ∧
      fivePath 3 "5" ∈ fooGraph.exactPaths {} ["5"] ∧
      (fooGraph.interpret builtin (fivePath 3 "5")).map Recognition.told =
        .ok ("Set", [.int 5]) ∧
      (∃ n, fooGraph.recognize options builtin ["five"] = .ok [n] ∧
        n.told = ("Set", [.int 5])) ∧
      fooGraph.recognize options builtin ["5"] = .error (.unknownConverter "foo") := by
  intro options builtin
  have htold : ∀ q ∈ [fivePath 3 "5", fivePath 4 "five"],
      (fooGraph.interpret builtin q).map Recognition.told = .ok ("Set", [.int 5]) :=
    List.forall_mem_cons.mpr ⟨rfl, List.forall_mem_singleton.mpr rfl⟩
  refine ⟨by decide, ?_, ofSentences_spoken_fooSentence, reads_fooSentence, forms_fiveReading,
    ?_, htold _ List.mem_cons_self, ?_, ?_⟩
  · unfold Head.Fixed
    decide
  · rw [exactPaths_five_digits]
    exact List.mem_cons_of_mem _ List.mem_cons_self
  · obtain ⟨n, hn, hsaid⟩ := Except.map_eq_ok.mp (htold (fivePath 4 "five") (by simp))
    refine ⟨n, ?_, hsaid⟩
    rw [Graph.recognize, Graph.candidates_strict, exactPaths_five_word]
    change Graph.interpretAll _ _ [(fivePath 4 "five", none)] = _
    rw [Graph.interpretAll, hn]
    rfl
  · rw [Graph.recognize, Graph.candidates_strict, exactPaths_five_digits]
    rfl

end Utterance
