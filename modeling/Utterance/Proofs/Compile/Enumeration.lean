import Utterance.Proofs.Compile.Acceptance
import Utterance.Proofs.Compile.Pieces
import Utterance.Proofs.Graph.Way
import Utterance.Proofs.Search.Enumeration

/-!
# One path for each reading

`Tree.readings` lists the readings of an unfolded tree, with repetitions if it can be read
in one way by different choices.  Building the tree enumerates what they spell
(`build_enumerates`, one case per kind of tree).  This counts, so no branch may go nowhere:
a tree is *filled* if no group in it is empty, and then it leads on (`Tree.Filled.piece_ne`).

Without wildcards a path that matches word for word is a way, and so the exact search in a
compiled graph finds one path for each reading that hears the tokens
(`exactPaths_perm_readings`).  What is recognized is as ambiguous as the templates are.
-/

namespace Utterance

open Utterance.Graph

/-! ## All readings of a tree -/

mutual

/-- The readings of a tree with its slots' values. -/
def Tree.readings : Tree → List Reading
  | .word text suffix tag => [.word text suffix tag]
  | .seq .group items suffix tag => (readingsInTurn items).map fun rs => .node none rs suffix tag
  | .seq .alternative items suffix tag =>
    (readingsOfEach items).map fun r => .node none [r] suffix tag
  | .rule _ bodies tag =>
    (match bodies with
    | [] => []
    | body :: _ => Tree.readings body).map fun r => .node none [r] {} tag
  | .slot name values suffix tag =>
    (readingsOfEach values).map fun r => .node (some name) [r] suffix tag
  | .broken _ => []

/-- The ways to read trees one after the other. -/
def readingsInTurn : List Tree → List (List Reading)
  | [] => [[]]
  | t :: ts => (Tree.readings t).flatMap fun r => (readingsInTurn ts).map (r :: ·)

/-- The readings of several trees. -/
def readingsOfEach : List Tree → List Reading
  | [] => []
  | t :: ts => Tree.readings t ++ readingsOfEach ts

end

theorem readingsOfEach_eq_flatMap (ts : List Tree) :
    readingsOfEach ts = ts.flatMap Tree.readings := by
  induction ts with
  | nil => rfl
  | cons t ts ih => rw [readingsOfEach, ih, List.flatMap_cons]

/-! ## Trees that lead on -/

mutual

/-- No group in the tree is empty. -/
def Tree.Filled : Tree → Prop
  | .word _ _ _ => True
  | .seq .group items _ _ => items ≠ [] ∧ AllFilled items
  | .seq .alternative items _ _ => AllFilled items
  | .rule _ bodies _ => AllFilled bodies
  | .slot _ values _ _ => AllFilled values
  | .broken _ => True

def AllFilled : List Tree → Prop
  | [] => True
  | t :: ts => Tree.Filled t ∧ AllFilled ts

end

theorem allFilled_iff_forall {ts : List Tree} : AllFilled ts ↔ ∀ t ∈ ts, t.Filled := by
  induction ts with
  | nil => exact iff_of_true trivial fun _ ht => (List.not_mem_nil ht).elim
  | cons t ts ih => rw [AllFilled, ih, List.forall_mem_cons]

namespace Piece

theorem andThen_ne_still {p : Piece} (hp : p ≠ still) (q : Piece) : p.andThen q ≠ still := by
  cases p with
  | still => exact absurd rfl hp
  | leads => rintro ⟨⟩

theorem ne_still_andThen (p : Piece) {q : Piece} (hq : q ≠ still) : p.andThen q ≠ still := by
  cases p with
  | still => exact hq
  | leads => rintro ⟨⟩

theorem wrapped_ne_still {p : Piece} (hp : p ≠ still) (hidden : Bool) (suffix : Suffix)
    (tag : Option Tag) : p.wrapped hidden suffix tag ≠ still :=
  andThen_ne_still (ne_still_andThen _ hp) _

end Piece

/-- A filled tree adds something to the graph. -/
theorem Tree.Filled.piece_ne (expand : Bool) : ∀ {t : Tree} {hidden : Bool}, t.Filled →
    t.piece expand hidden ≠ .still
  | .word _ _ _, _, _ => by
      rw [Tree.piece]
      exact Piece.wrapped_ne_still (by rintro ⟨⟩) _ _ _
  | .seq .group [] _ _, _, h => by
      rw [Tree.Filled] at h
      exact absurd rfl h.1
  | .seq .group (t :: ts) suffix tag, hidden, h => by
      rw [Tree.Filled, AllFilled] at h
      rw [Tree.piece, pieceInTurn]
      exact Piece.wrapped_ne_still
        (Piece.andThen_ne_still (Tree.Filled.piece_ne expand h.2.1) _) _ _ _
  | .seq .alternative _ _ _, _, _ => by
      rw [Tree.piece]
      exact Piece.wrapped_ne_still (by rintro ⟨⟩) _ _ _
  | .rule _ [] _, _, _ => by
      rw [Tree.piece]
      exact Piece.wrapped_ne_still (by rintro ⟨⟩) _ _ _
  | .rule _ (body :: _) tag, hidden, h => by
      rw [Tree.Filled, AllFilled] at h
      rw [Tree.piece]
      exact Piece.wrapped_ne_still (Tree.Filled.piece_ne expand h.1) _ _ _
  | .slot name values suffix tag, hidden, _ => by
      rw [Tree.piece]
      refine Piece.wrapped_ne_still (Piece.ne_still_andThen _ ?_) _ _ _
      exact Piece.andThen_ne_still (by rintro ⟨⟩) _
  | .broken _, _, _ => by
      rw [Tree.piece]
      rintro ⟨⟩

/-- A filled tree ends at another state than it begins. -/
theorem Tree.Filled.exit_ne {t : Tree} (ht : t.Filled) {expand hidden : Bool} {g h : Graph}
    {s x : Nat} (hg : g.Ascending) (hs : s < g.size)
    (hb : build expand hidden g s t = .done h x) : x ≠ s := by
  have hlays := build_lays expand t hg hs hb
  have hne : t.piece expand hidden ≠ .still := ht.piece_ne expand
  generalize t.piece expand hidden = p at hlays hne
  cases hlays with
  | still => exact absurd rfl hne
  | leads hxs _ => exact hxs

/-! ## What readings spell, listed -/

/-- What the readings in a list spell. -/
def spellings (hidden : Bool) (l : List Reading) : List (List Mark) := l.map (Reading.marks hidden)

theorem spellings_node (hidden : Bool) (slot : Option String) (l : List Reading)
    (suffix : Suffix) (tag : Option Tag) :
    spellings hidden (l.map fun r => .node slot [r] suffix tag) =
      ((spellings (hidden || isReplaced suffix tag) l).map
        (· ++ slot.toList.flatMap sourceMarks)).map (Reading.enclose hidden suffix tag) := by
  rw [spellings, spellings, List.map_map, List.map_map, List.map_map]
  exact List.map_congr_left fun r _ => Reading.marks_node_singleton hidden slot r suffix tag

theorem spellings_group (hidden : Bool) (l : List (List Reading)) (suffix : Suffix)
    (tag : Option Tag) :
    spellings hidden (l.map fun rs => .node none rs suffix tag) =
      (l.map (Reading.marksInTurn (hidden || isReplaced suffix tag))).map
        (Reading.enclose hidden suffix tag) := by
  rw [spellings, List.map_map, List.map_map]
  refine List.map_congr_left fun rs _ => ?_
  rw [Function.comp_apply, Function.comp_apply, Reading.marks, Option.toList, List.flatMap_nil,
    List.append_nil]

theorem map_marksInTurn_cons (hidden : Bool) (t : Tree) (ts : List Tree) :
    (readingsInTurn (t :: ts)).map (Reading.marksInTurn hidden) =
      inSequence (spellings hidden t.readings)
        ((readingsInTurn ts).map (Reading.marksInTurn hidden)) := by
  rw [readingsInTurn, inSequence, spellings, List.map_flatMap, List.flatMap_map]
  refine List.flatMap_congr fun r _ => ?_
  rw [List.map_map, List.map_map]
  rfl

/-! ## Building enumerates -/

theorem enumerates_wrap {hidden : Bool} {suffix : Suffix} {tag : Option Tag}
    {l : List (List Mark)} {content : Graph → Nat → Built Nat} {g h : Graph} {s x : Nat}
    (hcontent : ∀ {g s h x}, g.Ascending → s < g.size → content g s = .done h x →
      Enumerates g h s [x] l)
    (hg : g.Ascending) (hs : s < g.size)
    (hb : Built.wrap hidden suffix tag g s content = .done h x) :
    Enumerates g h s [x] (l.map (Reading.enclose hidden suffix tag)) := by
  obtain ⟨k, y, hk, hafter⟩ := Built.andThen_eq_done.mp hb
  have E := enumerates_emitAll (labelsBefore suffix tag) hg hs
  have hs₁ := E.exit_lt hs (List.mem_singleton_self _)
  have F := hcontent E.ascending hs₁ hk
  have hs₂ := F.exit_lt hs₁ (List.mem_singleton_self _)
  cases hafter
  have H := (E.trans F hs).trans
    (enumerates_emitAll (labelsAfter hidden suffix tag) F.ascending hs₂) hs
  rw [inSequence_singleton, inSequence_singleton_right, List.map_map] at H
  exact H

theorem Graph.Enumerates.joined {content : Built (List Nat)} {g h : Graph} {s x : Nat}
    {l : List (List Mark)}
    (hcontent : ∀ {h xs}, content = .done h xs → Enumerates g h s xs l) (hs : s < g.size)
    (hb : content.joined = .done h x) : Enumerates g h s [x] l := by
  obtain ⟨k, xs, hk, hjoin⟩ := Built.andThen_eq_done.mp hb
  cases hjoin
  exact (hcontent hk).join hs

mutual

/-- Building a filled tree enumerates what its readings spell. -/
theorem build_enumerates : ∀ (t : Tree) {hidden : Bool} {g h : Graph} {s x : Nat}, t.Filled →
    g.Ascending → s < g.size → build true hidden g s t = .done h x →
      Enumerates g h s [x] (spellings hidden t.readings)
  | .word text suffix tag, hidden, g, h, s, x, _, hg, hs, hb => by
      rw [build] at hb
      rw [Tree.readings, spellings, List.map_singleton, Reading.marks]
      refine enumerates_wrap (l := [_]) (fun hg hs hword => ?_) hg hs hb
      cases hword
      exact enumerates_addWord hg hs _ _
  | .seq .group items suffix tag, hidden, g, h, s, x, ht, hg, hs, hb => by
      rw [build] at hb
      rw [Tree.Filled] at ht
      rw [Tree.readings, spellings_group]
      exact enumerates_wrap (fun hg hs => buildInTurn_enumerates items ht.2 hg hs) hg hs hb
  | .seq .alternative items suffix tag, hidden, g, h, s, x, ht, hg, hs, hb => by
      rw [build] at hb
      rw [Tree.Filled] at ht
      rw [Tree.readings, spellings_node]
      refine enumerates_wrap (fun hg hs hjoined => ?_) hg hs hb
      have E := Enumerates.joined (fun heach => buildEach_enumerates items ht hg hs heach) hs
        hjoined
      simpa only [Option.toList, List.flatMap_nil, List.append_nil, List.map_id'] using E
  | .rule key [] tag, hidden, g, h, s, x, _, hg, hs, hb => by
      rw [build] at hb
      rw [Tree.readings, spellings_node]
      exact enumerates_wrap (fun _ _ hbody => by cases hbody) hg hs hb
  | .rule key (body :: _) tag, hidden, g, h, s, x, ht, hg, hs, hb => by
      rw [build] at hb
      rw [Tree.Filled, AllFilled] at ht
      rw [Tree.readings, spellings_node]
      refine enumerates_wrap (fun hg hs hbody => ?_) hg hs hb
      have E := build_enumerates body ht.1 hg hs hbody
      simpa only [Option.toList, List.flatMap_nil, List.append_nil, List.map_id'] using E
  | .slot name values suffix tag, hidden, g, h, s, x, ht, hg, hs, hb => by
      rw [build] at hb
      rw [Tree.Filled] at ht
      rw [Tree.readings, spellings_node, Option.toList, List.flatMap_singleton]
      refine enumerates_wrap (fun {g s h x} hg hs hslot => ?_) hg hs hb
      obtain ⟨k, y, hk, hsource⟩ := Built.andThen_eq_done.mp hslot
      cases hsource
      simp only [Bool.not_true, Bool.false_eq_true, if_false] at hk
      split at hk
      · cases hk
      · have E := Enumerates.joined (fun heach => buildEach_enumerates values ht hg hs heach) hs hk
        rw [sourceMarks, ← inSequence_singleton_right]
        exact E.trans (enumerates_emit E.ascending (E.exit_lt hs (List.mem_singleton_self _)) _) hs
  | .broken e, hidden, g, h, s, x, _, _, _, hb => by
      rw [build] at hb
      cases hb

theorem buildInTurn_enumerates : ∀ (ts : List Tree) {hidden : Bool} {g h : Graph} {s x : Nat},
    AllFilled ts → g.Ascending → s < g.size → buildInTurn true hidden g s ts = .done h x →
      Enumerates g h s [x] ((readingsInTurn ts).map (Reading.marksInTurn hidden))
  | [], hidden, g, h, s, x, _, hg, _, hb => by
      rw [buildInTurn] at hb
      cases hb
      exact .refl hg s
  | t :: ts, hidden, g, h, s, x, hts, hg, hs, hb => by
      rw [buildInTurn] at hb
      rw [AllFilled] at hts
      obtain ⟨k, y, hk, hrest⟩ := Built.andThen_eq_done.mp hb
      have E := build_enumerates t hts.1 hg hs hk
      have hy := E.exit_lt hs (List.mem_singleton_self _)
      rw [map_marksInTurn_cons]
      exact E.trans (buildInTurn_enumerates ts hts.2 E.ascending hy hrest) hs

theorem buildEach_enumerates : ∀ (ts : List Tree) {hidden : Bool} {g h : Graph} {s : Nat}
    {xs : List Nat}, AllFilled ts → g.Ascending → s < g.size →
      buildEach true hidden g s ts = .done h xs →
      Enumerates g h s xs (spellings hidden (readingsOfEach ts))
  | [], hidden, g, h, s, xs, _, hg, _, hb => by
      rw [buildEach] at hb
      cases hb
      exact .none hg s
  | t :: ts, hidden, g, h, s, xs, hts, hg, hs, hb => by
      rw [buildEach] at hb
      rw [AllFilled] at hts
      obtain ⟨k, y, hk, hrest⟩ := Built.andThen_eq_done.mp hb
      obtain ⟨k', ys, hk', hdone⟩ := Built.andThen_eq_done.mp hrest
      cases hdone
      have E := build_enumerates t hts.1 hg hs hk
      have hs' := Nat.lt_of_lt_of_le hs E.size_le
      have hy : s ∉ [y] := fun h =>
        hts.1.exit_ne hg hs hk (List.mem_singleton.mp h).symm
      rw [readingsOfEach, spellings, List.map_append]
      exact E.union (buildEach_enumerates ts hts.2 E.ascending hs' hk') hs hy

end

/-! ## The readings of all intents -/

/-- The readings of the sentences of all intents, each with its intent. -/
def readingsOfIntents (t : Table) (l : IntentSentences) : List (String × Reading) :=
  l.flatMap fun p => (readingsOfEach (p.2.map (Sentence.unfold t p.1))).map fun r => (p.1, r)

/-- What the reading of a sentence of an intent spells. -/
def intentMarks (q : String × Reading) : List Mark := intentMark q.1 :: q.2.marks false

theorem buildIntents_enumerates {t : Table} {start : Nat} :
    ∀ (l : List ((String × List Sentence) × EdgeWeight)) {g h : Graph} {xs : List Nat},
      (∀ p ∈ l.map Prod.fst, ∀ s ∈ p.2, (s.unfold t p.1).Filled) →
      g.Ascending → start < g.size → buildIntents t true g start l = .done h xs →
      Enumerates g h start xs ((readingsOfIntents t (l.map Prod.fst)).map intentMarks)
  | [], g, h, xs, _, hg, _, hb => by
      rw [buildIntents] at hb
      cases hb
      exact .none hg start
  | ((intent, sentences), w) :: rest, g, h, xs, hl, hg, hs, hb => by
      rw [buildIntents] at hb
      obtain ⟨k, ys, hk, hrest⟩ := Built.andThen_eq_done.mp hb
      obtain ⟨k', zs, hk', hdone⟩ := Built.andThen_eq_done.mp hrest
      cases hdone
      rw [List.map_cons, List.forall_mem_cons] at hl
      rw [buildIntent_eq] at hk
      obtain ⟨E, hmark⟩ := enter_spec hg hs intent w
      have hentry : Enumerates g _ start [g.size] [(intentMark intent).spelled] :=
        .of_edge ⟨_, E⟩ hs (by rw [hmark, if_pos ⟨rfl, rfl⟩])
      have hsize := hentry.exit_lt hs (List.mem_singleton_self _)
      have hfilled : AllFilled (sentences.map (Sentence.unfold t intent)) :=
        allFilled_iff_forall.mpr (List.forall_mem_map.mpr hl.1)
      have F := buildEach_enumerates _ hfilled hentry.ascending hsize hk
      have H := hentry.trans F hs
      -- every way enters the intent first, so none ends where it begins
      have hys : start ∉ ys := fun hmem => by
        obtain ⟨_, F'⟩ := F.frame
        rcases F'.exits_new start hmem with heq | ⟨hle, -⟩
        · exact Nat.ne_of_lt hs heq
        · exact Nat.not_lt_of_le (Nat.le_trans hentry.size_le hle) hs
      have hspellings : inSequence [(intentMark intent).spelled]
          (spellings false (readingsOfEach (sentences.map (Sentence.unfold t intent)))) =
          ((readingsOfEach (sentences.map (Sentence.unfold t intent))).map
            fun r => (intent, r)).map intentMarks := by
        rw [inSequence_singleton, intentMark_spelled, spellings, List.map_map, List.map_map]
        rfl
      rw [hspellings] at H
      rw [List.map_cons, readingsOfIntents, List.flatMap_cons, List.map_append]
      exact H.union (buildIntents_enumerates rest hl.2 H.ascending
        (Nat.lt_of_lt_of_le hs H.size_le) hk') hs hys

/-- The ways from the start to the final state of a compiled graph, one for each reading. -/
theorem ofSentences_listsWays {l : IntentSentences} {t : Table} {o : CompileOptions} {g : Graph}
    (hg : Graph.ofSentences l t o = .ok g) (hexpand : o.expandSlots = true)
    (hfilled : ∀ p ∈ l, ∀ s ∈ p.2, (s.unfold t p.1).Filled) :
    ∃ final, g.final = some final ∧ ∃ ways, ListsWays g 0 [final] ways ∧
      ways.map Prod.snd = (readingsOfIntents t l).map intentMarks := by
  obtain ⟨ws, h, xs, hlength, hb, rfl⟩ := ofSentences_eq_ok hg
  have hfst := map_fst_zip_of_length_eq hlength
  have hs : 0 < Graph.initial.size := Nat.zero_lt_one
  rw [hexpand] at hb
  have E := (buildIntents_enumerates (l.zip ws) (hfst.symm ▸ hfilled) ascending_initial hs hb).join
    hs
  rw [hfst] at E
  obtain ⟨ways, hways, hmap⟩ := E.listed
  refine ⟨(h.join xs).2, rfl, ways, ⟨hways.nodup, fun w => (hways.mem_iff w).trans ?_⟩, hmap⟩
  -- naming the final state changes no edge
  exact exists_congr fun x => and_congr_right fun _ =>
    ⟨fun hw => hw.congr fun _ _ => rfl, fun hw => hw.congr fun _ _ => rfl⟩

/-! ## Paths and ways -/

/-- Without wildcards an edge hears its word. -/
theorem Edge.hears_iff_exactly {e : Edge} (hwild : e.input ≠ wildcard) {matched : List String} :
    e.Hears {} matched ↔ e.Exactly matched := by
  rw [Hears, Exactly, words]
  constructor
  · rintro ⟨-, ⟨hinput, rfl⟩ | ⟨hinput, token, rfl, hsame⟩⟩
    · rw [if_pos hinput]
    · have htoken : e.input = token := hsame.resolve_left hwild
      rw [if_neg hinput, htoken]
  · rintro rfl
    refine ⟨fun _ _ => rfl, ?_⟩
    by_cases hinput : e.input = ""
    · exact .inl ⟨hinput, if_pos hinput⟩
    · exact .inr ⟨hinput, e.input, if_neg hinput, .inr rfl⟩

namespace Graph

variable {g : Graph}

theorem Follows.imp {R S : Edge → List String → Prop} {a b : Nat} {p : Path}
    (hp : g.Follows R a p b)
    (h : ∀ {c d e matched}, g.edge? c d = some e → R e matched → S e matched) :
    g.Follows S a p b := by
  induction hp with
  | nil => exact .nil _
  | cons he hR _ ih => exact .cons he (h he hR) ih

/-- The states that a path comes to, and what it spells. -/
def wayOf (g : Graph) (p : Path) : List Nat × List Mark := (p.map PathStep.target, g.spelled p)

/-- Without wildcards there are no loops, and a path is a way. -/
theorem Follows.way (hg : g.Ascending) (hwild : g.Inputs (· ≠ wildcard))
    {R : Edge → List String → Prop} {a b : Nat} {p : Path} (hp : g.Follows R a p b) :
    g.Way a (g.wayOf p).1 (g.wayOf p).2 b := by
  induction hp with
  | nil a => exact .refl a
  | @cons a b c e matched p he hR _ ih =>
      have hm := mark?_of_edge? he
      rcases hg.lt_or_loop hm with hlt | ⟨-, hloop⟩
      · rw [wayOf, spelled_cons_of_lt hm hlt]
        exact .step hm hlt ih
      · exact absurd (congrArg Mark.input hloop) (hwild.of_edge? he)

/-- A path that matches word for word is determined by the states that it comes to. -/
theorem Follows.eq_of_targets {a b c : Nat} {p q : Path} (hp : g.Follows Edge.Exactly a p b)
    (hq : g.Follows Edge.Exactly a q c) (h : p.map PathStep.target = q.map PathStep.target) :
    p = q := by
  induction hp generalizing q with
  | nil => exact (List.map_eq_nil_iff.mp h.symm).symm
  | cons he hmatched _ ih =>
      cases hq with
      | nil => cases h
      | cons he' hmatched' hq =>
          obtain ⟨rfl, htargets⟩ := List.cons.inj h
          rw [he] at he'
          cases he'
          obtain rfl := hmatched
          obtain rfl := hmatched'
          rw [ih hq htargets]

/-- For every way there is a path that matches word for word. -/
theorem Way.exists_follows {a b : Nat} {cs : List Nat} {ms : List Mark} (hw : g.Way a cs ms b) :
    ∃ p, g.Follows Edge.Exactly a p b ∧ g.wayOf p = (cs, ms) := by
  induction hw with
  | refl a => exact ⟨[], .nil a, rfl⟩
  | @step a b c m cs ms hm hlt hw ih =>
      obtain ⟨p, hp, hway⟩ := ih
      obtain ⟨hcs, hms⟩ := Prod.ext_iff.mp hway
      obtain ⟨e, he, rfl⟩ := exists_edge? hm
      refine ⟨⟨a, b, e.words⟩ :: p, .cons he rfl hp, Prod.ext ?_ ?_⟩
      · exact congrArg (b :: ·) hcs
      · exact (spelled_cons_of_lt hm hlt _ _).trans (congrArg (e.mark.spelled ++ ·) hms)

/-- What an exact search finds in a graph without wildcards. -/
theorem mem_exactPaths_iff_exactly (hg : g.Ascending) (hwild : g.Inputs (· ≠ wildcard))
    {final : Nat} (hstart : g.start = some 0) (hfinal : g.final = some final)
    {tokens : List String} (hne : tokens ≠ []) {p : Path} :
    p ∈ g.exactPaths {} tokens ↔ g.Follows Edge.Exactly 0 p final ∧ p.tokens = tokens := by
  rw [mem_exactPaths_iff_run hg.valid hg.acyclic hstart hne, Run]
  refine and_congr_left fun _ => ⟨?_, fun hp => ⟨0, final, hstart, hfinal, ?_⟩⟩
  · rintro ⟨start, final', hstart', hfinal', hp⟩
    obtain rfl : 0 = start := Option.some.inj (hstart.symm.trans hstart')
    obtain rfl : final = final' := Option.some.inj (hfinal.symm.trans hfinal')
    exact hp.imp fun he => (Edge.hears_iff_exactly (hwild.of_edge? he)).mp
  · exact hp.imp fun he => (Edge.hears_iff_exactly (hwild.of_edge? he)).mpr

end Graph

/-- What a list of ways spells for some tokens is found, path by path. -/
theorem Graph.ListsWays.perm_exactPaths {g : Graph} (hg : g.Ascending)
    (hwild : g.Inputs (· ≠ wildcard)) {final : Nat} (hstart : g.start = some 0)
    (hfinal : g.final = some final) {tokens : List String} (hne : tokens ≠ [])
    {ways : List (List Nat × List Mark)} (hways : ListsWays g 0 [final] ways) :
    ((g.exactPaths {} tokens).map g.wayOf).Perm
      (ways.filter fun w => heardOf w.2 = tokens) := by
  have hmem : ∀ {p}, p ∈ g.exactPaths {} tokens ↔ _ :=
    mem_exactPaths_iff_exactly hg hwild hstart hfinal hne
  refine (List.perm_ext_iff_of_nodup ?_ (hways.nodup.filter _)).mpr fun w => ?_
  · refine List.Nodup.map_on (fun p hp q hq heq => ?_)
      (pairwise_exactPaths hg.valid hg.acyclic hstart hne).1
    exact (hmem.mp hp).1.eq_of_targets (hmem.mp hq).1 (Prod.ext_iff.mp heq).1
  · rw [List.mem_map, List.mem_filter, hways.mem_iff, decide_eq_true_eq]
    constructor
    · rintro ⟨p, hp, rfl⟩
      obtain ⟨hfollows, htokens⟩ := hmem.mp hp
      refine ⟨⟨final, List.mem_singleton_self final, hfollows.way hg hwild⟩, ?_⟩
      rw [← htokens, hfollows.tokens_eq hg hwild]
      rfl
    · rintro ⟨⟨x, hx, hw⟩, hheard⟩
      obtain rfl := List.mem_singleton.mp hx
      obtain ⟨p, hfollows, hway⟩ := hw.exists_follows
      refine ⟨p, hmem.mpr ⟨hfollows, ?_⟩, hway⟩
      rw [hfollows.tokens_eq hg hwild, ← hheard, ← (Prod.ext_iff.mp hway).2]
      rfl

/-- The exact search in a graph that is compiled from filled sentences without wildcards
finds one path for each reading that hears the tokens, and the path spells the reading. -/
theorem exactPaths_perm_readings {l : IntentSentences} {t : Table} {o : CompileOptions}
    {g : Graph} (hwild : ∀ h ∈ l.heads ++ t.heads, h.word ≠ some wildcard)
    (hexpand : o.expandSlots = true) (hg : Graph.ofSentences l t o = .ok g)
    (hfilled : ∀ p ∈ l, ∀ s ∈ p.2, (s.unfold t p.1).Filled) {tokens : List String}
    (hne : tokens ≠ []) :
    ((g.exactPaths {} tokens).map g.spelled).Perm
      (((readingsOfIntents t l).filter fun q => q.2.heard = tokens).map intentMarks) := by
  have hinputs : g.Inputs (· ≠ wildcard) := inputs_ofSentences (by decide)
    (fun h hh text htext heq => hwild h hh (heq ▸ htext)) hg
  obtain ⟨final, hfinal, ways, hways, hmap⟩ := ofSentences_listsWays hg hexpand hfilled
  have hperm := (hways.perm_exactPaths (ascending_ofSentences hg) hinputs (start_ofSentences hg)
    hfinal hne).map Prod.snd
  have hfilter : (ways.filter fun w => heardOf w.2 = tokens).map Prod.snd =
      (ways.map Prod.snd).filter fun ms => heardOf ms = tokens := by
    rw [List.filter_map]
    rfl
  have hheard : ∀ q : String × Reading, heardOf (intentMarks q) = q.2.heard := fun q => by
    rw [intentMarks, heardOf_intentMark_cons, q.2.heardOf_marks]
  rw [List.map_map, hfilter, hmap, List.filter_map] at hperm
  simp only [Function.comp_def, hheard] at hperm
  exact hperm

end Utterance
