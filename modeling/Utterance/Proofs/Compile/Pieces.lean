import Utterance.Proofs.Compile.Language
import Utterance.Proofs.Graph.Walk

/-!
# Walks through a compiled graph

`Tree.language` says what a tree spells along routes.  A `Piece` also says what
the loops of wildcards add to this: whether a loop is put at the state where the
tree begins, and what its legs to the end spell.  A tree that adds nothing to the
graph is *still*; a loop that is put at its end is also one at its beginning.

`Tree.piece` puts the pieces together in the same way as the builder does, so that
building a tree lays its piece (`build_lays`).  Then the walks of a graph that is
compiled for one intent spell the label of the intent and what one of the pieces
spells after the loops of all (`walk_ofSentences_iff`).
-/

namespace Utterance

open Utterance.Graph

/-! ## Pieces -/

inductive Piece where
  /-- Nothing is added, and the end is the beginning. -/
  | still
  /-- The end is another state.  There is a loop at the beginning if `opens` says so,
  and the legs to the end spell a language. -/
  | leads (opens : Bool) (legs : Language Mark)

namespace Piece

def opens : Piece → Bool
  | still => false
  | leads opens _ => opens

def legs : Piece → Language Mark
  | still => 1
  | leads _ legs => legs

/-- What all walks from the beginning to the end spell, those with loops included. -/
def walks (p : Piece) : Language Mark := loops p.opens * p.legs

def andThen : Piece → Piece → Piece
  | still, q => q
  | leads opens legs, q => leads opens (legs * q.walks)

/-- Branches between the same states, which share the loop where they begin. -/
def oneOf (ps : List Piece) : Piece := leads (ps.any opens) (ps.map legs).sum

/-- Labels that are said one after the other. -/
def said : List String → Piece
  | [] => still
  | label :: labels => (leads false {saidMarks [label]}).andThen (said labels)

/-- What suffix and tag say around a piece. -/
def wrapped (hidden : Bool) (suffix : Suffix) (tag : Option Tag) (p : Piece) : Piece :=
  ((said (labelsBefore suffix tag)).andThen p).andThen (said (labelsAfter hidden suffix tag))

@[simp] theorem walks_still : still.walks = 1 := by
  rw [walks, opens, legs, loops_false, mul_one]

@[simp] theorem walks_andThen (p q : Piece) : (p.andThen q).walks = p.walks * q.walks := by
  cases p with
  | still => rw [walks_still, one_mul, andThen]
  | leads opens legs => exact (mul_assoc (loops opens) legs q.walks).symm

@[simp] theorem walks_said (labels : List String) : (said labels).walks = {saidMarks labels} := by
  induction labels with
  | nil => exact walks_still
  | cons label labels ih =>
      rw [said, walks_andThen, ih, walks, opens, legs, loops_false, one_mul,
        singleton_mul_singleton, ← saidMarks_append, List.singleton_append]

theorem walks_wrapped (hidden : Bool) (suffix : Suffix) (tag : Option Tag) (p : Piece) :
    (p.wrapped hidden suffix tag).walks = wrappedMarks hidden suffix tag p.walks := by
  rw [wrapped, walks_andThen, walks_andThen, walks_said, walks_said, wrappedMarks]

theorem walks_oneOf_singleton (p : Piece) : (oneOf [p]).walks = p.walks := by
  rw [oneOf, walks, walks]
  simp [opens, legs]

end Piece

mutual

/-- What building a tree adds to a graph. -/
def Tree.piece (expand hidden : Bool) : Tree → Piece
  | .word text suffix tag =>
    .wrapped hidden suffix tag
      (.leads (text == wildcard) {wordMarks (hidden || isReplaced suffix tag) text})
  | .seq .group items suffix tag =>
    .wrapped hidden suffix tag (pieceInTurn expand (hidden || isReplaced suffix tag) items)
  | .seq .alternative items suffix tag =>
    .wrapped hidden suffix tag (.oneOf (piecesOf expand (hidden || isReplaced suffix tag) items))
  | .rule _ bodies tag =>
    .wrapped hidden {} tag
      (match bodies with
      | [] => .leads false 0
      | body :: _ => Tree.piece expand (hidden || isReplaced {} tag) body)
  | .slot name values suffix tag =>
    .wrapped hidden suffix tag
      (.andThen
        (if expand then .oneOf (piecesOf expand (hidden || isReplaced suffix tag) values)
          else .still)
        (.said [(Control.source (slotBase name)).text]))
  | .broken _ => .leads false 0

/-- What building trees one after the other adds. -/
def pieceInTurn (expand hidden : Bool) : List Tree → Piece
  | [] => .still
  | t :: ts => (Tree.piece expand hidden t).andThen (pieceInTurn expand hidden ts)

def piecesOf (expand hidden : Bool) : List Tree → List Piece
  | [] => []
  | t :: ts => Tree.piece expand hidden t :: piecesOf expand hidden ts

end

/-- The tree puts a loop where it begins: a wildcard is the first that it hears, and nothing
is said before. -/
def Tree.opens (expand : Bool) (t : Tree) : Bool := (t.piece expand false).opens

theorem piecesOf_eq_map (expand hidden : Bool) (ts : List Tree) :
    piecesOf expand hidden ts = ts.map (Tree.piece expand hidden) := by
  induction ts with
  | nil => rfl
  | cons t ts ih => rw [piecesOf, ih, List.map_cons]

/-! ## Laying pieces -/

/-- The graph `h` is `g` with a piece added between the states `s` and `x`. -/
inductive Graph.Lays (g : Graph) (s : Nat) : Graph → Nat → Piece → Prop where
  | still : Lays g s g s .still
  | leads {h : Graph} {x : Nat} {opens : Bool} {legs : Language Mark} :
      x ≠ s → Spreads g h s [x] opens legs → Lays g s h x (.leads opens legs)

namespace Graph.Lays

variable {g h k : Graph} {s x y : Nat} {p q : Piece}

theorem spreads (P : g.Lays s h x p) (hg : g.Ascending) : Spreads g h s [x] p.opens p.legs := by
  cases P with
  | still => exact .refl hg s
  | leads _ S => exact S

theorem ascending (P : g.Lays s h x p) (hg : g.Ascending) : h.Ascending := (P.spreads hg).ascending

theorem exit_lt (P : g.Lays s h x p) (hg : g.Ascending) (hs : s < g.size) : x < h.size :=
  (P.spreads hg).exit_lt hs (List.mem_singleton_self x)

/-- The walks between the ends of a piece, if there was no loop where it begins. -/
theorem walks (P : g.Lays s h x p) (hg : g.Ascending) (hloop : g.hasLoop s = false)
    {ms : List Mark} : h.Walk s ms x ↔ ms ∈ p.walks := (P.spreads hg).walks hloop

theorem andThen (P : g.Lays s h x p) (Q : h.Lays x k y q) (hs : s < g.size) :
    g.Lays s k y (p.andThen q) := by
  cases P with
  | still => exact Q
  | leads hxs S =>
      cases Q with
      | still =>
          rw [Piece.andThen, Piece.walks_still, mul_one]
          exact .leads hxs S
      | leads hyx T =>
          have hys : y ≠ s := by
            obtain ⟨_, E⟩ := S.frame
            obtain ⟨_, F⟩ := T.frame
            have hy := (F.exits_new y (List.mem_singleton_self y)).resolve_left hyx
            exact Nat.ne_of_gt (Nat.lt_of_lt_of_le hs (Nat.le_trans E.size_le hy.1))
          exact .leads hys (S.trans T hs hxs fun z hz => List.mem_singleton.mp hz ▸ hyx)

theorem oneOf {ps : List Piece} {xs : List Nat}
    (S : Spreads g h s xs (ps.any Piece.opens) (ps.map Piece.legs).sum) (hs : s < g.size) :
    g.Lays s (h.join xs).1 (h.join xs).2 (.oneOf ps) := by
  obtain ⟨_, E⟩ := S.frame
  exact .leads (Nat.ne_of_gt (Nat.lt_of_lt_of_le hs E.size_le)) (S.join hs)

end Graph.Lays

theorem lays_emit {g : Graph} (hg : g.Ascending) {s : Nat} (hs : s < g.size) (label : String) :
    g.Lays s (g.emit s label).1 (g.emit s label).2 (.leads false {saidMarks [label]}) :=
  .leads (Nat.ne_of_gt hs) (spreads_emit hg hs label)

theorem lays_emitAll : ∀ (labels : List String) {g : Graph} {s : Nat}, g.Ascending → s < g.size →
    g.Lays s (g.emitAll s labels).1 (g.emitAll s labels).2 (.said labels)
  | [], _, _, _, _ => .still
  | label :: labels, _, _, hg, hs => by
      have P := lays_emit hg hs label
      exact P.andThen (lays_emitAll labels (P.ascending hg) (P.exit_lt hg hs)) hs

theorem lays_wrap {hidden : Bool} {suffix : Suffix} {tag : Option Tag} {p : Piece}
    {content : Graph → Nat → Built Nat} {g h : Graph} {s x : Nat}
    (hcontent : ∀ {g s h x}, g.Ascending → s < g.size → content g s = .done h x →
      g.Lays s h x p)
    (hg : g.Ascending) (hs : s < g.size)
    (hb : Built.wrap hidden suffix tag g s content = .done h x) :
    g.Lays s h x (p.wrapped hidden suffix tag) := by
  obtain ⟨k, y, hk, hafter⟩ := Built.andThen_eq_done.mp hb
  have P := (lays_emitAll (labelsBefore suffix tag) hg hs)
  have Q := P.andThen (hcontent (P.ascending hg) (P.exit_lt hg hs) hk) hs
  cases hafter
  exact Q.andThen (lays_emitAll _ (Q.ascending hg) (Q.exit_lt hg hs)) hs

theorem Graph.Lays.joined {content : Built (List Nat)} {g h : Graph} {s x : Nat}
    {ps : List Piece}
    (hcontent : ∀ {h xs}, content = .done h xs →
      Spreads g h s xs (ps.any Piece.opens) (ps.map Piece.legs).sum)
    (hs : s < g.size) (hb : content.joined = .done h x) : g.Lays s h x (.oneOf ps) := by
  obtain ⟨k, xs, hk, hjoin⟩ := Built.andThen_eq_done.mp hb
  cases hjoin
  exact .oneOf (hcontent hk) hs

mutual

/-- Building a tree lays its piece. -/
theorem build_lays (expand : Bool) : ∀ (t : Tree) {hidden : Bool} {g h : Graph} {s x : Nat},
    g.Ascending → s < g.size → build expand hidden g s t = .done h x →
      g.Lays s h x (t.piece expand hidden)
  | .word text suffix tag, hidden, g, h, s, x, hg, hs, hb => by
      rw [build] at hb
      refine lays_wrap (fun hg hs hword => ?_) hg hs hb
      cases hword
      exact .leads (Nat.ne_of_gt hs) (spreads_addWord hg hs _ _)
  | .seq .group items suffix tag, hidden, g, h, s, x, hg, hs, hb => by
      rw [build] at hb
      exact lays_wrap (fun hg hs => buildInTurn_lays expand items hg hs) hg hs hb
  | .seq .alternative items suffix tag, hidden, g, h, s, x, hg, hs, hb => by
      rw [build] at hb
      exact lays_wrap
        (fun hg hs => Lays.joined (fun heach => buildEach_spreads expand items hg hs heach) hs)
        hg hs hb
  | .rule key [] tag, hidden, g, h, s, x, hg, hs, hb => by
      rw [build] at hb
      exact lays_wrap (fun _ _ hbody => by cases hbody) hg hs hb
  | .rule key (body :: _) tag, hidden, g, h, s, x, hg, hs, hb => by
      rw [build] at hb
      exact lays_wrap (fun hg hs => build_lays expand body hg hs) hg hs hb
  | .slot name values suffix tag, hidden, g, h, s, x, hg, hs, hb => by
      rw [build] at hb
      refine lays_wrap (fun {g s h x} hg hs hslot => ?_) hg hs hb
      obtain ⟨k, y, hk, hsource⟩ := Built.andThen_eq_done.mp hslot
      cases hsource
      have P : g.Lays s k y (if expand then
          .oneOf (piecesOf expand (hidden || isReplaced suffix tag) values) else .still) := by
        cases expand with
        | false =>
            cases hk
            exact .still
        | true =>
            simp only [Bool.not_true, Bool.false_eq_true, if_false] at hk
            split at hk
            · cases hk
            · exact Lays.joined (fun heach => buildEach_spreads true values hg hs heach) hs hk
      exact P.andThen (lays_emitAll [_] (P.ascending hg) (P.exit_lt hg hs)) hs
  | .broken e, hidden, g, h, s, x, _, _, hb => by
      rw [build] at hb
      cases hb

theorem buildInTurn_lays (expand : Bool) : ∀ (ts : List Tree) {hidden : Bool} {g h : Graph}
    {s x : Nat}, g.Ascending → s < g.size → buildInTurn expand hidden g s ts = .done h x →
      g.Lays s h x (pieceInTurn expand hidden ts)
  | [], hidden, g, h, s, x, _, _, hb => by
      rw [buildInTurn] at hb
      cases hb
      exact .still
  | t :: ts, hidden, g, h, s, x, hg, hs, hb => by
      rw [buildInTurn] at hb
      obtain ⟨k, y, hk, hrest⟩ := Built.andThen_eq_done.mp hb
      have P := build_lays expand t hg hs hk
      exact P.andThen (buildInTurn_lays expand ts (P.ascending hg) (P.exit_lt hg hs) hrest) hs

theorem buildEach_spreads (expand : Bool) : ∀ (ts : List Tree) {hidden : Bool} {g h : Graph}
    {s : Nat} {xs : List Nat}, g.Ascending → s < g.size →
      buildEach expand hidden g s ts = .done h xs →
      Spreads g h s xs ((piecesOf expand hidden ts).any Piece.opens)
        ((piecesOf expand hidden ts).map Piece.legs).sum
  | [], hidden, g, h, s, xs, hg, _, hb => by
      rw [buildEach] at hb
      cases hb
      exact .none hg s
  | t :: ts, hidden, g, h, s, xs, hg, hs, hb => by
      rw [buildEach] at hb
      obtain ⟨k, y, hk, hrest⟩ := Built.andThen_eq_done.mp hb
      obtain ⟨k', ys, hk', hdone⟩ := Built.andThen_eq_done.mp hrest
      cases hdone
      have S := (build_lays expand t hg hs hk).spreads hg
      obtain ⟨_, E⟩ := S.frame
      have T := buildEach_spreads expand ts S.ascending (Nat.lt_of_lt_of_le hs E.size_le) hk'
      exact S.union T hs

end

/-! ## The graph of one intent -/

/-- What building the sentences of an intent adds between the start and the final state. -/
def intentPiece (t : Table) (expand : Bool) (intent : String) (sentences : List Sentence) :
    Piece :=
  (Piece.leads false {[intentMark intent]}).andThen
    (.oneOf (sentences.map fun s => (s.unfold t intent).piece expand false))

/-- In the graph of one intent the walks from the start to the final state pass the intent's
label, then the loops of all sentences and the legs of one of them. -/
theorem walk_ofSentences_iff {intent : String} {sentences : List Sentence} {t : Table}
    {o : CompileOptions} {g : Graph} (hg : Graph.ofSentences [(intent, sentences)] t o = .ok g) :
    ∃ final, g.final = some final ∧ ∀ ms, g.Walk 0 ms final ↔
      ms ∈ (intentPiece t o.expandSlots intent sentences).walks := by
  obtain ⟨ws, h, xs, hlength, hb, rfl⟩ := ofSentences_eq_ok hg
  obtain ⟨w, rfl⟩ := List.length_eq_one_iff.mp hlength
  have hs : 0 < Graph.initial.size := Nat.zero_lt_one
  rw [List.zip_cons_cons, List.zip_nil_right, buildIntents] at hb
  obtain ⟨k, ys, hk, hrest⟩ := Built.andThen_eq_done.mp hb
  rw [buildIntents] at hrest
  cases hrest
  rw [List.append_nil] at hg ⊢
  rw [buildIntent_eq] at hk
  obtain ⟨E, hmark⟩ := enter_spec ascending_initial hs intent w
  have P : Graph.initial.Lays 0 (Graph.initial.enter 0 intent w) Graph.initial.size
      (.leads false {[intentMark intent]}) := by
    have hloop : ∀ a, (Graph.initial.enter 0 intent w).hasLoop a = false := fun a => by
      rw [hasLoop_eq_false, hmark, mark?_initial, if_neg]
      rintro ⟨rfl, h⟩
      exact Nat.ne_of_lt hs h
    have hentry : (Graph.initial.enter 0 intent w).mark? 0 Graph.initial.size =
        some (intentMark intent) := by
      rw [hmark, if_pos ⟨rfl, rfl⟩]
    refine .leads (Nat.ne_of_gt hs) ?_
    rw [← intentMark_spelled]
    refine .of_edge E hs hentry (hloop _) ?_
    rw [hloop, Bool.or_false, hasLoop, mark?_initial]
    rfl
  have hsize := P.exit_lt ascending_initial hs
  have S := buildEach_spreads o.expandSlots _ E.ascending hsize hk
  rw [piecesOf_eq_map, List.map_map] at S
  have Q := P.andThen (.oneOf S hsize) hs
  refine ⟨(h.join ys).2, rfl, fun ms => ?_⟩
  have hloop : Graph.initial.hasLoop 0 = false := hasLoop_eq_false.mpr (mark?_initial 0 0)
  rw [intentPiece, ← Function.comp_def, ← Q.walks ascending_initial hloop]
  -- naming the final state changes no edge
  exact ⟨fun hw => hw.congr (ascending_ofSentences hg) fun _ _ _ hm => hm,
    fun hw => hw.congr (Q.ascending ascending_initial) fun _ _ _ hm => hm⟩

end Utterance
