import Utterance.Proofs.Compile.Filling
import Utterance.Proofs.Compile.Heads

/-!
# Templates with other words

A pass over the templates puts an expression in the place of every word, in the sentences and
in the table alike, and leaves everything else as it is.  What holds for each word then holds
for the whole: what is written in the new templates (`forall_heads_mapWords`), the trees that
they unfold to (`unfold_mapWords`), and their readings, which are the *variants* of the old
ones (`reads_mapWords`).
-/

namespace Utterance

section

variable {f : String → Suffix → Option Tag → Expr}

theorem Expr.mapWordsOf_eq_map (es : List Expr) :
    mapWordsOf f es = es.map (mapWords f) := by
  induction es with
  | nil => rfl
  | cons e es ih => rw [mapWordsOf, ih, List.map_cons]

/-- Sentences and tables are rewritten expression by expression. -/
theorem Sentence.toExpr_mapWords (s : Sentence) :
    (s.mapWords f).toExpr = s.toExpr.mapWords f := by
  rw [toExpr, toExpr, Expr.mapWords]
  rfl

theorem Table.get?_mapWords {t : Table} {key : String} {values : List Expr}
    (h : t.get? key = some values) :
    (t.mapExprs (Expr.mapWords f)).get? key = some (Expr.mapWordsOf f values) := by
  rw [get?_mapExprs, h, Expr.mapWordsOf_eq_map]
  rfl

theorem Table.exists_get?_of_mapWords {t : Table} {key : String} {values : List Expr}
    (h : (t.mapExprs (Expr.mapWords f)).get? key = some values) :
    ∃ old, t.get? key = some old ∧ values = Expr.mapWordsOf f old := by
  rw [get?_mapExprs] at h
  obtain ⟨old, hold, rfl⟩ := Option.map_eq_some_iff.mp h
  exact ⟨old, hold, (Expr.mapWordsOf_eq_map old).symm⟩

/-! ## What is written in them -/

section

variable {P Q : Head → Prop}

mutual

/-- A property of all that is written becomes another one if it does so at each word. -/
theorem forall_heads_mapWords
    (hnode : ∀ suffix tag, P ⟨none, suffix, tag⟩ → Q ⟨none, suffix, tag⟩)
    (hword : ∀ text suffix tag, P ⟨some text, suffix, tag⟩ → ∀ h ∈ (f text suffix tag).heads, Q h) :
    ∀ e : Expr, (∀ h ∈ e.heads, P h) → ∀ h ∈ (e.mapWords f).heads, Q h
  | .word text suffix tag, he => by
      rw [Expr.mapWords]
      exact hword text suffix tag (he _ (Expr.head_mem_heads _))
  | .seq kind text items suffix tag, he => by
      intro h hh
      rw [Expr.mapWords] at hh
      rcases Expr.mem_heads_seq.mp hh with rfl | ⟨e, hmem, hh⟩
      · exact hnode suffix tag (he _ (Expr.head_mem_heads _))
      · exact forall_heads_mapWordsOf hnode hword items
          (fun e hmem h hh => he h (Expr.mem_heads_seq.mpr (.inr ⟨e, hmem, hh⟩))) e hmem h hh
  | .rule ref tag, he => by
      intro h hh
      rw [Expr.mapWords] at hh
      obtain rfl := List.mem_singleton.mp hh
      exact hnode {} tag (he _ (Expr.head_mem_heads _))
  | .slot text name suffix tag, he => by
      intro h hh
      rw [Expr.mapWords] at hh
      obtain rfl := List.mem_singleton.mp hh
      exact hnode suffix tag (he _ (Expr.head_mem_heads _))

theorem forall_heads_mapWordsOf
    (hnode : ∀ suffix tag, P ⟨none, suffix, tag⟩ → Q ⟨none, suffix, tag⟩)
    (hword : ∀ text suffix tag, P ⟨some text, suffix, tag⟩ → ∀ h ∈ (f text suffix tag).heads, Q h) :
    ∀ es : List Expr, (∀ e ∈ es, ∀ h ∈ e.heads, P h) →
    ∀ e ∈ Expr.mapWordsOf f es, ∀ h ∈ e.heads, Q h
  | [], _ => fun _ he => (List.not_mem_nil he).elim
  | e :: es, hes => by
      rw [Expr.mapWordsOf, List.forall_mem_cons]
      rw [List.forall_mem_cons] at hes
      exact ⟨forall_heads_mapWords hnode hword e hes.1,
        forall_heads_mapWordsOf hnode hword es hes.2⟩

end

section

variable (hnode : ∀ suffix tag, P ⟨none, suffix, tag⟩ → Q ⟨none, suffix, tag⟩)
  (hword : ∀ text suffix tag, P ⟨some text, suffix, tag⟩ → ∀ h ∈ (f text suffix tag).heads, Q h)
include hnode hword

theorem IntentSentences.forall_heads_mapWords {l : IntentSentences} (hl : ∀ h ∈ l.heads, P h) :
    ∀ h ∈ (l.mapWords f).heads, Q h := by
  intro h hh
  obtain ⟨_, hmapped, hh⟩ := List.mem_flatMap.mp hh
  obtain ⟨p, hp, rfl⟩ := List.mem_map.mp hmapped
  obtain ⟨_, hmapped, hh⟩ := List.mem_flatMap.mp hh
  obtain ⟨s, hs, rfl⟩ := List.mem_map.mp hmapped
  rw [Sentence.toExpr_mapWords] at hh
  exact Utterance.forall_heads_mapWords hnode hword s.toExpr (fun h hh => hl h (mem_heads hp hs hh))
    h hh

theorem Table.forall_heads_mapWords {t : Table} (ht : ∀ h ∈ t.heads, P h) :
    ∀ h ∈ (t.mapExprs (Expr.mapWords f)).heads, Q h := by
  intro h hh
  obtain ⟨_, hmapped, hh⟩ := List.mem_flatMap.mp hh
  obtain ⟨entry, hentry, rfl⟩ := List.mem_map.mp hmapped
  obtain ⟨_, hmapped, hh⟩ := List.mem_flatMap.mp hh
  obtain ⟨e, he, rfl⟩ := List.mem_map.mp hmapped
  exact Utterance.forall_heads_mapWords hnode hword e (fun h hh => ht h (List.mem_flatMap.mpr
    ⟨entry, hentry, List.mem_flatMap.mpr ⟨e, he, hh⟩⟩)) h hh

end

end

/-! ## What they unfold to -/

mutual

/-- The tree with other trees in the place of its words. -/
def Tree.mapWords (F : String → Suffix → Option Tag → Tree) : Tree → Tree
  | .word text suffix tag => F text suffix tag
  | .seq kind items suffix tag => .seq kind (mapWordsOf F items) suffix tag
  | .rule key bodies tag => .rule key (mapWordsOf F bodies) tag
  | .slot name values suffix tag => .slot name (mapWordsOf F values) suffix tag
  | .broken e => .broken e

def Tree.mapWordsOf (F : String → Suffix → Option Tag → Tree) : List Tree → List Tree
  | [] => []
  | t :: ts => Tree.mapWords F t :: Tree.mapWordsOf F ts

end

/-- If what is put in the place of words refers to nothing, references are unfolded as before. -/
theorem unfold_mapWords {F : String → Suffix → Option Tag → Tree}
    (hf : ∀ t c text suffix tag, unfold t c (f text suffix tag) = F text suffix tag) (t : Table) :
    ∀ (c : Scope) (e : Expr),
      unfold (t.mapExprs (Expr.mapWords f)) c (e.mapWords f) = (unfold t c e).mapWords F := by
  have hbroken : ∀ err, Tree.mapWordsOf F [.broken err] = [.broken err] := fun err => by
    rw [Tree.mapWordsOf, Tree.mapWords, Tree.mapWordsOf]
  have hnone : ∀ {key : String}, t.get? key = none →
      (t.mapExprs (Expr.mapWords f)).get? key = none := fun h => by
    rw [Table.get?_mapExprs, h, Option.map_none]
  refine (unfold.mutual_induct t
    (fun c e => unfold (t.mapExprs (Expr.mapWords f)) c (e.mapWords f) = (unfold t c e).mapWords F)
    (fun c es => unfoldAll (t.mapExprs (Expr.mapWords f)) c (Expr.mapWordsOf f es) =
      Tree.mapWordsOf F (unfoldAll t c es))
    ?word ?seq ?ruleMissing ?ruleClosed ?ruleOpen ?slotMissing ?slotClosed ?slotOpen ?nil
    ?cons).1
  case word =>
    intro c text suffix tag
    rw [Expr.mapWords, hf, unfold, Tree.mapWords]
  case seq =>
    intro c kind text items suffix tag ih
    rw [Expr.mapWords, unfold, unfold, ih, Tree.mapWords]
  case ruleMissing =>
    intro c ref tag key hget
    rw [Expr.mapWords, unfold_rule_of_none hget, unfold_rule_of_none (hnone hget), Tree.mapWords,
      hbroken]
  case ruleClosed =>
    intro c ref tag key bodies hbodies hclosed ih
    rw [Expr.mapWords, unfold_rule_of_get? hbodies,
      unfold_rule_of_get? (Table.get?_mapWords hbodies),
      hclosed, if_neg Bool.false_ne_true, if_neg Bool.false_ne_true, ih, Tree.mapWords]
  case ruleOpen =>
    intro c ref tag key bodies hbodies hopen
    rw [Expr.mapWords, unfold_rule_of_get? hbodies,
      unfold_rule_of_get? (Table.get?_mapWords hbodies),
      if_pos (Bool.of_not_eq_false hopen), if_pos (Bool.of_not_eq_false hopen), Tree.mapWords,
      hbroken]
  case slotMissing =>
    intro c text name suffix tag key hget
    rw [Expr.mapWords, unfold_slot_of_none hget, unfold_slot_of_none (hnone hget), Tree.mapWords,
      hbroken]
  case slotClosed =>
    intro c text name suffix tag key values hvalues hclosed ih
    rw [Expr.mapWords, unfold_slot_of_get? hvalues,
      unfold_slot_of_get? (Table.get?_mapWords hvalues),
      hclosed, if_neg Bool.false_ne_true, if_neg Bool.false_ne_true, ih, Tree.mapWords]
  case slotOpen =>
    intro c text name suffix tag key values hvalues hopen
    rw [Expr.mapWords, unfold_slot_of_get? hvalues,
      unfold_slot_of_get? (Table.get?_mapWords hvalues),
      if_pos (Bool.of_not_eq_false hopen), if_pos (Bool.of_not_eq_false hopen), Tree.mapWords,
      hbroken]
  case nil =>
    intro c
    rw [Expr.mapWordsOf, unfoldAll, unfoldAll, Tree.mapWordsOf]
  case cons =>
    intro c e es ihe ihes
    rw [Expr.mapWordsOf, unfoldAll, unfoldAll, ihe, ihes, Tree.mapWordsOf]

section

variable {F : String → Suffix → Option Tag → Tree} {expand : Bool}

mutual

/-- Building stops where it did, if it stops at nothing that words are replaced by. -/
theorem buildable_mapWords (hF : ∀ text suffix tag, (F text suffix tag).Buildable expand) :
    ∀ t : Tree, (t.mapWords F).Buildable expand ↔ t.Buildable expand
  | .word text suffix tag => by
      rw [Tree.mapWords, Tree.Buildable]
      exact iff_of_true (hF text suffix tag) trivial
  | .seq _ items _ _ => by
      rw [Tree.mapWords, Tree.Buildable, Tree.Buildable, allBuildable_mapWordsOf hF items]
  | .rule _ [] _ => by rw [Tree.mapWords, Tree.mapWordsOf]
  | .rule _ (body :: _) _ => by
      rw [Tree.mapWords, Tree.mapWordsOf, Tree.Buildable, Tree.Buildable,
        buildable_mapWords hF body]
  | .slot _ values _ _ => by
      have hnil : Tree.mapWordsOf F values = [] ↔ values = [] := by
        cases values <;> simp [Tree.mapWordsOf]
      rw [Tree.mapWords, Tree.Buildable, Tree.Buildable, allBuildable_mapWordsOf hF values, Ne,
        hnil]
  | .broken _ => by rw [Tree.mapWords]

theorem allBuildable_mapWordsOf (hF : ∀ text suffix tag, (F text suffix tag).Buildable expand) :
    ∀ ts : List Tree, AllBuildable expand (Tree.mapWordsOf F ts) ↔ AllBuildable expand ts
  | [] => by rw [Tree.mapWordsOf]
  | t :: ts => by
      rw [Tree.mapWordsOf, AllBuildable, AllBuildable, buildable_mapWords hF t,
        allBuildable_mapWordsOf hF ts]

end

end

end

/-! ## Variants of readings -/

namespace Reading

mutual

/-- The readings that come from one by taking a variant of each of its words. -/
def variants (w : String → Suffix → Option Tag → List Reading) : Reading → List Reading
  | word text suffix tag => w text suffix tag
  | node slot parts suffix tag => (variantsInTurn w parts).map fun rs => node slot rs suffix tag

def variantsInTurn (w : String → Suffix → Option Tag → List Reading) :
    List Reading → List (List Reading)
  | [] => [[]]
  | r :: rs => (variants w r).flatMap fun r' => (variantsInTurn w rs).map (r' :: ·)

end

variable {w : String → Suffix → Option Tag → List Reading}

theorem mem_variantsInTurn_cons {r : Reading} {rs rs' : List Reading} :
    rs' ∈ variantsInTurn w (r :: rs) ↔
      ∃ v ∈ r.variants w, ∃ vs ∈ variantsInTurn w rs, rs' = v :: vs := by
  simp only [variantsInTurn, List.mem_flatMap, List.mem_map, eq_comm]

theorem mem_variants_node {slot : Option String} {parts : List Reading} {suffix : Suffix}
    {tag : Option Tag} {r' : Reading} :
    r' ∈ (node slot parts suffix tag).variants w ↔
      ∃ rs ∈ variantsInTurn w parts, r' = node slot rs suffix tag := by
  simp only [variants, List.mem_map, eq_comm]

theorem mem_variants_node_singleton {slot : Option String} {r : Reading} {suffix : Suffix}
    {tag : Option Tag} {r' : Reading} :
    r' ∈ (node slot [r] suffix tag).variants w ↔
      ∃ v ∈ r.variants w, r' = node slot [v] suffix tag := by
  rw [mem_variants_node]
  constructor
  · rintro ⟨_, hrs, rfl⟩
    obtain ⟨v, hv, vs, hvs, rfl⟩ := mem_variantsInTurn_cons.mp hrs
    obtain rfl := List.mem_singleton.mp hvs
    exact ⟨v, hv, rfl⟩
  · rintro ⟨v, hv, rfl⟩
    exact ⟨[v], mem_variantsInTurn_cons.mpr ⟨v, hv, [], List.mem_singleton_self _, rfl⟩, rfl⟩

end Reading

section

variable {f : String → Suffix → Option Tag → Expr}
  {w : String → Suffix → Option Tag → List Reading} {t : Table}

mutual

/-- Variants of readings are readings of the rewritten templates. -/
theorem Reads.mapWords
    (hf : ∀ t here text suffix tag r, Reads t here (f text suffix tag) r ↔ r ∈ w text suffix tag) :
    ∀ {here : String} {e : Expr} {r : Reading}, Reads t here e r → ∀ v ∈ r.variants w,
      Reads (t.mapExprs (Expr.mapWords f)) here (e.mapWords f) v
  | here, _, _, .word, v, hv => by
      rw [Expr.mapWords]
      exact (hf _ here _ _ _ v).mpr hv
  | _, _, _, .group hrs, v, hv => by
      obtain ⟨us, hus, rfl⟩ := Reading.mem_variants_node.mp hv
      rw [Expr.mapWords]
      exact .group (ReadsInTurn.mapWords hf hrs us hus)
  | _, _, _, .alternative he hr, v, hv => by
      obtain ⟨u, hu, rfl⟩ := Reading.mem_variants_node_singleton.mp hv
      rw [Expr.mapWords, Expr.mapWordsOf_eq_map]
      exact .alternative (List.mem_map_of_mem he) (Reads.mapWords hf hr u hu)
  | _, _, _, .rule hbodies hr, v, hv => by
      obtain ⟨u, hu, rfl⟩ := Reading.mem_variants_node_singleton.mp hv
      rw [Expr.mapWords]
      exact .rule (Table.get?_mapWords hbodies) (Reads.mapWords hf hr u hu)
  | _, _, _, .slot hvalues he hr, v, hv => by
      obtain ⟨u, hu, rfl⟩ := Reading.mem_variants_node_singleton.mp hv
      have hmem := List.mem_map_of_mem (f := Expr.mapWords f) he
      rw [← Expr.mapWordsOf_eq_map] at hmem
      rw [Expr.mapWords]
      exact .slot (Table.get?_mapWords hvalues) hmem (Reads.mapWords hf hr u hu)

theorem ReadsInTurn.mapWords
    (hf : ∀ t here text suffix tag r, Reads t here (f text suffix tag) r ↔ r ∈ w text suffix tag) :
    ∀ {here : String} {es : List Expr} {rs : List Reading}, ReadsInTurn t here es rs →
      ∀ vs ∈ Reading.variantsInTurn w rs,
      ReadsInTurn (t.mapExprs (Expr.mapWords f)) here (Expr.mapWordsOf f es) vs
  | _, _, _, .nil, vs, hvs => by
      obtain rfl := List.mem_singleton.mp hvs
      rw [Expr.mapWordsOf]
      exact .nil
  | _, _, _, .cons hr hrs, vs, hvs => by
      obtain ⟨u, hu, us, hus, rfl⟩ := Reading.mem_variantsInTurn_cons.mp hvs
      rw [Expr.mapWordsOf]
      exact .cons (Reads.mapWords hf hr u hu) (ReadsInTurn.mapWords hf hrs us hus)

end

mutual

/-- The rewritten templates have no other readings. -/
theorem Reads.of_mapWords
    (hf : ∀ t here text suffix tag r, Reads t here (f text suffix tag) r ↔ r ∈ w text suffix tag) :
    ∀ {v : Reading} {here : String} {e : Expr},
      Reads (t.mapExprs (Expr.mapWords f)) here (e.mapWords f) v →
      ∃ r, Reads t here e r ∧ v ∈ r.variants w
  | v, here, .word text suffix tag, h => by
      rw [Expr.mapWords] at h
      exact ⟨_, .word, (hf _ here _ _ _ v).mp h⟩
  | .node _ _ _ _, _, .seq .group text items suffix tag, h => by
      rw [Expr.mapWords] at h
      cases h with
      | group hrs =>
          obtain ⟨rs, hrs, hvs⟩ := ReadsInTurn.of_mapWords hf hrs
          exact ⟨_, .group hrs, Reading.mem_variants_node.mpr ⟨_, hvs, rfl⟩⟩
  | .node _ [v] _ _, _, .seq .alternative text items suffix tag, h => by
      rw [Expr.mapWords, Expr.mapWordsOf_eq_map] at h
      cases h with
      | alternative he hr =>
          obtain ⟨e, hmem, rfl⟩ := List.mem_map.mp he
          obtain ⟨r, hr, hv⟩ := Reads.of_mapWords hf hr
          exact ⟨_, .alternative hmem hr, Reading.mem_variants_node_singleton.mpr ⟨_, hv, rfl⟩⟩
  | .node _ [v] _ _, _, .rule ref tag, h => by
      rw [Expr.mapWords] at h
      cases h with
      | rule hbodies hr =>
          obtain ⟨old, hold, heq⟩ := Table.exists_get?_of_mapWords hbodies
          cases old with
          | nil => cases heq
          | cons body rest =>
              rw [Expr.mapWordsOf] at heq
              obtain ⟨rfl, -⟩ := List.cons.inj heq
              obtain ⟨r, hr, hv⟩ := Reads.of_mapWords hf hr
              exact ⟨_, .rule hold hr, Reading.mem_variants_node_singleton.mpr ⟨_, hv, rfl⟩⟩
  | .node _ [v] _ _, _, .slot text name suffix tag, h => by
      rw [Expr.mapWords] at h
      cases h with
      | slot hvalues he hr =>
          obtain ⟨old, hold, rfl⟩ := Table.exists_get?_of_mapWords hvalues
          rw [Expr.mapWordsOf_eq_map] at he
          obtain ⟨e, hmem, rfl⟩ := List.mem_map.mp he
          obtain ⟨r, hr, hv⟩ := Reads.of_mapWords hf hr
          exact ⟨_, .slot hold hmem hr, Reading.mem_variants_node_singleton.mpr ⟨_, hv, rfl⟩⟩

theorem ReadsInTurn.of_mapWords
    (hf : ∀ t here text suffix tag r, Reads t here (f text suffix tag) r ↔ r ∈ w text suffix tag) :
    ∀ {vs : List Reading} {here : String} {es : List Expr},
      ReadsInTurn (t.mapExprs (Expr.mapWords f)) here (Expr.mapWordsOf f es) vs →
      ∃ rs, ReadsInTurn t here es rs ∧ vs ∈ Reading.variantsInTurn w rs
  | vs, _, [], h => by
      rw [Expr.mapWordsOf] at h
      cases h
      exact ⟨[], .nil, List.mem_singleton_self _⟩
  | v :: vs, _, e :: es, h => by
      rw [Expr.mapWordsOf] at h
      cases h with
      | cons hr hrs =>
          obtain ⟨r, hr, hv⟩ := Reads.of_mapWords hf hr
          obtain ⟨rs, hrs, hvs⟩ := ReadsInTurn.of_mapWords hf hrs
          exact ⟨r :: rs, .cons hr hrs, Reading.mem_variantsInTurn_cons.mpr ⟨v, hv, vs, hvs, rfl⟩⟩

end

/-- The rewritten templates are read as the variants of what the old ones are read as. -/
theorem reads_mapWords
    (hf : ∀ t here text suffix tag r, Reads t here (f text suffix tag) r ↔ r ∈ w text suffix tag)
    {here : String} {e : Expr} {v : Reading} :
    Reads (t.mapExprs (Expr.mapWords f)) here (e.mapWords f) v ↔
      ∃ r, Reads t here e r ∧ v ∈ r.variants w :=
  ⟨Reads.of_mapWords hf, fun ⟨_, hr, hv⟩ => hr.mapWords hf v hv⟩

end

end Utterance
