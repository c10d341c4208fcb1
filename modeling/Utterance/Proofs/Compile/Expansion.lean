import Utterance.Proofs.Compile.Faults
import Utterance.Proofs.Compile.Reading

/-!
# Rules inside rules

A rule's body may refer to further rules, and so on.  `Expands` follows such references from
an expression, one inside the first body of the one before, and lists the keys that are met
on the way.  Where no slots are involved, compiling fails exactly if a key without a body is
met, or one for the second time on the way to it (`ofSentences_ok_iff_expands`), and the
error names such a key.

Since no key is expanded twice on one way, no way is longer than the table, and the number
of expressions that are built is bounded by the sizes of the sentence and the table alone
(`Tree.visits_unfold_le`).
-/

namespace Utterance

open Utterance.Graph

/-! ## Expanding references -/

/-- The key of the rule that a reference means where the grammar is `here`. -/
def RuleRef.keyIn (r : RuleRef) (here : String) : String := ruleKey (r.grammarIn here) r.name

/-- The table has a body for the rule. -/
def Table.HasBody (t : Table) (key : String) : Prop :=
  ∃ body rest, t.get? key = some (body :: rest)

/-- `Expands t here e chain`: a reference in `e`, which stands in the grammar `here`, one in the
first body of its rule, and so on, have the keys of the chain. -/
inductive Expands (t : Table) : String → Expr → List String → Prop where
  | meet {here : String} {e : Expr} {ref : RuleRef} {tag : Option Tag} :
      .rule ref tag ∈ e.nodes → Expands t here e [ref.keyIn here]
  | inside {here : String} {e : Expr} {ref : RuleRef} {tag : Option Tag} {body : Expr}
      {rest : List Expr} {chain : List String} :
      .rule ref tag ∈ e.nodes → t.get? (ref.keyIn here) = some (body :: rest) →
      Expands t (ref.grammarIn here) body chain → Expands t here e (ref.keyIn here :: chain)

/-- The chain meets nothing that is wrong: its keys have bodies and none is met twice. -/
def Table.Expandable (t : Table) (chain : List String) : Prop :=
  chain.Nodup ∧ ∀ key ∈ chain, t.HasBody key

variable {t : Table}

theorem Expands.of_nodes {here : String} {e e' : Expr} {chain : List String}
    (h : Expands t here e chain) (hnodes : ∀ n ∈ e.nodes, n ∈ e'.nodes) :
    Expands t here e' chain := by
  cases h with
  | meet hmem => exact .meet (hnodes _ hmem)
  | inside hmem hget hchain => exact .inside (hnodes _ hmem) hget hchain

theorem Expr.nodes_subset_of_mem {kind : SequenceKind} {text : String} {items : List Expr}
    {suffix : Suffix} {tag : Option Tag} {e : Expr} (he : e ∈ items) :
    ∀ n ∈ e.nodes, n ∈ (seq kind text items suffix tag).nodes := by
  intro n hn
  rw [nodes, nodesOf_eq_flatMap]
  exact List.mem_cons_of_mem _ (List.mem_flatMap.mpr ⟨e, he, hn⟩)

theorem Table.HasBody.get? {key : String} {bodies : List Expr} (h : t.HasBody key)
    (hget : t.get? key = some bodies) : bodies ≠ [] := by
  obtain ⟨body, rest, hbody⟩ := h
  rintro rfl
  cases hget.symm.trans hbody

/-! ## What building stops with -/

/-- What is reported about a chain: its last key has no body, or is open already or met before. -/
def Table.Blames (t : Table) (opened chain : List String) (key : String) (e : ReferenceError) :
    Prop :=
  (e = .unresolved key ∧ ¬ t.HasBody key) ∨ (e = .recursive key ∧ (key ∈ opened ∨ key ∈ chain))

/-- The error is about a chain that begins in the expression `e`, where the rules `opened` are
open. -/
def Blamed (t : Table) (opened : List String) (here : String) (e : Expr) (err : ReferenceError) :
    Prop :=
  ∃ chain key, Expands t here e (chain ++ [key]) ∧ t.Expandable chain ∧
    (∀ k ∈ chain, k ∉ opened) ∧ t.Blames opened chain key err

theorem Blamed.of_nodes {opened : List String} {here : String} {e e' : Expr}
    {err : ReferenceError} (h : Blamed t opened here e err)
    (hnodes : ∀ n ∈ e.nodes, n ∈ e'.nodes) : Blamed t opened here e' err := by
  obtain ⟨chain, key, hexpands, h⟩ := h
  exact ⟨chain, key, hexpands.of_nodes hnodes, h⟩

theorem mem_nodes_rule (ref : RuleRef) (tag : Option Tag) :
    .rule ref tag ∈ (Expr.rule ref tag).nodes := by
  rw [Expr.nodes]
  exact List.mem_singleton_self _

theorem blamed_rule {opened : List String} {here : String} {ref : RuleRef} {tag : Option Tag}
    {err : ReferenceError} (h : t.Blames opened [] (ref.keyIn here) err) :
    Blamed t opened here (.rule ref tag) err := by
  refine ⟨[], _, .meet (mem_nodes_rule ref tag), ⟨List.nodup_nil, fun _ h => (List.not_mem_nil h).elim⟩,
    fun _ h => (List.not_mem_nil h).elim, h⟩

/-- What goes wrong inside a rule's first body. -/
theorem Blamed.inside {opened : List String} {here : String} {ref : RuleRef} {tag : Option Tag}
    {body : Expr} {rest : List Expr} {err : ReferenceError}
    (hget : t.get? (ref.keyIn here) = some (body :: rest)) (hclosed : ref.keyIn here ∉ opened)
    (h : Blamed t (ref.keyIn here :: opened) (ref.grammarIn here) body err) :
    Blamed t opened here (.rule ref tag) err := by
  obtain ⟨chain, key, hexpands, ⟨hnodup, hbodies⟩, hopened, hblames⟩ := h
  refine ⟨ref.keyIn here :: chain, key, .inside (mem_nodes_rule ref tag) hget hexpands,
    ⟨?_, ?_⟩, ?_, ?_⟩
  · refine List.nodup_cons.mpr ⟨fun hin => ?_, hnodup⟩
    exact hopened _ hin List.mem_cons_self
  · exact List.forall_mem_cons.mpr ⟨⟨body, rest, hget⟩, hbodies⟩
  · refine List.forall_mem_cons.mpr ⟨hclosed, fun k hk hin => ?_⟩
    exact hopened k hk (List.mem_cons_of_mem _ hin)
  · rcases hblames with h | ⟨rfl, hin⟩
    · exact .inl h
    · refine .inr ⟨rfl, ?_⟩
      rcases hin with hin | hin
      · rcases List.mem_cons.mp hin with rfl | hin
        · exact .inr List.mem_cons_self
        · exact .inl hin
      · exact .inr (List.mem_cons_of_mem _ hin)

theorem slotKeysOf_eq_nil {es : List Expr} : slotKeysOf es = [] ↔ ∀ e ∈ es, e.slotKeys = [] :=
  List.flatMap_eq_nil_iff

theorem Table.slotKeys_eq_nil_of_get? (ht : t.slotKeys = []) {key : String} {bodies : List Expr}
    (hget : t.get? key = some bodies) : ∀ e ∈ bodies, e.slotKeys = [] :=
  slotKeysOf_eq_nil.mp (List.flatMap_eq_nil_iff.mp ht _ (Table.mem_of_get? hget))

/-- Without slots, building stops only at what is wrong with a chain. -/
theorem stops_unfold (expand : Bool) (ht : t.slotKeys = []) :
    ∀ (c : Scope) (e : Expr), e.slotKeys = [] →
      (unfold t c e).Stops expand (Blamed t c.rules c.here e) := by
  refine (unfold.mutual_induct t
    (fun c e => e.slotKeys = [] → (unfold t c e).Stops expand (Blamed t c.rules c.here e))
    (fun c es => ∀ e ∈ es, e.slotKeys = [] →
      (unfold t c e).Stops expand (Blamed t c.rules c.here e))
    ?word ?seq ?ruleMissing ?ruleClosed ?ruleOpen ?slotMissing ?slotClosed ?slotOpen ?nil
    ?cons).1
  case word =>
    intro c text suffix tag _
    rw [unfold, Tree.Stops]
    trivial
  case seq =>
    intro c kind text items suffix tag ih he
    rw [Expr.slotKeys_seq] at he
    rw [unfold, Tree.Stops, unfoldAll_eq_map]
    refine allStop_iff.mpr (List.forall_mem_map.mpr fun e hmem => ?_)
    refine (ih e hmem (slotKeysOf_eq_nil.mp he e hmem)).imp (fun _ h => ?_) _
    exact h.of_nodes (Expr.nodes_subset_of_mem hmem)
  case ruleMissing =>
    intro c ref tag key hnone _
    rw [unfold_rule_of_none hnone, Tree.Stops, Tree.Stops]
    refine blamed_rule (.inl ⟨rfl, ?_⟩)
    rintro ⟨body, rest, hbody⟩
    cases hnone.symm.trans hbody
  case ruleClosed =>
    intro c ref tag key bodies hbodies hclosed ih _
    have hopened : key ∉ c.rules := fun hmem =>
      Bool.noConfusion (hclosed.symm.trans (List.contains_iff_mem.mpr hmem))
    rw [unfold_rule_of_get? hbodies, hclosed, if_neg Bool.false_ne_true, unfoldAll_eq_map]
    cases bodies with
    | nil =>
        rw [List.map_nil, Tree.Stops]
        exact blamed_rule (.inl ⟨rfl, fun h => h.get? hbodies rfl⟩)
    | cons body rest =>
        rw [List.map_cons, Tree.Stops]
        have hbody := Table.slotKeys_eq_nil_of_get? ht hbodies body List.mem_cons_self
        refine (ih body List.mem_cons_self hbody).imp (fun _ h => ?_) _
        exact h.inside hbodies hopened
  case ruleOpen =>
    intro c ref tag key bodies hbodies hopen _
    have hmem : key ∈ c.rules := List.contains_iff_mem.mp (Bool.of_not_eq_false hopen)
    rw [unfold_rule_of_get? hbodies, if_pos (Bool.of_not_eq_false hopen), Tree.Stops, Tree.Stops]
    exact blamed_rule (.inr ⟨rfl, .inl hmem⟩)
  case slotMissing =>
    intro c text name suffix tag key _ he
    rw [Expr.slotKeys_slot] at he
    cases he
  case slotClosed =>
    intro c text name suffix tag key values _ _ _ he
    rw [Expr.slotKeys_slot] at he
    cases he
  case slotOpen =>
    intro c text name suffix tag key values _ _ he
    rw [Expr.slotKeys_slot] at he
    cases he
  case nil =>
    intro c e he
    exact (List.not_mem_nil he).elim
  case cons =>
    intro c e es ihe ihes
    exact List.forall_mem_cons.mpr ⟨ihe, ihes⟩

/-! ## What can be built -/

mutual

/-- What can be built holds nothing that cannot. -/
theorem buildable_of_mem_nodes {expand : Bool} {c : Scope} : ∀ e : Expr,
    (unfold t c e).Buildable expand → ∀ n ∈ e.nodes, (unfold t c n).Buildable expand
  | .word _ _ _, h, n, hn => by
      rw [Expr.nodes] at hn
      obtain rfl := List.mem_singleton.mp hn
      exact h
  | .seq kind text items suffix tag, h, n, hn => by
      rw [Expr.nodes] at hn
      rcases List.mem_cons.mp hn with rfl | hn
      · exact h
      · rw [unfold, Tree.Buildable] at h
        exact buildable_of_mem_nodesOf items h n hn
  | .rule _ _, h, n, hn => by
      rw [Expr.nodes] at hn
      obtain rfl := List.mem_singleton.mp hn
      exact h
  | .slot _ _ _ _, h, n, hn => by
      rw [Expr.nodes] at hn
      obtain rfl := List.mem_singleton.mp hn
      exact h

theorem buildable_of_mem_nodesOf {expand : Bool} {c : Scope} : ∀ es : List Expr,
    AllBuildable expand (unfoldAll t c es) →
      ∀ n ∈ Expr.nodesOf es, (unfold t c n).Buildable expand
  | [], _, n, hn => by
      rw [Expr.nodesOf] at hn
      exact (List.not_mem_nil hn).elim
  | e :: es, h, n, hn => by
      rw [unfoldAll, AllBuildable] at h
      rw [Expr.nodesOf] at hn
      rcases List.mem_append.mp hn with hn | hn
      · exact buildable_of_mem_nodes e h.1 n hn
      · exact buildable_of_mem_nodesOf es h.2 n hn

end

/-- A reference that can be built is to a rule that is not open and has a body, which can be
built. -/
theorem exists_body_of_buildable {expand : Bool} {c : Scope} {ref : RuleRef} {tag : Option Tag}
    (h : (unfold t c (.rule ref tag)).Buildable expand) :
    c.keyOf ref ∉ c.rules ∧ ∃ body rest, t.get? (c.keyOf ref) = some (body :: rest) ∧
      (unfold t (c.enterRule (c.keyOf ref) (c.grammarOf ref)) body).Buildable expand := by
  cases hget : t.get? (c.keyOf ref) with
  | none =>
      rw [unfold_rule_of_none hget, Tree.Buildable, Tree.Buildable] at h
      exact h.elim
  | some bodies =>
      rw [unfold_rule_of_get? hget] at h
      by_cases hopen : c.rules.contains (c.keyOf ref) = true
      · rw [if_pos hopen, Tree.Buildable, Tree.Buildable] at h
        exact h.elim
      · rw [if_neg hopen, unfoldAll_eq_map] at h
        cases bodies with
        | nil =>
            rw [List.map_nil, Tree.Buildable] at h
            exact h.elim
        | cons body rest =>
            rw [List.map_cons, Tree.Buildable] at h
            exact ⟨mt List.contains_iff_mem.mpr hopen, body, rest, rfl, h⟩

/-- In an expression that can be built, the chains meet nothing that is wrong. -/
theorem Expands.expandable {expand : Bool} {here : String} {e : Expr} {chain : List String}
    (h : Expands t here e chain) : ∀ {c : Scope}, c.here = here →
      (unfold t c e).Buildable expand → t.Expandable chain ∧ ∀ key ∈ chain, key ∉ c.rules := by
  induction h with
  | @meet here e ref tag hmem =>
      rintro c rfl hbuild
      obtain ⟨hclosed, body, rest, hget, -⟩ :=
        exists_body_of_buildable (buildable_of_mem_nodes e hbuild _ hmem)
      refine ⟨⟨List.nodup_singleton _, ?_⟩, ?_⟩
      · exact List.forall_mem_singleton.mpr ⟨body, rest, hget⟩
      · exact List.forall_mem_singleton.mpr hclosed
  | @inside here e ref tag body rest chain hmem hget _ ih =>
      rintro c rfl hbuild
      obtain ⟨hclosed, body', rest', hget', hbody⟩ :=
        exists_body_of_buildable (buildable_of_mem_nodes e hbuild _ hmem)
      obtain ⟨rfl, rfl⟩ := List.cons.inj (Option.some.inj (hget'.symm.trans hget))
      obtain ⟨⟨hnodup, hbodies⟩, hopened⟩ := ih rfl hbody
      refine ⟨⟨List.nodup_cons.mpr ⟨fun hin => ?_, hnodup⟩, ?_⟩, ?_⟩
      · exact hopened _ hin List.mem_cons_self
      · exact List.forall_mem_cons.mpr ⟨⟨_, _, hget⟩, hbodies⟩
      · refine List.forall_mem_cons.mpr ⟨hclosed, fun key hkey hin => ?_⟩
        exact hopened key hkey (List.mem_cons_of_mem _ hin)

/-! ## How much is built -/

mutual

/-- The number of expressions that are visited to build a tree, if nothing is broken.  Of a rule
this is the first body only. -/
def Tree.visits : Tree → Nat
  | .word _ _ _ => 1
  | .seq _ items _ _ => visitsOf items + 1
  | .rule _ bodies _ =>
    match bodies with
    | [] => 1
    | body :: _ => Tree.visits body + 1
  | .slot _ values _ _ => visitsOf values + 1
  | .broken _ => 0

def visitsOf : List Tree → Nat
  | [] => 0
  | t :: ts => Tree.visits t + visitsOf ts

end

/-- All expressions in the entries of a table. -/
def Table.nodes (t : Table) : List Expr := t.flatMap fun entry => Expr.nodesOf entry.2

theorem Table.length_nodesOf_le {key : String} {bodies : List Expr}
    (hget : t.get? key = some bodies) : (Expr.nodesOf bodies).length ≤ t.nodes.length := by
  obtain ⟨before, after, rfl, -⟩ := List.lookup_eq_some_iff.mp hget
  rw [nodes, List.flatMap_append, List.flatMap_cons, List.length_append, List.length_append]
  exact (Nat.le_add_right _ _).trans (Nat.le_add_left _ _)

/-- The number of expressions visited, bounded by the size of the expression, that of the table
and the number of rules that are not open yet. -/
theorem visits_unfold_le (ht : t.slotKeys = []) : ∀ (c : Scope) (e : Expr), e.slotKeys = [] →
    (unfold t c e).visits ≤
      e.nodes.length * (t.nodes.length + 1) ^ closedKeys t.keys c.rules := by
  have hpos : ∀ k, 1 ≤ (t.nodes.length + 1) ^ k := fun k => Nat.one_le_pow _ _ (Nat.succ_pos _)
  refine (unfold.mutual_induct t
    (fun c e => e.slotKeys = [] → (unfold t c e).visits ≤
      e.nodes.length * (t.nodes.length + 1) ^ closedKeys t.keys c.rules)
    (fun c es => slotKeysOf es = [] → visitsOf (unfoldAll t c es) ≤
      (Expr.nodesOf es).length * (t.nodes.length + 1) ^ closedKeys t.keys c.rules)
    ?word ?seq ?ruleMissing ?ruleClosed ?ruleOpen ?slotMissing ?slotClosed ?slotOpen ?nil
    ?cons).1
  case word =>
    intro c text suffix tag _
    rw [unfold, Tree.visits, Expr.nodes, List.length_singleton, Nat.one_mul]
    exact hpos _
  case seq =>
    intro c kind text items suffix tag ih he
    rw [Expr.slotKeys_seq] at he
    rw [unfold, Tree.visits, Expr.nodes, List.length_cons, Nat.succ_mul]
    exact Nat.add_le_add (ih he) (hpos _)
  case ruleMissing =>
    intro c ref tag key hnone _
    rw [unfold_rule_of_none hnone, Tree.visits, Tree.visits, Expr.nodes, List.length_singleton,
      Nat.one_mul]
    exact hpos _
  case ruleClosed =>
    intro c ref tag key bodies hbodies hclosed ih _
    rw [unfold_rule_of_get? hbodies, hclosed, if_neg Bool.false_ne_true, Expr.nodes,
      List.length_singleton, Nat.one_mul]
    have hslots := slotKeysOf_eq_nil.mpr (Table.slotKeys_eq_nil_of_get? ht hbodies)
    have hlt : closedKeys t.keys (key :: c.rules) < closedKeys t.keys c.rules :=
      closedKeys_cons_lt (Table.mem_keys_of_get? hbodies) hclosed
    cases bodies with
    | nil =>
        rw [unfoldAll, Tree.visits]
        exact hpos _
    | cons body rest =>
        have hvisits := ih hslots
        rw [unfoldAll, visitsOf] at hvisits
        rw [unfoldAll, Tree.visits]
        calc (unfold t (c.enterRule key (c.grammarOf ref)) body).visits + 1
            ≤ (Expr.nodesOf (body :: rest)).length *
                (t.nodes.length + 1) ^ closedKeys t.keys (key :: c.rules) + 1 :=
              Nat.succ_le_succ ((Nat.le_add_right _ _).trans hvisits)
          _ ≤ t.nodes.length * (t.nodes.length + 1) ^ closedKeys t.keys (key :: c.rules) +
                (t.nodes.length + 1) ^ closedKeys t.keys (key :: c.rules) :=
              Nat.add_le_add (Nat.mul_le_mul_right _ (Table.length_nodesOf_le hbodies)) (hpos _)
          _ = (t.nodes.length + 1) ^ (closedKeys t.keys (key :: c.rules) + 1) := by
              rw [Nat.pow_succ, Nat.mul_succ, Nat.mul_comm]
          _ ≤ (t.nodes.length + 1) ^ closedKeys t.keys c.rules :=
              Nat.pow_le_pow_right (Nat.succ_pos _) hlt
  case ruleOpen =>
    intro c ref tag key bodies hbodies hopen _
    rw [unfold_rule_of_get? hbodies, if_pos (Bool.of_not_eq_false hopen), Tree.visits, Tree.visits,
      Expr.nodes, List.length_singleton, Nat.one_mul]
    exact hpos _
  case slotMissing =>
    intro c text name suffix tag key _ he
    rw [Expr.slotKeys_slot] at he
    cases he
  case slotClosed =>
    intro c text name suffix tag key values _ _ _ he
    rw [Expr.slotKeys_slot] at he
    cases he
  case slotOpen =>
    intro c text name suffix tag key values _ _ he
    rw [Expr.slotKeys_slot] at he
    cases he
  case nil =>
    intro c _
    rw [unfoldAll, visitsOf]
    exact Nat.zero_le _
  case cons =>
    intro c e es ihe ihes hes
    obtain ⟨he, hes⟩ := List.append_eq_nil_iff.mp hes
    rw [unfoldAll, visitsOf, Expr.nodesOf, List.length_append, Nat.add_mul]
    exact Nat.add_le_add (ihe he) (ihes hes)

/-! ## Compiling -/

theorem IntentSentences.slotKeys_eq_nil {l : IntentSentences} (hl : l.slotKeys = []) :
    ∀ p ∈ l, ∀ s ∈ p.2, s.toExpr.slotKeys = [] := by
  intro p hp s hs
  rw [Sentence.toExpr, Expr.slotKeys_seq]
  exact List.flatMap_eq_nil_iff.mp (List.flatMap_eq_nil_iff.mp hl p hp) s hs

/-- Where there are no slots and no weights, compiling succeeds exactly if all keys that are met
by expanding the references of the sentences have bodies, and none is met twice on one way.
Otherwise the error says of a key that it has no body, or that it is met twice on the way to it.
The expressions that are visited are not more than the sizes of the sentence and the table
allow. -/
theorem ofSentences_ok_iff_expands {l : IntentSentences} {t : Table} {o : CompileOptions}
    (hl : l.slotKeys = []) (ht : t.slotKeys = []) (hadd : o.addWeights = false) :
    ((∃ g, Graph.ofSentences l t o = .ok g) ↔
      ∀ p ∈ l, ∀ s ∈ p.2, ∀ chain, Expands t p.1 s.toExpr chain → t.Expandable chain) ∧
    (∀ e, Graph.ofSentences l t o = .error e →
      ∃ p ∈ l, ∃ s ∈ p.2, ∃ chain key, Expands t p.1 s.toExpr (chain ++ [key]) ∧
        t.Expandable chain ∧
        ((e = .unresolved key ∧ ¬ t.HasBody key) ∨ (e = .recursive key ∧ key ∈ chain))) ∧
    ∀ p ∈ l, ∀ s ∈ p.2, (Sentence.unfold t p.1 s).visits ≤
      s.toExpr.nodes.length * (t.nodes.length + 1) ^ t.keys.length := by
  have hws : edgeWeights l t o = .ok (l.map fun _ => none) := by
    rw [edgeWeights, hadd]
    rfl
  have hslots := IntentSentences.slotKeys_eq_nil hl
  have herror : ∀ e, Graph.ofSentences l t o = .error e →
      ∃ p ∈ l, ∃ s ∈ p.2, Blamed t [] p.1 s.toExpr e := by
    intro e
    refine ofSentences_error_of_stops (P := fun e => ∃ p ∈ l, ∃ s ∈ p.2, Blamed t [] p.1 s.toExpr e)
      hws fun p hp s hs => ?_
    exact (stops_unfold _ ht { intent := p.1 } _ (hslots p hp s hs)).imp
      (fun _ h => ⟨p, hp, s, hs, h⟩) _
  refine ⟨⟨?_, fun hall => ?_⟩, fun e he => ?_, fun p hp s hs => ?_⟩
  · rintro ⟨g, hg⟩ p hp s hs chain hexpands
    exact (hexpands.expandable rfl (buildable_of_ofSentences hg p hp s hs)).1
  · cases hg : Graph.ofSentences l t o with
    | ok g => exact ⟨g, rfl⟩
    | error e =>
        obtain ⟨p, hp, s, hs, chain, key, hexpands, -, -, hblames⟩ := herror e hg
        obtain ⟨hnodup, hbodies⟩ := hall p hp s hs _ hexpands
        rcases hblames with ⟨-, hbody⟩ | ⟨-, hopened | hmem⟩
        · exact (hbody (hbodies key (by simp))).elim
        · exact (List.not_mem_nil hopened).elim
        · exact (List.disjoint_of_nodup_append hnodup hmem (List.mem_singleton_self _)).elim
  · obtain ⟨p, hp, s, hs, chain, key, hexpands, hchain, -, hblames⟩ := herror e he
    refine ⟨p, hp, s, hs, chain, key, hexpands, hchain, hblames.imp_right fun h => ?_⟩
    exact ⟨h.1, h.2.resolve_left (List.not_mem_nil)⟩
  · have hclosed : closedKeys t.keys [] = t.keys.length := by
      simp [closedKeys]
    exact hclosed ▸ visits_unfold_le ht { intent := p.1 } _ (hslots p hp s hs)

def goRule : RuleRef := ⟨"<go>", "go", none⟩

def backRule : RuleRef := ⟨"<back>", "back", none⟩

def tripSentence : Sentence := ⟨"<go>", [.rule goRule none]⟩

/-- Going means to go back, and going back says a word. -/
def tripTable : Table := [("<Trip.go>", [.rule backRule none]), ("<Trip.back>", [.plain "home"])]

/-- Going means to go back, and going back means to go. -/
def roundTripTable : Table :=
  [("<Trip.go>", [.rule backRule none]), ("<Trip.back>", [.rule goRule none])]

theorem expandable_trip {chain : List String}
    (h : Expands tripTable "Trip" tripSentence.toExpr chain) : tripTable.Expandable chain := by
  have hgo : tripTable.HasBody "<Trip.go>" := ⟨_, _, rfl⟩
  have hback : tripTable.HasBody "<Trip.back>" := ⟨_, _, rfl⟩
  have hsentence : ∀ {ref tag}, .rule ref tag ∈ tripSentence.toExpr.nodes → ref = goRule := by
    simp [Sentence.toExpr, tripSentence, Expr.nodes, Expr.nodesOf]
  have hbody : ∀ {ref tag}, .rule ref tag ∈ (Expr.rule backRule none).nodes → ref = backRule := by
    simp [Expr.nodes]
  have hword : ∀ {ref tag}, .rule ref tag ∉ (Expr.plain "home").nodes := by
    simp [Expr.nodes, Expr.plain]
  cases h with
  | meet hmem =>
      obtain rfl := hsentence hmem
      exact ⟨by decide, List.forall_mem_singleton.mpr hgo⟩
  | inside hmem hget h =>
      obtain rfl := hsentence hmem
      cases hget
      cases h with
      | meet hmem =>
          obtain rfl := hbody hmem
          exact ⟨by decide, List.forall_mem_cons.mpr ⟨hgo, List.forall_mem_singleton.mpr hback⟩⟩
      | inside hmem hget h =>
          obtain rfl := hbody hmem
          cases hget
          cases h with
          | meet hmem => exact (hword hmem).elim
          | inside hmem => exact (hword hmem).elim

/-- The one table compiles, the other one does not. -/
theorem ofSentences_trips :
    (∃ g, Graph.ofSentences [("Trip", [tripSentence])] tripTable { addWeights := false } = .ok g) ∧
      ¬ ∃ g, Graph.ofSentences [("Trip", [tripSentence])] roundTripTable { addWeights := false } =
        .ok g := by
  constructor
  · refine (ofSentences_ok_iff_expands rfl rfl rfl).1.mpr fun p hp s hs chain hexpands => ?_
    obtain rfl := List.mem_singleton.mp hp
    obtain rfl := List.mem_singleton.mp hs
    exact expandable_trip hexpands
  · intro hg
    have hsentence : .rule goRule none ∈ tripSentence.toExpr.nodes := .tail _ (.head _)
    have hround : Expands roundTripTable "Trip" tripSentence.toExpr
        ["<Trip.go>", "<Trip.back>", "<Trip.go>"] :=
      .inside hsentence rfl (.inside (mem_nodes_rule backRule none) rfl
        (.meet (mem_nodes_rule goRule none)))
    obtain ⟨hnodup, -⟩ := (ofSentences_ok_iff_expands rfl rfl rfl).1.mp hg _ List.mem_cons_self _
      List.mem_cons_self _ hround
    exact absurd hnodup (by decide)

end Utterance
