import Utterance.Proofs.Compile.Building
import Utterance.Proofs.Compile.Heads
import Utterance.Proofs.Failing
import Utterance.Slots

/-!
# What compiling can fail with

Compiling fails only with an error that is found in one of the unfolded trees: at a
broken place, or at a rule or a slot for which the table holds an empty list
(`Tree.Faults`).  Building and counting come to such a place one way or another, so one
predicate serves both, and what is true of all these errors is true of the error that
`Graph.ofSentences` returns (`ofSentences_error`).  Building alone does not come to all of
them, for of a rule it looks at the first body only (`Tree.Stops`).

Unfolding leaves only keys unresolved for which the table has nothing (`faults_unfold`).  So
if every slot that is referred to has values, compiling reports none of them, and a rule that
is in the table is never reported either.
-/

namespace Utterance

/-! ## Faults of trees -/

mutual

/-- All errors that building or counting the tree can stop with have the property. -/
def Tree.Faults (P : ReferenceError → Prop) : Tree → Prop
  | .word _ _ _ => True
  | .seq _ items _ _ => FaultsOf P items
  | .rule key bodies _ => (bodies = [] → P (.unresolved key)) ∧ FaultsOf P bodies
  | .slot name values _ _ => (values = [] → P (.unresolved (slotKey name))) ∧ FaultsOf P values
  | .broken e => P e

def FaultsOf (P : ReferenceError → Prop) : List Tree → Prop
  | [] => True
  | t :: ts => Tree.Faults P t ∧ FaultsOf P ts

end

theorem faultsOf_iff {P : ReferenceError → Prop} {ts : List Tree} :
    FaultsOf P ts ↔ ∀ t ∈ ts, t.Faults P := by
  induction ts with
  | nil => rw [FaultsOf]; exact iff_of_true trivial fun _ h => (List.not_mem_nil h).elim
  | cons t ts ih => rw [FaultsOf, ih, List.forall_mem_cons]

mutual

/-- All errors that building the tree can stop with have the property.  Of a rule only the first body
is built, and the values of a slot are if slots are replaced by them. -/
def Tree.Stops (expand : Bool) (P : ReferenceError → Prop) : Tree → Prop
  | .word _ _ _ => True
  | .seq _ items _ _ => AllStop expand P items
  | .rule key bodies _ =>
    match bodies with
    | [] => P (.unresolved key)
    | body :: _ => Tree.Stops expand P body
  | .slot name values _ _ =>
    expand = true → (values = [] → P (.unresolved (slotKey name))) ∧ AllStop expand P values
  | .broken e => P e

def AllStop (expand : Bool) (P : ReferenceError → Prop) : List Tree → Prop
  | [] => True
  | t :: ts => Tree.Stops expand P t ∧ AllStop expand P ts

end

theorem allStop_iff {expand : Bool} {P : ReferenceError → Prop} {ts : List Tree} :
    AllStop expand P ts ↔ ∀ t ∈ ts, t.Stops expand P := by
  induction ts with
  | nil => rw [AllStop]; exact iff_of_true trivial fun _ h => (List.not_mem_nil h).elim
  | cons t ts ih => rw [AllStop, ih, List.forall_mem_cons]

section

variable {expand : Bool} {P Q : ReferenceError → Prop}

mutual

theorem Tree.Stops.imp (h : ∀ e, P e → Q e) : ∀ t : Tree, t.Stops expand P → t.Stops expand Q
  | .word _ _ _, _ => by
      rw [Tree.Stops]
      trivial
  | .seq _ items _ _, ht => by
      rw [Tree.Stops] at ht ⊢
      exact AllStop.imp h items ht
  | .rule _ [] _, ht => by
      rw [Tree.Stops] at ht ⊢
      exact h _ ht
  | .rule _ (body :: _) _, ht => by
      rw [Tree.Stops] at ht ⊢
      exact Tree.Stops.imp h body ht
  | .slot _ values _ _, ht => by
      rw [Tree.Stops] at ht ⊢
      exact fun hexpand => ⟨fun hempty => h _ ((ht hexpand).1 hempty),
        AllStop.imp h values (ht hexpand).2⟩
  | .broken _, ht => by
      rw [Tree.Stops] at ht ⊢
      exact h _ ht

theorem AllStop.imp (h : ∀ e, P e → Q e) : ∀ ts : List Tree, AllStop expand P ts →
    AllStop expand Q ts
  | [], _ => by
      rw [AllStop]
      trivial
  | t :: ts, hts => by
      rw [AllStop] at hts ⊢
      exact ⟨Tree.Stops.imp h t hts.1, AllStop.imp h ts hts.2⟩

end

end

mutual

/-- What building can stop with is among all faults of the tree. -/
theorem Tree.Faults.stops {P : ReferenceError → Prop} (expand : Bool) : ∀ t : Tree,
    t.Faults P → t.Stops expand P
  | .word _ _ _, _ => by
      rw [Tree.Stops]
      trivial
  | .seq _ items _ _, h => by
      rw [Tree.Faults] at h
      rw [Tree.Stops]
      exact FaultsOf.allStop expand items h
  | .rule _ [] _, h => by
      rw [Tree.Faults] at h
      rw [Tree.Stops]
      exact h.1 rfl
  | .rule _ (body :: _) _, h => by
      rw [Tree.Faults, FaultsOf] at h
      rw [Tree.Stops]
      exact Tree.Faults.stops expand body h.2.1
  | .slot _ values _ _, h => by
      rw [Tree.Faults] at h
      rw [Tree.Stops]
      exact fun _ => ⟨h.1, FaultsOf.allStop expand values h.2⟩
  | .broken _, h => by
      rw [Tree.Faults] at h
      rw [Tree.Stops]
      exact h

theorem FaultsOf.allStop {P : ReferenceError → Prop} (expand : Bool) : ∀ ts : List Tree,
    FaultsOf P ts → AllStop expand P ts
  | [], _ => by
      rw [AllStop]
      trivial
  | t :: ts, h => by
      rw [FaultsOf] at h
      rw [AllStop]
      exact ⟨Tree.Faults.stops expand t h.1, FaultsOf.allStop expand ts h.2⟩

end

/-! ## Building and counting -/

namespace Built

variable {α β : Type} {P : ReferenceError → Prop}

/-- If building stops, the reason has the property. -/
def StopsWith (P : ReferenceError → Prop) (b : Built α) : Prop :=
  ∀ g e, b = .stopped g e → P e

theorem stopsWith_done (g : Graph) (a : α) : (done g a).StopsWith P := fun _ _ h => nomatch h

theorem StopsWith.andThen {b : Built α} {f : Graph → α → Built β} (hb : b.StopsWith P)
    (hf : ∀ g a, (f g a).StopsWith P) : (b.andThen f).StopsWith P := by
  intro g e h
  cases b with
  | done k a => exact hf k a g e h
  | stopped k err =>
      cases h
      exact hb _ _ rfl

theorem StopsWith.wrap {content : Graph → Nat → Built Nat} {hidden : Bool} {suffix : Suffix}
    {tag : Option Tag} {g : Graph} {s : Nat} (h : ∀ g s, (content g s).StopsWith P) :
    (Built.wrap hidden suffix tag g s content).StopsWith P :=
  (h _ _).andThen fun _ _ => stopsWith_done _ _

theorem StopsWith.joined {content : Built (List Nat)} (h : content.StopsWith P) :
    content.joined.StopsWith P := h.andThen fun _ _ => stopsWith_done _ _

end Built

section

variable {P : ReferenceError → Prop}

mutual

/-- Building a tree stops with an error that is found on the way through it. -/
theorem build_stopsWith (expand : Bool) : ∀ (t : Tree) {hidden : Bool} {g : Graph} {s : Nat},
    t.Stops expand P → (build expand hidden g s t).StopsWith P
  | .word text suffix tag, _, _, _, _ => by
      rw [build]
      exact .wrap fun _ _ => Built.stopsWith_done _ _
  | .seq .group items suffix tag, _, _, _, h => by
      rw [build]
      rw [Tree.Stops] at h
      exact .wrap fun _ _ => buildInTurn_stopsWith expand items h
  | .seq .alternative items suffix tag, _, _, _, h => by
      rw [build]
      rw [Tree.Stops] at h
      exact .wrap fun _ _ => (buildEach_stopsWith expand items h).joined
  | .rule key [] tag, _, _, _, h => by
      rw [build]
      rw [Tree.Stops] at h
      refine .wrap fun _ _ => ?_
      rintro _ _ ⟨⟩
      exact h
  | .rule key (body :: _) tag, _, _, _, h => by
      rw [build]
      rw [Tree.Stops] at h
      exact .wrap fun _ _ => build_stopsWith expand body h
  | .slot name values suffix tag, _, _, _, h => by
      rw [build]
      rw [Tree.Stops] at h
      refine .wrap fun _ _ => Built.StopsWith.andThen ?_ fun _ _ => Built.stopsWith_done _ _
      cases expand with
      | false => exact Built.stopsWith_done _ _
      | true =>
          obtain ⟨hempty, hvalues⟩ := h rfl
          cases values with
          | nil =>
              rintro _ _ ⟨⟩
              exact hempty rfl
          | cons value values => exact (buildEach_stopsWith true (value :: values) hvalues).joined
  | .broken e, _, _, _, h => by
      rw [build]
      rw [Tree.Stops] at h
      rintro _ _ ⟨⟩
      exact h

theorem buildInTurn_stopsWith (expand : Bool) : ∀ (ts : List Tree) {hidden : Bool} {g : Graph}
    {s : Nat}, AllStop expand P ts → (buildInTurn expand hidden g s ts).StopsWith P
  | [], _, _, _, _ => by
      rw [buildInTurn]
      exact Built.stopsWith_done _ _
  | t :: ts, _, _, _, h => by
      rw [buildInTurn]
      rw [AllStop] at h
      exact (build_stopsWith expand t h.1).andThen fun _ _ => buildInTurn_stopsWith expand ts h.2

theorem buildEach_stopsWith (expand : Bool) : ∀ (ts : List Tree) {hidden : Bool} {g : Graph}
    {s : Nat}, AllStop expand P ts → (buildEach expand hidden g s ts).StopsWith P
  | [], _, _, _, _ => by
      rw [buildEach]
      exact Built.stopsWith_done _ _
  | t :: ts, _, _, _, h => by
      rw [buildEach]
      rw [AllStop] at h
      exact (build_stopsWith expand t h.1).andThen fun _ _ =>
        (buildEach_stopsWith expand ts h.2).andThen fun _ _ => Built.stopsWith_done _ _

end

mutual

/-- Counting the sentences of a tree stops with one of its faults. -/
theorem count_error (excludeSlots : Bool) : ∀ (t : Tree) {e : ReferenceError}, t.Faults P →
    t.count excludeSlots = .error e → P e
  | .word _ _ _, _, _, he => by
      rw [Tree.count] at he
      cases he
  | .seq .group items _ _, _, h, he => by
      rw [Tree.count] at he
      rw [Tree.Faults] at h
      exact productOf_error excludeSlots items h he
  | .seq .alternative items _ _, _, h, he => by
      rw [Tree.count] at he
      rw [Tree.Faults] at h
      exact sumOf_error excludeSlots items h he
  | .rule _ bodies _, _, h, he => by
      rw [Tree.count] at he
      rw [Tree.Faults] at h
      exact sumOf_error excludeSlots bodies h.2 he
  | .slot _ values _ _, _, h, he => by
      rw [Tree.count] at he
      rw [Tree.Faults] at h
      split at he
      · cases he
      · exact sumOf_error excludeSlots values h.2 he
  | .broken _, _, h, he => by
      rw [Tree.count] at he
      rw [Tree.Faults] at h
      cases he
      exact h

theorem productOf_error (excludeSlots : Bool) : ∀ (ts : List Tree) {e : ReferenceError},
    FaultsOf P ts → productOf excludeSlots ts = .error e → P e
  | [], _, _, he => by
      rw [productOf] at he
      cases he
  | t :: ts, _, h, he => by
      rw [productOf] at he
      rcases Except.both_eq_error he with he | he
      · exact count_error excludeSlots t h.1 he
      · exact productOf_error excludeSlots ts h.2 he

theorem sumOf_error (excludeSlots : Bool) : ∀ (ts : List Tree) {e : ReferenceError},
    FaultsOf P ts → sumOf excludeSlots ts = .error e → P e
  | [], _, _, he => by
      rw [sumOf] at he
      cases he
  | t :: ts, _, h, he => by
      rw [sumOf] at he
      rcases Except.both_eq_error he with he | he
      · exact count_error excludeSlots t h.1 he
      · exact sumOf_error excludeSlots ts h.2 he

end

/-! ## Compiling -/

theorem buildIntents_stopsWith {t : Table} {expand : Bool} {start : Nat} :
    ∀ (l : List ((String × List Sentence) × EdgeWeight)) {g : Graph},
      (∀ p ∈ l.map Prod.fst, ∀ s ∈ p.2, (Sentence.unfold t p.1 s).Stops expand P) →
      (buildIntents t expand g start l).StopsWith P
  | [], _, _ => by
      rw [buildIntents]
      exact Built.stopsWith_done _ _
  | ((intent, sentences), w) :: rest, _, h => by
      rw [List.map_cons, List.forall_mem_cons] at h
      rw [buildIntents]
      refine Built.StopsWith.andThen ?_ fun _ _ =>
        (buildIntents_stopsWith rest h.2).andThen fun _ _ => Built.stopsWith_done _ _
      exact buildEach_stopsWith expand _ (allStop_iff.mpr (List.forall_mem_map.mpr h.1))

theorem edgeWeights_error {l : IntentSentences} {t : Table} {o : CompileOptions}
    {e : ReferenceError} (h : ∀ p ∈ l, ∀ s ∈ p.2, (Sentence.unfold t p.1 s).Faults P)
    (he : edgeWeights l t o = .error e) : P e := by
  unfold edgeWeights at he
  split at he
  · rcases Except.bind_eq_error.mp he with he | ⟨_, -, he⟩
    · obtain ⟨p, hp, he⟩ := exists_mem_of_mapM_error he
      rcases Except.bind_eq_error.mp he with he | ⟨_, -, he⟩
      · rcases Except.bind_eq_error.mp he with he | ⟨_, -, he⟩
        · exact sumOf_error o.excludeSlots _
            (faultsOf_iff.mpr (List.forall_mem_map.mpr (h p hp))) he
        · cases he
      · cases he
    · cases he
  · cases he

/-- Once the sentences are weighed, compiling returns an error that building one stops with. -/
theorem ofSentences_error_of_stops {l : IntentSentences} {t : Table} {o : CompileOptions}
    {ws : List EdgeWeight} {e : ReferenceError} (hws : edgeWeights l t o = .ok ws)
    (h : ∀ p ∈ l, ∀ s ∈ p.2, (Sentence.unfold t p.1 s).Stops o.expandSlots P)
    (he : Graph.ofSentences l t o = .error e) : P e := by
  have hstops : (buildIntents t o.expandSlots Graph.initial 0 (l.zip ws)).StopsWith P :=
    buildIntents_stopsWith _ fun p hp =>
      h p (map_fst_zip_of_length_eq (length_edgeWeights hws) ▸ hp)
  unfold Graph.ofSentences at he
  simp only [hws, bind, Except.bind] at he
  split at he
  next k err hbuild =>
    cases he
    exact hstops _ _ hbuild
  next => cases he

/-- The error that compiling returns is a fault of a sentence. -/
theorem ofSentences_error {l : IntentSentences} {t : Table} {o : CompileOptions}
    {e : ReferenceError} (h : ∀ p ∈ l, ∀ s ∈ p.2, (Sentence.unfold t p.1 s).Faults P)
    (he : Graph.ofSentences l t o = .error e) : P e := by
  cases hws : edgeWeights l t o with
  | ok ws => exact ofSentences_error_of_stops hws (fun p hp s hs => (h p hp s hs).stops _ _) he
  | error err =>
      unfold Graph.ofSentences at he
      rw [hws] at he
      cases he
      exact edgeWeights_error h hws

end

/-! ## The slots that are referred to -/

/-- The keys of the slots that the sentences refer to. -/
def IntentSentences.slotKeys (l : IntentSentences) : List String :=
  l.flatMap fun p => p.2.flatMap fun s => slotKeysOf s.items

/-- The keys of the slots that the entries of a table refer to. -/
def Table.slotKeys (t : Table) : List String := t.flatMap fun entry => slotKeysOf entry.2

theorem Table.mem_slotKeys {t : Table} {key : String} :
    key ∈ t.slotKeys ↔ ∃ entry ∈ t, key ∈ slotKeysOf entry.2 := List.mem_flatMap

@[simp] theorem Expr.slotKeys_slot (text name : String) (suffix : Suffix) (tag : Option Tag) :
    (slot text name suffix tag).slotKeys = [slotKey name] := by
  simp [slotKeys, nodes]

@[simp] theorem Expr.slotKeys_seq (kind : SequenceKind) (text : String) (items : List Expr)
    (suffix : Suffix) (tag : Option Tag) :
    (seq kind text items suffix tag).slotKeys = slotKeysOf items := by
  rw [slotKeys, nodes, List.filterMap_cons_none rfl, nodesOf_eq_flatMap, List.filterMap_flatMap]
  rfl

/-- What is referred to as a slot is the key of a slot. -/
theorem exists_name_of_mem_slotKeysOf {es : List Expr} {key : String} (h : key ∈ slotKeysOf es) :
    ∃ name, key = slotKey name := by
  obtain ⟨e, -, h⟩ := List.mem_flatMap.mp h
  obtain ⟨node, -, h⟩ := List.mem_filterMap.mp h
  cases node with
  | slot text name suffix tag => exact ⟨name, (Option.some.inj h).symm⟩
  | _ => cases h

theorem Table.exists_name_of_mem_slotKeys {t : Table} {key : String} (h : key ∈ t.slotKeys) :
    ∃ name, key = slotKey name := by
  obtain ⟨entry, -, h⟩ := mem_slotKeys.mp h
  exact exists_name_of_mem_slotKeysOf h

theorem IntentSentences.exists_name_of_mem_slotKeys {l : IntentSentences} {key : String}
    (h : key ∈ l.slotKeys) : ∃ name, key = slotKey name := by
  obtain ⟨p, -, h⟩ := List.mem_flatMap.mp h
  obtain ⟨s, -, h⟩ := List.mem_flatMap.mp h
  exact exists_name_of_mem_slotKeysOf h

/-! ## Slots that have values -/

/-- Every slot that is referred to has values. -/
def Table.Supplies (t : Table) (keys : List String) : Prop :=
  ∀ key ∈ keys, ∃ values, t.get? key = some values ∧ values ≠ []

/-- The table has nothing, or an empty list, for the key. -/
def Table.Lacks (t : Table) (key : String) : Prop :=
  ∀ values, t.get? key = some values → values = []

namespace Table

variable {t : Table} {key : String}

theorem lacks_of_none (h : t.get? key = none) : t.Lacks key := by
  intro values hget
  cases h.symm.trans hget

theorem lacks_of_get? {values : List Expr} (h : t.get? key = some values) (hnil : values = []) :
    t.Lacks key := by
  intro values' hget
  exact Option.some.inj (hget.symm.trans h) ▸ hnil

theorem Supplies.not_lacks {keys : List String} (h : t.Supplies keys) (hkey : key ∈ keys) :
    ¬t.Lacks key := by
  intro hlacks
  obtain ⟨values, hget, hne⟩ := h key hkey
  exact hne (hlacks values hget)

end Table

/-- A rule is never found under the key of a slot. -/
theorem ruleKey_ne_slotKey (grammar rule name : String) : ruleKey grammar rule ≠ slotKey name := by
  intro h
  have hchars := congrArg String.toList h
  simp [ruleKey, slotKey] at hchars

/-- The error is not that a slot is missing. -/
def ReferenceError.NotOfSlot (e : ReferenceError) : Prop := ∀ name, e ≠ .unresolved (slotKey name)

theorem notOfSlot_ruleKey (grammar rule : String) :
    (ReferenceError.unresolved (ruleKey grammar rule)).NotOfSlot := fun name h =>
  ruleKey_ne_slotKey grammar rule name (ReferenceError.unresolved.inj h)

/-- What unfolding leaves unresolved is a rule, or a slot that is referred to, for which the table
has nothing. -/
theorem faults_unfold {P : ReferenceError → Prop} {t : Table} {keys : List String}
    (ht : t.slotKeys ⊆ keys)
    (hrule : ∀ grammar rule, t.Lacks (ruleKey grammar rule) →
      P (.unresolved (ruleKey grammar rule)))
    (hslot : ∀ key ∈ keys, t.Lacks key → P (.unresolved key))
    (hrecursive : ∀ key, P (.recursive key)) :
    ∀ (c : Scope) (e : Expr), e.slotKeys ⊆ keys → (unfold t c e).Faults P := by
  have hentries : ∀ {key : String} {values : List Expr}, t.get? key = some values →
      slotKeysOf values ⊆ keys := fun hget key hkey =>
    ht (Table.mem_slotKeys.mpr ⟨_, Table.mem_of_get? hget, hkey⟩)
  have hbroken : ∀ {e : ReferenceError}, P e → FaultsOf P [.broken e] := fun {e} he => by
    rw [FaultsOf, FaultsOf, Tree.Faults]
    exact ⟨he, trivial⟩
  refine (unfold.mutual_induct t
    (fun c e => e.slotKeys ⊆ keys → (unfold t c e).Faults P)
    (fun c es => slotKeysOf es ⊆ keys → FaultsOf P (unfoldAll t c es))
    ?word ?seq ?ruleMissing ?ruleClosed ?ruleOpen ?slotMissing ?slotClosed ?slotOpen ?nil
    ?cons).1
  case word =>
    intro c text suffix tag _
    rw [unfold, Tree.Faults]
    trivial
  case seq =>
    intro c kind text items suffix tag ih he
    rw [Expr.slotKeys_seq] at he
    rw [unfold, Tree.Faults]
    exact ih he
  case ruleMissing =>
    intro c ref tag key hnone _
    rw [unfold_rule_of_none hnone, Tree.Faults]
    exact ⟨fun h => absurd h (List.cons_ne_nil _ _),
      hbroken (hrule _ _ (Table.lacks_of_none hnone))⟩
  case ruleClosed =>
    intro c ref tag key bodies hbodies hclosed ih _
    rw [unfold_rule_of_get? hbodies, hclosed, if_neg Bool.false_ne_true, Tree.Faults,
      unfoldAll_eq_map]
    rw [unfoldAll_eq_map] at ih
    exact ⟨fun h => hrule _ _ (Table.lacks_of_get? hbodies (List.map_eq_nil_iff.mp h)),
      ih (hentries hbodies)⟩
  case ruleOpen =>
    intro c ref tag key bodies hbodies hopen _
    rw [unfold_rule_of_get? hbodies, if_pos (Bool.of_not_eq_false hopen), Tree.Faults]
    exact ⟨fun h => absurd h (List.cons_ne_nil _ _), hbroken (hrecursive _)⟩
  case slotMissing =>
    intro c text name suffix tag key hnone he
    rw [unfold_slot_of_none hnone, Tree.Faults]
    exact ⟨fun h => absurd h (List.cons_ne_nil _ _),
      hbroken (hslot key (he (by simp [key])) (Table.lacks_of_none hnone))⟩
  case slotClosed =>
    intro c text name suffix tag key values hget hclosed ih he
    rw [unfold_slot_of_get? hget, hclosed, if_neg Bool.false_ne_true, Tree.Faults, unfoldAll_eq_map]
    rw [unfoldAll_eq_map] at ih
    exact ⟨fun h => hslot key (he (by simp [key]))
      (Table.lacks_of_get? hget (List.map_eq_nil_iff.mp h)), ih (hentries hget)⟩
  case slotOpen =>
    intro c text name suffix tag key values hget hopen _
    rw [unfold_slot_of_get? hget, if_pos (Bool.of_not_eq_false hopen), Tree.Faults]
    exact ⟨fun h => absurd h (List.cons_ne_nil _ _), hbroken (hrecursive _)⟩
  case nil =>
    intro c _
    rw [unfoldAll, FaultsOf]
    trivial
  case cons =>
    intro c e es ihe ihes hes
    rw [slotKeysOf, List.flatMap_cons, List.append_subset] at hes
    rw [unfoldAll, FaultsOf]
    exact ⟨ihe hes.1, ihes hes.2⟩

/-- If every slot that is referred to has values, none is reported as unresolved. -/
theorem notOfSlot_unfold {t : Table} (ht : t.Supplies t.slotKeys) (c : Scope) (e : Expr)
    (he : t.Supplies e.slotKeys) : (unfold t c e).Faults ReferenceError.NotOfSlot := by
  refine faults_unfold (List.subset_append_left t.slotKeys e.slotKeys) ?_ ?_ ?_ c e
    (List.subset_append_right _ _)
  · exact fun grammar rule _ => notOfSlot_ruleKey grammar rule
  · intro key hkey hlacks
    rcases List.mem_append.mp hkey with hkey | hkey
    · exact absurd hlacks (ht.not_lacks hkey)
    · exact absurd hlacks (he.not_lacks hkey)
  · rintro key name ⟨⟩

/-- Compiling reports only keys as unresolved for which the table has nothing. -/
theorem lacks_of_ofSentences {l : IntentSentences} {t : Table} {o : CompileOptions} {key : String}
    (h : Graph.ofSentences l t o = .error (.unresolved key)) : t.Lacks key := by
  refine ofSentences_error (P := fun e => ∀ key, e = .unresolved key → t.Lacks key)
    (fun p _ s _ => ?_) h key rfl
  refine faults_unfold (List.subset_append_left t.slotKeys s.toExpr.slotKeys) ?_ ?_ ?_ _ _
    (List.subset_append_right _ _)
  · rintro grammar rule hlacks _ ⟨⟩
    exact hlacks
  · rintro key - hlacks _ ⟨⟩
    exact hlacks
  · rintro key _ ⟨⟩

/-- If every slot that is referred to has values, compiling never misses a slot. -/
theorem ofSentences_ne_unresolved_slotKey {l : IntentSentences} {t : Table}
    (hsupplies : t.Supplies (l.slotKeys ++ t.slotKeys)) (o : CompileOptions) (name : String) :
    Graph.ofSentences l t o ≠ .error (.unresolved (slotKey name)) := by
  intro h
  refine ofSentences_error (P := ReferenceError.NotOfSlot) (fun p hp s hs => ?_) h name rfl
  refine notOfSlot_unfold (fun key hkey => hsupplies key (List.mem_append_right _ hkey)) _ _
    fun key hkey => hsupplies key (List.mem_append_left _ ?_)
  rw [Sentence.toExpr, Expr.slotKeys_seq] at hkey
  exact List.mem_flatMap.mpr ⟨p, hp, List.mem_flatMap.mpr ⟨s, hs, hkey⟩⟩

end Utterance
