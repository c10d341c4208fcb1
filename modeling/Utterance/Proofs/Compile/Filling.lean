import Mathlib.Data.String.Basic
import Utterance.Proofs.Compile.Faults
import Utterance.Train

/-!
# Filling the slots

`fillSlots` closes a table: whatever slot is referred to in the sentences or in an entry
of the result is filled there.  The pending keys are consumed while new ones come in,
so what a run guarantees is said for any table and any pending keys (`fillPending_spec`):
the table grows at its end, and every key that was ever pending has an entry
afterwards.  The keys that were consumed are named there, too, since they bound the
work of a second run, which finds nothing to do (`fillSlots_again`).

An entry is added only for a key that is referred to by what was there or by what has
been generated on the way (`SlotReached`).
-/

namespace Utterance

/-! ## Entries of tables -/

namespace Table

variable {t : Table} {key k : String} {values vs : List Expr}

@[simp] theorem slotKeys_append (t u : Table) : slotKeys (t ++ u) = t.slotKeys ++ u.slotKeys :=
  List.flatMap_append

@[simp] theorem keys_append (t u : Table) : keys (t ++ u) = t.keys ++ u.keys := List.map_append

theorem get?_eq_none_iff : t.get? key = none ↔ key ∉ t.keys := by
  simp only [get?, keys, List.lookup_eq_none_iff, List.mem_map, bne_iff_ne]
  constructor
  · rintro h ⟨entry, hentry, rfl⟩
    exact h entry hentry rfl
  · rintro h entry hentry rfl
    exact h ⟨entry, hentry, rfl⟩

theorem get?_append (t u : Table) : get? (t ++ u) key = (t.get? key).or (u.get? key) := by
  simp only [get?, List.lookup_append]

/-- What is not there yet is put in at the end. -/
theorem insert_eq_append (h : t.get? key = none) : t.insert key values = t ++ [(key, values)] := by
  rw [get?_eq_none_iff] at h
  induction t with
  | nil => rfl
  | cons entry t ih =>
      simp only [keys, List.map_cons, List.mem_cons, not_or] at h
      obtain ⟨hne, h⟩ := h
      have hbeq : (entry.1 == key) = false := by simpa using fun heq => hne heq.symm
      simp only [insert, hbeq, Bool.false_eq_true, if_false, ih h, List.cons_append]

theorem mem_keys_insert : k ∈ (t.insert key values).keys ↔ k = key ∨ k ∈ t.keys := by
  induction t with
  | nil => simp [insert, keys]
  | cons entry t ih =>
      simp only [keys, insert] at ih ⊢
      split
      next heq =>
        rw [beq_iff_eq] at heq
        subst heq
        simp
      next => simp only [List.map_cons, List.mem_cons, ih, or_left_comm]

end Table

/-! ## Pending keys -/

theorem mem_insertKey {key k : String} {l : List String} :
    k ∈ insertKey key l ↔ k = key ∨ k ∈ l := by
  induction l with
  | nil => simp [insertKey]
  | cons first l ih =>
      rw [insertKey]
      split
      · exact List.mem_cons
      · split
        next heq =>
          rw [beq_iff_eq] at heq
          subst heq
          simp
        next => rw [List.mem_cons, ih, List.mem_cons, or_left_comm]

theorem mem_insertKeys {k : String} {keys l : List String} :
    k ∈ insertKeys keys l ↔ k ∈ keys ∨ k ∈ l := by
  induction keys generalizing l with
  | nil => simp [insertKeys]
  | cons key keys ih =>
      simp only [insertKeys, List.foldl_cons] at ih ⊢
      rw [ih, mem_insertKey, List.mem_cons, or_left_comm, or_assoc]

theorem pairwise_insertKey {key : String} {l : List String} (h : l.Pairwise (· < ·)) :
    (insertKey key l).Pairwise (· < ·) := by
  induction l with
  | nil => exact List.pairwise_singleton _ _
  | cons first l ih =>
      obtain ⟨hfirst, hl⟩ := List.pairwise_cons.mp h
      rw [insertKey]
      split
      next hlt =>
        refine List.pairwise_cons.mpr ⟨fun k hk => ?_, h⟩
        rcases List.mem_cons.mp hk with rfl | hk
        · exact hlt
        · exact hlt.trans (hfirst k hk)
      next hge =>
        split
        next => exact h
        next hne =>
          refine List.pairwise_cons.mpr ⟨fun k hk => ?_, ih hl⟩
          rcases mem_insertKey.mp hk with rfl | hk
          · have hne : k ≠ first := by simpa using hne
            exact lt_of_le_of_ne (not_lt.mp hge) hne.symm
          · exact hfirst k hk

theorem pairwise_insertKeys {keys l : List String} (h : l.Pairwise (· < ·)) :
    (insertKeys keys l).Pairwise (· < ·) := by
  induction keys generalizing l with
  | nil => exact h
  | cons key keys ih => exact ih (pairwise_insertKey h)

theorem mem_pendingKeys {l : IntentSentences} {t : Table} {key : String} :
    key ∈ pendingKeys l t ↔ key ∈ l.slotKeys ∨ key ∈ t.slotKeys := by
  rw [pendingKeys, mem_insertKeys, List.mem_append]
  simp only [List.not_mem_nil, or_false]
  rfl

theorem nodup_pendingKeys (l : IntentSentences) (t : Table) : (pendingKeys l t).Nodup :=
  (pairwise_insertKeys List.Pairwise.nil).imp fun h => ne_of_lt h

/-! ## What a generator yields -/

/-- The values are, in order, the visited templates of the lines that the generator of
the slot returns for its arguments, blank lines left out. -/
def Generates (g : SlotGenerators) (visit : Sentence → Sentence) (key : String)
    (values : List Expr) : Prop :=
  ∃ f lines sentences, g.get? (slotBase key) = some f ∧ f (slotArgs key) = .ok lines ∧
    ((lines.map String.trimBlanks).filter (!·.isEmpty)).mapM Sentence.parse = .ok sentences ∧
    values = sentences.map fun s => (visit s).toExpr

section

variable {g : SlotGenerators} {visit : Sentence → Sentence} {key : String} {values : List Expr}

/-- What is done with each result may be done with the list of all results. -/
theorem mapM_map_ok {ε α β γ : Type} {f : α → Except ε β} {h : β → γ} {as : List α} :
    (as.mapM fun a => (f a).map h) = (as.mapM f).map (List.map h) := by
  induction as with
  | nil => rfl
  | cons a as ih =>
      rw [List.mapM_cons, List.mapM_cons, ih]
      cases f a with
      | error e => rfl
      | ok b => cases as.mapM f <;> rfl

theorem readValues_eq_ok {lines : List String} :
    readValues visit lines = .ok values ↔
      ∃ sentences, ((lines.map String.trimBlanks).filter (!·.isEmpty)).mapM Sentence.parse =
        .ok sentences ∧ values = sentences.map fun s => (visit s).toExpr := by
  unfold readValues
  rw [mapM_map_ok]
  cases ((lines.map String.trimBlanks).filter (!·.isEmpty)).mapM Sentence.parse with
  | error e => simp [Except.map]
  | ok sentences => simp [Except.map, eq_comm]

theorem generateSlot_eq_ok :
    generateSlot g visit key = .ok values ↔ Generates g visit key values ∧ values ≠ [] := by
  unfold generateSlot Generates
  cases hget : g.get? (slotBase key) with
  | none => simp
  | some f =>
      cases hlines : f (slotArgs key) with
      | error e => simp [hlines, Except.mapError, bind, Except.bind]
      | ok lines =>
          have hread : readValues visit lines = .ok values ↔ _ := readValues_eq_ok
          simp only [Except.mapError, bind, Except.bind, Option.some.injEq, exists_and_left,
            exists_eq_left', hlines, Except.ok.injEq]
          rw [← hread]
          cases hvalues : readValues visit lines with
          | error e => simp
          | ok vs =>
              simp only [Except.ok.injEq, pure, Except.pure]
              split
              next hempty =>
                rw [List.isEmpty_iff] at hempty
                subst hempty
                simp only [reduceCtorEq, false_iff, not_and, not_not]
                exact Eq.symm
              next hne =>
                rw [List.isEmpty_iff] at hne
                simp only [Except.ok.injEq]
                exact ⟨fun h => ⟨h, h ▸ hne⟩, And.left⟩

end

/-! ## Runs -/

/-- The key is referred to from the start, or by the values of a slot that is reached and
was not there. -/
inductive SlotReached (g : SlotGenerators) (visit : Sentence → Sentence) (t : Table)
    (roots : List String) : String → Prop where
  | root {key : String} : key ∈ roots → SlotReached g visit t roots key
  | through {key next : String} {values : List Expr} : SlotReached g visit t roots key →
      t.get? key = none → Generates g visit key values → next ∈ slotKeysOf values →
      SlotReached g visit t roots next

/-- What a run of filling guarantees that starts with some keys pending and ends with the
table `t'`, after the keys `consumed`. -/
structure FillRun (g : SlotGenerators) (visit : Sentence → Sentence) (pending : List String)
    (t t' : Table) (added : Table) (consumed : List String) : Prop where
  grown : t' = t ++ added
  /-- The keys that are added are new, and no two are the same. -/
  fresh : added.keys.Nodup ∧ ∀ key ∈ added.keys, key ∉ t.keys
  generated : ∀ entry ∈ added, generateSlot g visit entry.1 = .ok entry.2
  /-- Whatever was pending at some time has been consumed. -/
  met : ∀ key ∈ pending ++ added.slotKeys, key ∈ consumed
  filled : ∀ key ∈ consumed, key ∈ t'.keys
  reached : ∀ {t₀ : Table} {roots : List String}, (∀ key ∈ t₀.keys, key ∈ t.keys) →
    (∀ key ∈ pending, SlotReached g visit t₀ roots key) →
    ∀ key ∈ added.keys, SlotReached g visit t₀ roots key

namespace FillRun

variable {g : SlotGenerators} {visit : Sentence → Sentence} {key : String} {pending : List String}
  {t t' added : Table} {consumed : List String}

theorem nil (g : SlotGenerators) (visit : Sentence → Sentence) (t : Table) :
    FillRun g visit [] t t [] [] where
  grown := (List.append_nil t).symm
  fresh := ⟨List.nodup_nil, fun _ h => (List.not_mem_nil h).elim⟩
  generated := fun _ h => (List.not_mem_nil h).elim
  met := fun _ h => h
  filled := fun _ h => (List.not_mem_nil h).elim
  reached := fun _ _ _ h => (List.not_mem_nil h).elim

/-- A key with an entry is passed over. -/
theorem skip (hkey : key ∈ t.keys) (h : FillRun g visit pending t t' added consumed) :
    FillRun g visit (key :: pending) t t' added (key :: consumed) where
  grown := h.grown
  fresh := h.fresh
  generated := h.generated
  met := List.forall_mem_cons.mpr ⟨List.mem_cons_self,
    fun k hk => List.mem_cons_of_mem _ (h.met k hk)⟩
  filled := List.forall_mem_cons.mpr ⟨by
    rw [h.grown, Table.keys_append]
    exact List.mem_append_left _ hkey, h.filled⟩
  reached := fun hkeys hroots => h.reached hkeys fun k hk => hroots k (List.mem_cons_of_mem _ hk)

/-- A key without an entry gets its values, whose slots are pending from then on. -/
theorem fill {values : List Expr} (hkey : t.get? key = none)
    (hvalues : generateSlot g visit key = .ok values)
    (h : FillRun g visit (insertKeys (slotKeysOf values) pending) (t.insert key values) t' added
      consumed) :
    FillRun g visit (key :: pending) t t' ((key, values) :: added) (key :: consumed) where
  grown := by rw [h.grown, Table.insert_eq_append hkey, List.append_assoc, List.singleton_append]
  fresh := by
    obtain ⟨hnodup, hnew⟩ := h.fresh
    simp only [Table.mem_keys_insert, not_or] at hnew
    refine ⟨List.nodup_cons.mpr ⟨fun hmem => (hnew key hmem).1 rfl, hnodup⟩,
      List.forall_mem_cons.mpr ⟨Table.get?_eq_none_iff.mp hkey, fun k hk => (hnew k hk).2⟩⟩
  generated := List.forall_mem_cons.mpr ⟨hvalues, h.generated⟩
  met := by
    intro k hk
    have hrest := h.met k
    rw [List.mem_append, mem_insertKeys] at hrest
    rw [List.cons_append, List.mem_cons, List.mem_append] at hk
    rw [Table.slotKeys, List.flatMap_cons, List.mem_append] at hk
    rcases hk with rfl | hk | hk | hk
    · exact List.mem_cons_self
    · exact List.mem_cons_of_mem _ (hrest (.inl (.inr hk)))
    · exact List.mem_cons_of_mem _ (hrest (.inl (.inl hk)))
    · exact List.mem_cons_of_mem _ (hrest (.inr hk))
  filled := by
    refine List.forall_mem_cons.mpr ⟨?_, h.filled⟩
    rw [h.grown, Table.keys_append]
    exact List.mem_append_left _ (Table.mem_keys_insert.mpr (.inl rfl))
  reached := by
    intro t₀ roots hkeys hroots
    have hreached := hroots key List.mem_cons_self
    refine List.forall_mem_cons.mpr ⟨hreached, h.reached
      (fun k hk => Table.mem_keys_insert.mpr (.inr (hkeys k hk))) fun k hk => ?_⟩
    rcases mem_insertKeys.mp hk with hk | hk
    · have hnew : t₀.get? key = none :=
        Table.get?_eq_none_iff.mpr fun hmem => Table.get?_eq_none_iff.mp hkey (hkeys key hmem)
      exact .through hreached hnew (generateSlot_eq_ok.mp hvalues).1 hk
    · exact hroots k (List.mem_cons_of_mem _ hk)

end FillRun

/-- One step fills the slot of a key without an entry. -/
theorem fillPending_of_generated {g : SlotGenerators} {visit : Sentence → Sentence} {bound : Nat}
    {t : Table} {key : String} {pending : List String} {values : List Expr}
    (hkey : t.get? key = none) (hvalues : generateSlot g visit key = .ok values) :
    fillPending g visit (bound + 1) t (key :: pending) =
      fillPending g visit bound (t.insert key values) (insertKeys (slotKeysOf values) pending) := by
  rw [fillPending, hkey]
  simp only [hvalues, bind, Except.bind]

/-- Each run consumes at most as many keys as it may take steps. -/
theorem fillPending_spec {g : SlotGenerators} {visit : Sentence → Sentence} :
    ∀ {bound : Nat} {t t' : Table} {pending : List String},
      fillPending g visit bound t pending = .ok t' →
        ∃ added consumed,
          consumed.length ≤ bound ∧ FillRun g visit pending t t' added consumed := by
  intro bound t t' pending h
  induction bound, t, pending using fillPending.induct with
  | case1 =>
      rw [fillPending] at h
      cases h
      exact ⟨[], [], Nat.zero_le _, .nil g visit _⟩
  | case2 t key pending =>
      rw [fillPending] at h
      cases h
  | case3 t bound key pending values hget ih =>
      rw [fillPending, hget] at h
      obtain ⟨added, consumed, hlength, hrun⟩ := ih h
      exact ⟨added, key :: consumed, Nat.succ_le_succ hlength,
        hrun.skip (Table.mem_keys_of_get? hget)⟩
  | case4 t bound key pending hget ih =>
      cases hvalues : generateSlot g visit key with
      | error e =>
          rw [fillPending, hget] at h
          simp only [hvalues, bind, Except.bind, reduceCtorEq] at h
      | ok values =>
          rw [fillPending_of_generated hget hvalues] at h
          obtain ⟨added, consumed, hlength, hrun⟩ := ih values h
          exact ⟨(key, values) :: added, key :: consumed, Nat.succ_le_succ hlength,
            hrun.fill hget hvalues⟩

/-- Where every pending key has an entry, nothing is done. -/
theorem fillPending_of_filled {g : SlotGenerators} {visit : Sentence → Sentence} {t : Table} :
    ∀ {bound : Nat} {pending : List String}, pending.length ≤ bound →
      (∀ key ∈ pending, key ∈ t.keys) → fillPending g visit bound t pending = .ok t
  | _, [], _, _ => by rw [fillPending]
  | 0, key :: pending, hlength, _ => absurd hlength (Nat.not_succ_le_zero _)
  | bound + 1, key :: pending, hlength, hkeys => by
      obtain ⟨hkey, hkeys⟩ := List.forall_mem_cons.mp hkeys
      cases hget : t.get? key with
      | none => exact (Table.get?_eq_none_iff.mp hget hkey).elim
      | some values =>
          rw [fillPending, hget]
          exact fillPending_of_filled (Nat.le_of_succ_le_succ hlength) hkeys

/-! ## Closed tables -/

/-- What filling makes of a table `t`. -/
structure Filling (g : SlotGenerators) (visit : Sentence → Sentence) (l : IntentSentences)
    (t t' : Table) : Prop where
  /-- Every slot that is referred to, in the sentences or in an entry, has an entry. -/
  closed : ∀ key ∈ l.slotKeys ++ t'.slotKeys, key ∈ t'.keys
  kept : ∀ key values, t.get? key = some values → t'.get? key = some values
  reached : ∀ key ∈ t'.keys, key ∉ t.keys →
    (∃ name, key = slotKey name) ∧ SlotReached g visit t (l.slotKeys ++ t.slotKeys) key
  generated : ∀ key values, key ∉ t.keys → t'.get? key = some values →
    Generates g visit key values ∧ values ≠ []

section

variable {g : SlotGenerators} {visit : Sentence → Sentence} {l : IntentSentences} {t t' : Table}
  {bound : Nat}

theorem SlotReached.exists_name {roots : List String}
    (hroots : ∀ key ∈ roots, ∃ name, key = slotKey name) {key : String}
    (h : SlotReached g visit t roots key) : ∃ name, key = slotKey name := by
  cases h with
  | root hkey => exact hroots key hkey
  | through _ _ _ hkey => exact exists_name_of_mem_slotKeysOf hkey

theorem filling_of_fillSlots (h : fillSlots g visit l t bound = .ok t') :
    Filling g visit l t t' := by
  obtain ⟨added, consumed, -, hrun⟩ := fillPending_spec h
  obtain rfl := hrun.grown
  have hroots : ∀ key ∈ l.slotKeys ++ t.slotKeys, ∃ name, key = slotKey name := by
    intro key hkey
    rcases List.mem_append.mp hkey with hkey | hkey
    · exact IntentSentences.exists_name_of_mem_slotKeys hkey
    · exact Table.exists_name_of_mem_slotKeys hkey
  have hadded : ∀ key ∈ Table.keys (t ++ added), key ∉ t.keys → key ∈ added.keys := by
    intro key hkey hnew
    rw [Table.keys_append, List.mem_append] at hkey
    exact hkey.resolve_left hnew
  constructor
  case closed =>
    intro key hkey
    refine hrun.filled key (hrun.met key ?_)
    rw [Table.slotKeys_append, ← List.append_assoc, List.mem_append] at hkey
    rw [List.mem_append, mem_pendingKeys, ← List.mem_append]
    exact hkey
  case kept =>
    intro key values hget
    rw [Table.get?_append, hget, Option.some_or]
  case reached =>
    intro key hkey hnew
    have hreached : SlotReached g visit t (l.slotKeys ++ t.slotKeys) key :=
      hrun.reached (fun _ h => h) (fun k hk => .root (List.mem_append.mpr (mem_pendingKeys.mp hk)))
        key (hadded key hkey hnew)
    exact ⟨hreached.exists_name hroots, hreached⟩
  case generated =>
    intro key values hnew hget
    rw [Table.get?_append, Table.get?_eq_none_iff.mpr hnew, Option.none_or] at hget
    have hvalues := hrun.generated (key, values) (Table.mem_of_get? hget)
    exact generateSlot_eq_ok.mp hvalues

/-- A table that has been filled is not changed by filling it again, with any generators. -/
theorem fillSlots_again (h : fillSlots g visit l t bound = .ok t') (g' : SlotGenerators)
    (visit' : Sentence → Sentence) : fillSlots g' visit' l t' bound = .ok t' := by
  obtain ⟨added, consumed, hlength, hrun⟩ := fillPending_spec h
  have hclosed := (filling_of_fillSlots h).closed
  -- What is pending now was pending then, and each key only once.
  have hsub : pendingKeys l t' ⊆ consumed := by
    intro key hkey
    refine hrun.met key ?_
    rw [mem_pendingKeys, hrun.grown, Table.slotKeys_append, List.mem_append, ← or_assoc] at hkey
    rw [List.mem_append, mem_pendingKeys]
    exact hkey
  have hle : (pendingKeys l t').length ≤ consumed.length :=
    ((nodup_pendingKeys l t').subperm hsub).length_le
  exact fillPending_of_filled (hle.trans hlength) fun key hkey =>
    hclosed key (List.mem_append.mpr (mem_pendingKeys.mp hkey))

end

/-! ## Words that refer to no slot -/

section

variable {f : String → Suffix → Option Tag → Expr}

mutual

theorem Expr.slotKeys_mapWords (hf : ∀ text suffix tag, (f text suffix tag).slotKeys = []) :
    ∀ e : Expr, (e.mapWords f).slotKeys = e.slotKeys
  | .word text suffix tag => by
      rw [mapWords, hf]
      rfl
  | .seq kind text items suffix tag => by
      rw [mapWords, slotKeys_seq, slotKeys_seq, slotKeysOf_mapWordsOf hf items]
  | .rule ref tag => by rw [mapWords]
  | .slot text name suffix tag => by rw [mapWords]

theorem Expr.slotKeysOf_mapWordsOf (hf : ∀ text suffix tag, (f text suffix tag).slotKeys = []) :
    ∀ es : List Expr, slotKeysOf (mapWordsOf f es) = slotKeysOf es
  | [] => by rw [mapWordsOf]
  | e :: es => by
      rw [mapWordsOf, slotKeysOf, List.flatMap_cons, slotKeys_mapWords hf e, slotKeysOf,
        List.flatMap_cons]
      exact congrArg (e.slotKeys ++ ·) (slotKeysOf_mapWordsOf hf es)

end

theorem IntentSentences.slotKeys_mapWords
    (hf : ∀ text suffix tag, (f text suffix tag).slotKeys = []) (l : IntentSentences) :
    (l.mapWords f).slotKeys = l.slotKeys := by
  simp only [slotKeys, mapWords, List.flatMap_map, Sentence.mapWords, Expr.slotKeysOf_mapWordsOf hf]

theorem Table.slotKeys_mapExprs {f : Expr → Expr} (hf : ∀ e, (f e).slotKeys = e.slotKeys)
    (t : Table) : (t.mapExprs f).slotKeys = t.slotKeys := by
  simp only [slotKeys, mapExprs, List.flatMap_map, slotKeysOf, hf]

end

@[simp] theorem Table.keys_mapExprs (f : Expr → Expr) (t : Table) :
    (t.mapExprs f).keys = t.keys := by
  simp only [keys, mapExprs, List.map_map]
  rfl

theorem Table.get?_mapExprs (f : Expr → Expr) (t : Table) (key : String) :
    (t.mapExprs f).get? key = (t.get? key).map (List.map f) := by
  induction t with
  | nil => rfl
  | cons entry t ih =>
      obtain ⟨k, values⟩ := entry
      simp only [get?, mapExprs, List.map_cons, List.lookup_cons] at ih ⊢
      cases key == k with
      | true => rfl
      | false => exact ih

/-! ## Training -/

/-- A table with the rules of a corpus alone has entries for rules only. -/
theorem Corpus.exists_ruleKey_of_mem_keys_split (c : Corpus) :
    ∀ key ∈ c.split.2.keys, ∃ grammar rule, key = ruleKey grammar rule := by
  have hsection : ∀ (s : IntentSection) {t : Table},
      (∀ key ∈ t.keys, ∃ grammar rule, key = ruleKey grammar rule) →
      ∀ key ∈ (s.addRules t).keys, ∃ grammar rule, key = ruleKey grammar rule := by
    intro s
    unfold IntentSection.addRules
    induction s.items with
    | nil => exact id
    | cons item items ih =>
        intro t ht
        refine ih ?_
        cases item with
        | sentence => exact ht
        | rule r =>
            intro key hkey
            rcases Table.mem_keys_insert.mp hkey with rfl | hkey
            · exact ⟨_, _, rfl⟩
            · exact ht key hkey
  have hall : ∀ (sections : List IntentSection) {t : Table},
      (∀ key ∈ t.keys, ∃ grammar rule, key = ruleKey grammar rule) →
      ∀ key ∈ (sections.foldl (fun t s => s.addRules t) t).keys,
        ∃ grammar rule, key = ruleKey grammar rule := by
    intro sections
    induction sections with
    | nil => exact id
    | cons s sections ih => exact fun ht => ih (hsection s ht)
  exact hall c.sections fun _ h => (List.not_mem_nil h).elim

theorem Number.slotKeys_spokenExprs (text : String) (ws : List String) :
    slotKeysOf (spokenExprs text ws) = [] := by
  have hplain : ∀ w, (Expr.plain w).slotKeys = [] := fun _ => rfl
  unfold spokenExprs
  split
  · rfl
  · split
    · rfl
    · rfl
  · simp only [slotKeysOf, List.flatMap_cons, List.flatMap_nil, Expr.slotKeys_seq, List.flatMap_map,
      hplain, List.append_nil]
    simp

namespace Trainer

variable {tr : Trainer} {corpus : Corpus}

theorem slotKeys_numberWord (tr : Trainer) (text : String) (suffix : Suffix) (tag : Option Tag) :
    (tr.numberWord text suffix tag).slotKeys = [] := by
  unfold numberWord Number.integerOrSpoken
  split
  · split
    · rw [Expr.slotKeys_seq, slotKeysOf, List.flatMap_cons]
      exact Number.slotKeys_spokenExprs text _
    · rfl
  · rfl

/-- The sentences and the table whose slots are filled: ranges are slots and words are cased. -/
def cased (tr : Trainer) (corpus : Corpus) : IntentSentences × Table :=
  ((corpus.split.1.mapWords Number.rangeAsSlot).mapWords tr.config.casing.word,
    (corpus.split.2.mapExprs (Expr.mapWords Number.rangeAsSlot)).mapExprs tr.config.casing.expr)

/-- Training with a bound of its own on the number of slots. -/
def trainWithin (tr : Trainer) (bound : Nat) (corpus : Corpus) : Except TrainError Graph := do
  let table ← (fillSlots tr.generators tr.config.casing.sentence (tr.cased corpus).1
    (tr.cased corpus).2 bound).mapError .slot
  (Graph.ofSentences ((tr.cased corpus).1.mapWords tr.numberWord)
    (table.mapExprs (Expr.mapWords tr.numberWord)) tr.config.compileOptions).mapError .reference

theorem train_eq_trainWithin (tr : Trainer) (corpus : Corpus) :
    tr.train corpus = tr.trainWithin slotBound corpus := by
  have hprepare : tr.prepare corpus = (fillSlots tr.generators tr.config.casing.sentence
      (tr.cased corpus).1 (tr.cased corpus).2).map fun table =>
        ((tr.cased corpus).1.mapWords tr.numberWord,
          table.mapExprs (Expr.mapWords tr.numberWord)) := rfl
  unfold train trainWithin
  rw [hprepare]
  cases fillSlots tr.generators tr.config.casing.sentence (tr.cased corpus).1
    (tr.cased corpus).2 <;> rfl

theorem trainWithin_eq_ok {bound : Nat} {g : Graph} :
    tr.trainWithin bound corpus = .ok g ↔
      ∃ t, fillSlots tr.generators tr.config.casing.sentence (tr.cased corpus).1
          (tr.cased corpus).2 bound = .ok t ∧
        Graph.ofSentences ((tr.cased corpus).1.mapWords tr.numberWord)
          (t.mapExprs (Expr.mapWords tr.numberWord)) tr.config.compileOptions = .ok g := by
  unfold trainWithin
  cases fillSlots tr.generators tr.config.casing.sentence (tr.cased corpus).1
      (tr.cased corpus).2 bound with
  | error e => simp [Except.mapError, bind, Except.bind]
  | ok t =>
      simp only [Except.mapError, bind, Except.bind, Except.ok.injEq, exists_eq_left']
      cases Graph.ofSentences ((tr.cased corpus).1.mapWords tr.numberWord)
        (t.mapExprs (Expr.mapWords tr.numberWord)) tr.config.compileOptions <;> simp

/-- The table that filling ends with supplies all slots with values. -/
theorem supplies_of_fillSlots {bound : Nat} {t : Table}
    (h : fillSlots tr.generators tr.config.casing.sentence (tr.cased corpus).1 (tr.cased corpus).2
      bound = .ok t) :
    (t.mapExprs (Expr.mapWords tr.numberWord)).Supplies
      (((tr.cased corpus).1.mapWords tr.numberWord).slotKeys ++
        (t.mapExprs (Expr.mapWords tr.numberWord)).slotKeys) := by
  have hfilling := filling_of_fillSlots h
  have hnumber := tr.slotKeys_numberWord
  rw [IntentSentences.slotKeys_mapWords hnumber,
    Table.slotKeys_mapExprs (Expr.slotKeys_mapWords hnumber)]
  intro key hkey
  have hmem := hfilling.closed key hkey
  have hnew : key ∉ (tr.cased corpus).2.keys := by
    intro hold
    simp only [cased, Table.keys_mapExprs] at hold
    obtain ⟨grammar, rule, rfl⟩ := corpus.exists_ruleKey_of_mem_keys_split key hold
    have hname : ∃ name, ruleKey grammar rule = slotKey name := by
      rcases List.mem_append.mp hkey with hkey | hkey
      · exact IntentSentences.exists_name_of_mem_slotKeys hkey
      · exact Table.exists_name_of_mem_slotKeys hkey
    obtain ⟨name, hname⟩ := hname
    exact ruleKey_ne_slotKey grammar rule name hname
  cases hget : t.get? key with
  | none => exact (Table.get?_eq_none_iff.mp hget hmem).elim
  | some values =>
      have hne := (hfilling.generated key values hnew hget).2
      rw [Table.get?_mapExprs, hget]
      exact ⟨_, rfl, fun hnil => hne (List.map_eq_nil_iff.mp hnil)⟩

/-- Training never misses a slot. -/
theorem trainWithin_ne_unresolved_slotKey (tr : Trainer) (bound : Nat) (corpus : Corpus)
    (name : String) :
    tr.trainWithin bound corpus ≠ .error (.reference (.unresolved (slotKey name))) := by
  intro h
  unfold trainWithin at h
  cases hfill : fillSlots tr.generators tr.config.casing.sentence (tr.cased corpus).1
      (tr.cased corpus).2 bound with
  | error e => simp [hfill, Except.mapError, bind, Except.bind] at h
  | ok t =>
      simp only [hfill, Except.mapError, bind, Except.bind] at h
      have hne := ofSentences_ne_unresolved_slotKey (supplies_of_fillSlots hfill)
        tr.config.compileOptions name
      split at h
      next e he =>
        cases h
        exact hne he
      next => cases h

end Trainer

/-- Filling closes a table.  Every slot that the sentences or an entry refers to has an entry
then; old entries are kept, and what is added is the values of slots that are reached.  So
filling again changes nothing, and training never misses a slot. -/
theorem fillSlots_closes {g : SlotGenerators} {visit : Sentence → Sentence} {l : IntentSentences}
    {t t' : Table} {bound : Nat} (h : fillSlots g visit l t bound = .ok t') :
    Filling g visit l t t' ∧
      (∀ (g' : SlotGenerators) (visit' : Sentence → Sentence),
        fillSlots g' visit' l t' bound = .ok t') ∧
      ∀ (tr : Trainer) (corpus : Corpus) (name : String),
        tr.train corpus ≠ .error (.reference (.unresolved (slotKey name))) ∧
          ∀ bound, tr.trainWithin bound corpus ≠ .error (.reference (.unresolved (slotKey name))) :=
  ⟨filling_of_fillSlots h, fillSlots_again h, fun tr corpus name =>
    ⟨tr.train_eq_trainWithin corpus ▸ tr.trainWithin_ne_unresolved_slotKey slotBound corpus name,
      fun bound => tr.trainWithin_ne_unresolved_slotKey bound corpus name⟩⟩

/-- A room is the kitchen or one that is named by its colour. -/
def roomSlots : SlotGenerators :=
  SlotGenerators.registerValues
    (({} : SlotGenerators).registerValues "room" ["kitchen", "  ", " the $colour room "])
    "colour" ["red"]

/-- `light $room` -/
def roomSentence : Sentence := ⟨"light $room", [.plain "light", .slot "$room" "room" {} none]⟩

/-- The sentence with one more word. -/
def politely (s : Sentence) : Sentence := { s with items := s.items ++ [.plain "please"] }

def roomValues : List Expr :=
  [.seq .group "kitchen" [.plain "kitchen", .plain "please"] {} none,
    .seq .group "the $colour room" [.plain "the", .slot "$colour" "colour" {} none,
      .plain "room", .plain "please"] {} none]

def colourValues : List Expr := [.seq .group "red" [.plain "red", .plain "please"] {} none]

def roomTable : Table := [("$room", roomValues), ("$colour", colourValues)]

theorem generates_room : Generates roomSlots politely "$room" roomValues := by
  have hget : roomSlots.get? (slotBase "$room") =
      some fun _ => .ok ["kitchen", "  ", " the $colour room "] := by with_unfolding_all rfl
  have hlines : (["kitchen", "  ", " the $colour room "].map String.trimBlanks).filter
      (!·.isEmpty) = ["kitchen", "the $colour room"] := by decide
  have hparse : ["kitchen", "the $colour room"].mapM Sentence.parse = .ok
      [⟨"kitchen", [.plain "kitchen"]⟩, ⟨"the $colour room",
        [.plain "the", .slot "$colour" "colour" {} none, .plain "room"]⟩] := by
    with_unfolding_all rfl
  exact ⟨_, _, _, hget, rfl, hlines ▸ hparse, rfl⟩

theorem generates_colour : Generates roomSlots politely "$colour" colourValues := by
  have hget : roomSlots.get? (slotBase "$colour") = some fun _ => .ok ["red"] := by
    with_unfolding_all rfl
  have hlines : (["red"].map String.trimBlanks).filter (!·.isEmpty) = ["red"] := by decide
  have hparse : ["red"].mapM Sentence.parse = .ok [⟨"red", [.plain "red"]⟩] := by
    with_unfolding_all rfl
  exact ⟨_, _, _, hget, rfl, hlines ▸ hparse, rfl⟩

/-- Two steps fill the table: the second is for a slot that values of the first refer to. -/
theorem fillPending_room (n : Nat) :
    fillPending roomSlots politely (n + 2) [] ["$room"] = .ok roomTable := by
  have hroom := generateSlot_eq_ok.mpr ⟨generates_room, List.cons_ne_nil _ _⟩
  have hcolour := generateSlot_eq_ok.mpr ⟨generates_colour, List.cons_ne_nil _ _⟩
  have hnext : insertKeys (slotKeysOf roomValues) [] = ["$colour"] := by decide
  have hnone : insertKeys (slotKeysOf colourValues) [] = [] := by decide
  have hnew : Table.get? [("$room", roomValues)] "$colour" = none := by
    simp [Table.get?]
  rw [fillPending_of_generated rfl hroom, hnext]
  refine (fillPending_of_generated hnew hcolour).trans ?_
  rw [hnone, fillPending, Table.insert_eq_append hnew]
  rfl

/-- The values of one slot refer to another one. -/
theorem fillSlots_roomTable :
    fillSlots roomSlots politely [("Light", [roomSentence])] [] = .ok roomTable ∧
      Filling roomSlots politely [("Light", [roomSentence])] [] roomTable ∧
      fillSlots {} id [("Light", [roomSentence])] roomTable = .ok roomTable := by
  have hpending : pendingKeys [("Light", [roomSentence])] [] = ["$room"] := by decide
  have hfill : fillSlots roomSlots politely [("Light", [roomSentence])] [] = .ok roomTable := by
    rw [fillSlots, hpending]
    exact fillPending_room 999998
  obtain ⟨hfilling, hagain, -⟩ := fillSlots_closes hfill
  exact ⟨hfill, hfilling, hagain {} id⟩

end Utterance
