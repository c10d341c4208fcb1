import Utterance.Corpus.Ini
import Utterance.Proofs.Latest
import Utterance.Proofs.Text.Blank

/-!
# What a corpus text declares

The sections of a text are read line by line into a list that grows.  What is in it
in the end can be told from the lines alone: the names are those of the headers, each
where it was met first, and in a section stand the lines that follow its headers, put
one after the other into a list in which a line with a known key replaces the old one
(`sections_spec`): the last lines with their keys (`declared_eq_latest`).

Such a list is known by the order of its keys and by what each of them is given
(`eq_of_lookup`).  So to put more lines into it is to lay the list of these lines over
it (`putAll_eq_overlay`).  Texts are put one after the other line by line when the first one
ends in a line feed (`rows_append`), so the sections of both together are those of the
second laid over those of the first (`declared_append`).
-/

namespace Utterance

/-! ## Lists without repetitions -/

section

variable {α : Type} [DecidableEq α]

theorem eraseDups_of_nodup {l : List α} (h : l.Nodup) : l.eraseDups = l := by
  induction l using List.reverseRecOn with
  | nil => rfl
  | append_singleton l a ih =>
      obtain ⟨hl, -, hdisjoint⟩ := List.nodup_append.mp h
      have ha : a ∉ l := fun ha => hdisjoint a ha a (List.mem_singleton_self a) rfl
      rw [Graph.eraseDups_concat, ih hl, Graph.appendNew, if_neg ha]

theorem foldl_appendNew {l : List α} (h : l.Nodup) (as : List α) :
    as.foldl Graph.appendNew l = (l ++ as).eraseDups := by
  induction as using List.reverseRecOn with
  | nil => simp [eraseDups_of_nodup h]
  | append_singleton as a ih =>
      rw [List.foldl_concat, ih, ← List.append_assoc, Graph.eraseDups_concat]

theorem nodup_appendNew {l : List α} (h : l.Nodup) (a : α) : (Graph.appendNew l a).Nodup := by
  rw [← eraseDups_of_nodup h, ← Graph.eraseDups_concat]
  exact nodup_eraseDups _

theorem filter_appendNew (p : α → Bool) (l : List α) (a : α) :
    (Graph.appendNew l a).filter p =
      if p a then Graph.appendNew (l.filter p) a else l.filter p := by
  rw [Graph.appendNew, Graph.appendNew]
  by_cases hmem : a ∈ l <;> by_cases ha : p a = true <;> simp [hmem, ha]

theorem filter_eraseDups (p : α → Bool) (l : List α) :
    l.eraseDups.filter p = (l.filter p).eraseDups := by
  induction l using List.reverseRecOn with
  | nil => rfl
  | append_singleton l a ih =>
      rw [Graph.eraseDups_concat, filter_appendNew, ih, List.filter_append]
      by_cases ha : p a = true
      · rw [if_pos ha, ← Graph.eraseDups_concat]
        simp [ha]
      · simp [ha]

theorem eraseDups_append_eraseDups (l m : List α) :
    (l.eraseDups ++ m.eraseDups).eraseDups = (l ++ m).eraseDups := by
  induction m using List.reverseRecOn with
  | nil => simp [eraseDups_of_nodup (nodup_eraseDups l)]
  | append_singleton m a ih =>
      rw [← List.append_assoc, Graph.eraseDups_concat, Graph.eraseDups_concat, ← ih]
      by_cases hmem : a ∈ m
      · simp [Graph.appendNew, hmem]
      · rw [Graph.appendNew, if_neg (mt List.mem_eraseDups.mp hmem), ← List.append_assoc,
          Graph.eraseDups_concat]

end

theorem find?_key_of_mem {α κ : Type} [DecidableEq κ] {key : α → κ} {l : List α}
    (h : (l.map key).Nodup) {a : α} (ha : a ∈ l) :
    l.find? (fun b => key b == key a) = some a := by
  cases hfound : l.find? fun b => key b == key a with
  | none => exact absurd (beq_self_eq_true _) (List.find?_eq_none.mp hfound a ha)
  | some b =>
      have hkey : key b = key a := by simpa using List.find?_some hfound
      exact congrArg some
        (List.inj_on_of_nodup_map h (List.mem_of_find?_eq_some hfound) ha hkey)

namespace Ini

/-! ## Lines under keys -/

/-- The key of a line and, if it declares a rule, the rule's body. -/
abbrev Declaration := String × Option String

def Entry.declaration (e : Entry) : Declaration := (e.key, e.value)

/-- Puts a line in the place of the one with its key, or at the end. -/
def put (d : Declaration) : List Declaration → List Declaration
  | [] => [d]
  | old :: rest => if old.1 == d.1 then d :: rest else old :: put d rest

/-- The old lines in their places, each as the new ones have it, and then the lines
whose keys only the new ones have. -/
def overlay (old new : List Declaration) : List Declaration :=
  old.map (fun d => (d.1, (new.lookup d.1).getD d.2)) ++
    new.filter fun d => d.1 ∉ old.map Prod.fst

/-- Puts in lines one after the other. -/
def putAll (old ds : List Declaration) : List Declaration := ds.foldl (fun l d => put d l) old

variable {d : Declaration} {old new l m : List Declaration} {k : String}

theorem map_declaration_upsert (e : Entry) (l : List Entry) :
    (upsert e l).map Entry.declaration = put e.declaration (l.map Entry.declaration) := by
  induction l with
  | nil => rfl
  | cons old rest ih =>
      rw [upsert, List.map_cons, put]
      by_cases hkey : old.key = e.key <;> simp [hkey, ih, Entry.declaration]

theorem keys_put (d : Declaration) (l : List Declaration) :
    (put d l).map Prod.fst = Graph.appendNew (l.map Prod.fst) d.1 := by
  induction l with
  | nil => rfl
  | cons old rest ih =>
      rw [put, Graph.appendNew]
      by_cases hkey : old.1 = d.1
      · simp [hkey]
      · have hne : ¬d.1 = old.1 := fun h => hkey h.symm
        rw [Graph.appendNew] at ih
        by_cases hmem : d.1 ∈ rest.map Prod.fst <;> simp_all

theorem put_eq {d : Declaration} {l : List Declaration} (h : (l.map Prod.fst).Nodup) :
    put d l = if d.1 ∈ l.map Prod.fst then l.map fun old => if old.1 = d.1 then d else old
      else l ++ [d] := by
  induction l with
  | nil => rfl
  | cons old rest ih =>
      rw [List.map_cons, List.nodup_cons] at h
      rw [put, ih h.2, List.map_cons, List.map_cons]
      by_cases hold : old.1 = d.1
      · have hrest : (rest.map fun old => if old.1 = d.1 then d else old) = rest := by
          refine (List.map_congr_left fun e he => if_neg fun hkey => h.1 ?_).trans (List.map_id _)
          rw [hold, ← hkey]
          exact List.mem_map_of_mem he
        rw [if_pos (beq_iff_eq.mpr hold), if_pos (hold ▸ List.mem_cons_self), if_pos hold, hrest]
      · have hmem : d.1 ∈ old.1 :: rest.map Prod.fst ↔ d.1 ∈ rest.map Prod.fst := by
          rw [List.mem_cons, or_iff_right (Ne.symm hold)]
        simp only [if_neg (mt beq_iff_eq.mp hold), if_neg hold, hmem]
        split <;> rfl

theorem lookup_cons_eq {β : Type} (d : String × β) (l : List (String × β)) (k : String) :
    (d :: l).lookup k = if k = d.1 then some d.2 else l.lookup k := by
  obtain ⟨key, body⟩ := d
  rw [List.lookup_cons]
  by_cases hk : k = key
  · simp [hk]
  · rw [beq_false_of_ne hk, if_neg hk]

theorem lookup_put (d : Declaration) (l : List Declaration) (k : String) :
    (put d l).lookup k = if k = d.1 then some d.2 else l.lookup k := by
  induction l with
  | nil => exact lookup_cons_eq d [] k
  | cons old rest ih =>
      rw [put]
      split
      next hkey =>
        rw [lookup_cons_eq, lookup_cons_eq, eq_of_beq hkey]
        split <;> rfl
      next hkey =>
        rw [lookup_cons_eq, lookup_cons_eq, ih]
        split
        next hk => rw [if_neg fun h => hkey (beq_iff_eq.mpr (hk.symm.trans h))]
        next => rfl

theorem lookup_eq_none_iff {l : List Declaration} {k : String} :
    l.lookup k = none ↔ k ∉ l.map Prod.fst := by
  simp only [List.lookup_eq_none_iff, List.mem_map, bne_iff_ne, ne_eq, not_exists, not_and]
  exact forall₂_congr fun d _ => not_congr eq_comm

/-- A list without repeated keys is known by its keys and by what each is given. -/
theorem eq_of_lookup (hnodup : (l.map Prod.fst).Nodup) (hkeys : l.map Prod.fst = m.map Prod.fst)
    (h : ∀ k, l.lookup k = m.lookup k) : l = m := by
  induction l generalizing m with
  | nil => exact (List.map_eq_nil_iff.mp hkeys.symm).symm
  | cons d l ih =>
      cases m with
      | nil => cases hkeys
      | cons e m =>
          rw [List.map_cons, List.map_cons, List.cons.injEq] at hkeys
          obtain ⟨hkey, hkeys⟩ := hkeys
          rw [List.map_cons, List.nodup_cons] at hnodup
          have hvalue : d.2 = e.2 := by simpa [lookup_cons_eq, hkey] using h e.1
          have hrest : ∀ k, l.lookup k = m.lookup k := by
            intro k
            by_cases hk : k = d.1
            · rw [lookup_eq_none_iff.mpr (hk ▸ hnodup.1),
                lookup_eq_none_iff.mpr (hkeys ▸ hk ▸ hnodup.1)]
            · simpa [lookup_cons_eq, hk, ← hkey] using h k
          rw [Prod.ext hkey hvalue, ih hnodup.2 hkeys hrest]

theorem keys_overlay (old new : List Declaration) : (overlay old new).map Prod.fst =
    old.map Prod.fst ++ (new.map Prod.fst).filter (· ∉ old.map Prod.fst) := by
  rw [overlay, List.map_append, List.map_map, List.filter_map]
  rfl

theorem nodup_keys_overlay (hold : (old.map Prod.fst).Nodup) (hnew : (new.map Prod.fst).Nodup) :
    ((overlay old new).map Prod.fst).Nodup := by
  rw [keys_overlay]
  refine List.nodup_append.mpr ⟨hold, hnew.filter _, ?_⟩
  rintro k hk _ hk' rfl
  simp only [List.mem_filter, decide_eq_true_eq] at hk'
  exact hk'.2 hk

theorem lookup_map_getD (l new : List Declaration) (k : String) :
    (l.map fun d => (d.1, (new.lookup d.1).getD d.2)).lookup k =
      (l.lookup k).map fun body => (new.lookup k).getD body := by
  induction l with
  | nil => rfl
  | cons d l ih =>
      rw [List.map_cons, lookup_cons_eq, lookup_cons_eq, ih]
      by_cases hk : k = d.1 <;> simp [hk]

theorem lookup_filter_keys (p : String → Bool) (l : List Declaration) (k : String) :
    (l.filter fun d => p d.1).lookup k = if p k then l.lookup k else none := by
  induction l with
  | nil => simp
  | cons d l ih =>
      rw [List.filter_cons, lookup_cons_eq]
      by_cases hk : k = d.1
      · by_cases hd : p d.1 = true <;> simp [hk, hd, lookup_cons_eq, hk ▸ ih]
      · by_cases hd : p d.1 = true <;> simp [hk, hd, lookup_cons_eq, ih]

theorem lookup_overlay (old new : List Declaration) (k : String) :
    (overlay old new).lookup k = (new.lookup k).or (old.lookup k) := by
  rw [overlay, List.lookup_append, lookup_map_getD,
    lookup_filter_keys fun k => k ∉ old.map Prod.fst]
  by_cases hk : k ∈ old.map Prod.fst
  · have hsome : old.lookup k ≠ none := mt lookup_eq_none_iff.mp (not_not.mpr hk)
    obtain ⟨body, hbody⟩ := Option.ne_none_iff_exists'.mp hsome
    cases hnew : new.lookup k <;> simp [hbody]
  · rw [lookup_eq_none_iff.mpr hk]
    simp [hk]

theorem mem_overlay (h : d ∈ overlay old new) : d ∈ old ∨ d ∈ new := by
  rw [overlay, List.mem_append, List.mem_map] at h
  rcases h with ⟨e, he, rfl⟩ | h
  · cases hnew : new.lookup e.1 with
    | none => exact .inl he
    | some body =>
        obtain ⟨before, after, heq, -⟩ := List.lookup_eq_some_iff.mp hnew
        refine .inr ?_
        rw [heq]
        exact List.mem_append_right _ List.mem_cons_self
  · exact .inr (List.mem_filter.mp h).1

theorem overlay_of_disjoint (h : (old.map Prod.fst).Disjoint (new.map Prod.fst)) :
    overlay old new = old ++ new := by
  have hsame : old.map (fun d => (d.1, (new.lookup d.1).getD d.2)) = old := by
    refine (List.map_congr_left fun d hd => ?_).trans (List.map_id _)
    rw [lookup_eq_none_iff.mpr (h (List.mem_map_of_mem hd))]
    rfl
  have hkept : (new.filter fun d => d.1 ∉ old.map Prod.fst) = new := by
    refine List.filter_eq_self.mpr fun d hd => decide_eq_true ?_
    exact fun hold => h hold (List.mem_map_of_mem hd)
  rw [overlay, hsame, hkept]

/-- A line is lost for every key that stands in both lists. -/
theorem disjoint_of_length_overlay (h : (overlay old new).length = old.length + new.length) :
    (old.map Prod.fst).Disjoint (new.map Prod.fst) := by
  rw [overlay, List.length_append, List.length_map, Nat.add_left_cancel_iff,
    List.length_filter_eq_length_iff] at h
  intro k hold hnew
  obtain ⟨d, hd, rfl⟩ := List.mem_map.mp hnew
  exact of_decide_eq_true (h d hd) hold

/-- What is put into the upper list comes to the same place below it. -/
theorem overlay_put (hold : (old.map Prod.fst).Nodup) (hnew : (new.map Prod.fst).Nodup)
    (d : Declaration) : overlay old (put d new) = put d (overlay old new) := by
  have hput : ((put d new).map Prod.fst).Nodup := by
    rw [keys_put]
    exact nodup_appendNew hnew d.1
  refine eq_of_lookup (nodup_keys_overlay hold hput) ?_ fun k => ?_
  · rw [keys_put, keys_overlay, keys_overlay, keys_put, filter_appendNew, Graph.appendNew,
      Graph.appendNew]
    by_cases hd : d.1 ∈ old.map Prod.fst <;> by_cases hd' : d.1 ∈ new.map Prod.fst <;>
      simp_all
  · rw [lookup_put, lookup_overlay, lookup_overlay, lookup_put]
    split <;> rfl

theorem nodup_keys_nil : (([] : List Declaration).map Prod.fst).Nodup := List.nodup_nil

theorem nodup_keys_putAll (hold : (old.map Prod.fst).Nodup) (ds : List Declaration) :
    ((putAll old ds).map Prod.fst).Nodup := by
  induction ds generalizing old with
  | nil => exact hold
  | cons d ds ih =>
      refine ih ?_
      rw [keys_put]
      exact nodup_appendNew hold d.1

/-- To put in lines one after the other is to lay their list over the old one. -/
theorem putAll_eq_overlay (hold : (old.map Prod.fst).Nodup) (ds : List Declaration) :
    putAll old ds = overlay old (putAll [] ds) := by
  induction ds using List.reverseRecOn with
  | nil => simp [putAll, overlay]
  | append_singleton ds d ih =>
      rw [putAll, putAll, List.foldl_concat, List.foldl_concat, ← putAll, ← putAll, ih,
        overlay_put hold (nodup_keys_putAll nodup_keys_nil ds)]

/-! ## Reading line by line -/

/-- The names in the headers. -/
def headers (ls : List (List Char)) : List String :=
  ls.filterMap fun cs =>
    match Line.read cs with
    | .header name => some name
    | _ => none

/-- The lines in the sections of that name, given the section that is open. -/
def declaredIn (name : String) : Option String → List (List Char) → List Declaration
  | _, [] => []
  | current, cs :: rest =>
    match Line.read cs with
    | .skip => declaredIn name current rest
    | .header opened => declaredIn name (some opened) rest
    | .entry key value =>
      if current = some name then (key, value) :: declaredIn name current rest
      else declaredIn name current rest

/-- No line stands outside a section. -/
def Headed (current : Option String) : List (List Char) → Prop
  | [] => True
  | cs :: rest =>
    match Line.read cs with
    | .skip => Headed current rest
    | .header _ => True
    | .entry _ _ => current.isSome

theorem headed_some (name : String) (ls : List (List Char)) : Headed (some name) ls := by
  induction ls with
  | nil => trivial
  | cons cs ls ih =>
      rw [Headed]
      split
      · exact ih
      · trivial
      · rfl

/-- The lines of the section of that name, if there is one. -/
def declarations (sections : List Section) (name : String) : List Declaration :=
  ((sections.find? (·.name == name)).elim [] Section.entries).map Entry.declaration

section

variable {sections : List Section} {name : String}

theorem names_openSection (name : String) (sections : List Section) :
    (openSection name sections).map Section.name =
      Graph.appendNew (sections.map Section.name) name := by
  induction sections with
  | nil => rfl
  | cons s rest ih =>
      rw [openSection, Graph.appendNew]
      by_cases hname : s.name = name
      · simp [hname]
      · have hne : ¬name = s.name := fun h => hname h.symm
        rw [Graph.appendNew] at ih
        by_cases hmem : name ∈ rest.map Section.name <;> simp_all

theorem declarations_openSection (opened : String) (sections : List Section) (name : String) :
    declarations (openSection opened sections) name = declarations sections name := by
  induction sections with
  | nil => by_cases hname : opened = name <;> simp [openSection, declarations, hname]
  | cons s rest ih =>
      rw [openSection]
      split
      · rfl
      · by_cases hname : s.name = name <;> simp_all [declarations]

theorem names_addEntry (name : String) (e : Entry) (sections : List Section) :
    (addEntry name e sections).map Section.name = sections.map Section.name := by
  induction sections with
  | nil => rfl
  | cons s rest ih =>
      rw [addEntry]
      split <;> simp [ih]

theorem declarations_addEntry {added : String} (h : added ∈ sections.map Section.name) (e : Entry)
    (name : String) : declarations (addEntry added e sections) name =
      if added = name then put e.declaration (declarations sections name)
      else declarations sections name := by
  induction sections with
  | nil => cases h
  | cons s rest ih =>
      rw [addEntry]
      by_cases hs : s.name = added
      · by_cases hname : added = name <;>
          simp [declarations, hs, hname, map_declaration_upsert]
      · have hrest : added ∈ rest.map Section.name := by
          rw [List.map_cons, List.mem_cons] at h
          exact h.resolve_left fun heq => hs heq.symm
        have ih := ih hrest
        rw [if_neg (mt eq_of_beq hs)]
        by_cases hname : s.name = name
        · have hne : ¬added = name := fun h => hs (hname.trans h.symm)
          simp [declarations, hname, hne]
        · simp_all [declarations]

end

/-- What becomes of the sections when more lines are read. -/
theorem readLines_of_headed (file : String) : ∀ {ls : List (List Char × Nat)}
    {sections : List Section} {current : Option String},
    (∀ name ∈ current, name ∈ sections.map Section.name) → Headed current (ls.map Prod.fst) →
    ∃ more, readLines file sections current ls = .ok more ∧
      more.map Section.name =
        (headers (ls.map Prod.fst)).foldl Graph.appendNew (sections.map Section.name) ∧
      ∀ name, declarations more name =
        putAll (declarations sections name) (declaredIn name current (ls.map Prod.fst))
  | [], sections, current, _, _ => ⟨sections, rfl, rfl, fun _ => rfl⟩
  | (cs, n) :: ls, sections, current, hcurrent, hheaded => by
      rw [List.map_cons, Headed] at hheaded
      simp only [List.map_cons, headers, List.filterMap_cons, declaredIn]
      rw [readLines]
      cases hline : Line.read cs with
      | skip =>
          simp only [hline] at hheaded ⊢
          exact readLines_of_headed file hcurrent hheaded
      | header opened =>
          have hopened : ∀ name ∈ some opened,
              name ∈ (openSection opened sections).map Section.name := by
            intro name hname
            obtain rfl := Option.some.inj hname
            rw [names_openSection, Graph.appendNew]
            split <;> simp_all
          obtain ⟨more, hmore, hnames, hdeclarations⟩ :=
            readLines_of_headed file hopened (headed_some opened (ls.map Prod.fst))
          refine ⟨more, hmore, ?_, fun name => ?_⟩
          · rw [hnames, names_openSection]
            rfl
          · rw [hdeclarations, declarations_openSection]
      | entry key value =>
          simp only [hline] at hheaded ⊢
          obtain ⟨added, rfl⟩ := Option.isSome_iff_exists.mp hheaded
          have hadded := hcurrent added rfl
          have hopen : ∀ name ∈ some added,
              name ∈ (addEntry added ⟨key, value, n⟩ sections).map Section.name := by
            intro name hname
            rwa [names_addEntry, ← Option.some.inj hname]
          obtain ⟨more, hmore, hnames, hdeclarations⟩ :=
            readLines_of_headed file hopen (headed_some added (ls.map Prod.fst))
          refine ⟨more, hmore, ?_, fun name => ?_⟩
          · rw [hnames, names_addEntry]
            rfl
          · rw [hdeclarations, declarations_addEntry hadded]
            by_cases hname : added = name
            · rw [if_pos hname, if_pos (congrArg some hname)]
              rfl
            · rw [if_neg hname, if_neg (mt Option.some.inj hname)]

theorem headed_of_readLines {file : String} : ∀ {ls : List (List Char × Nat)}
    {sections more : List Section} {current : Option String},
    readLines file sections current ls = .ok more → Headed current (ls.map Prod.fst)
  | [], _, _, _, _ => trivial
  | (cs, n) :: ls, sections, more, current, h => by
      rw [readLines] at h
      rw [List.map_cons, Headed]
      cases hline : Line.read cs with
      | skip =>
          simp only [hline] at h
          exact headed_of_readLines h
      | header opened => trivial
      | entry key value =>
          cases current with
          | none =>
              simp only [hline] at h
              cases h
          | some added => rfl

/-! ## Whole texts -/

/-- The lines of a text, without the blanks around them. -/
def rows (text : String) : List (List Char) := (Text.lines text.toList).map Text.trim

/-- The lines that a text declares in the sections of that name.  A repeated line
stays where it was first and takes its latest value. -/
def declared (text name : String) : List Declaration :=
  putAll [] (declaredIn name none (rows text))

theorem map_fst_zipIdx_rows (text : String) :
    (((Text.lines text.toList).map Text.trim).zipIdx 1).map Prod.fst = rows text :=
  List.zipIdx_map_fst ..

/-- A text is read if no line stands outside a section, and its sections are those
that the headers name, with the lines that it declares in them. -/
theorem sections_spec {text : String} (h : Headed none (rows text)) (file : String) :
    ∃ sections, Ini.sections text file = .ok sections ∧
      sections.map Section.name = (headers (rows text)).eraseDups ∧
      ∀ name, declarations sections name = declared text name := by
  rw [← map_fst_zipIdx_rows] at h
  have hnone : ∀ name ∈ (none : Option String), name ∈ ([] : List Section).map Section.name := by
    simp
  obtain ⟨sections, hread, hnames, hdeclarations⟩ := readLines_of_headed file hnone h
  rw [map_fst_zipIdx_rows] at hnames hdeclarations
  refine ⟨sections, hread, ?_, hdeclarations⟩
  rw [hnames, List.map_nil, foldl_appendNew List.nodup_nil, List.nil_append]

theorem headed_of_sections {text file : String} {sections : List Section}
    (h : Ini.sections text file = .ok sections) : Headed none (rows text) := by
  rw [← map_fst_zipIdx_rows]
  exact headed_of_readLines h

theorem nodup_keys_declared (text name : String) : ((declared text name).map Prod.fst).Nodup :=
  nodup_keys_putAll nodup_keys_nil _

/-- The lines that a text has in the sections of that name, in the order in which they stand. -/
def written (text name : String) : List Declaration := declaredIn name none (rows text)

/-- A text declares the last lines with their keys. -/
theorem declared_eq_latest (text name : String) :
    declared text name = latest Prod.fst (written text name) := by
  rw [declared, written]
  induction declaredIn name none (rows text) using List.reverseRecOn with
  | nil => rfl
  | append_singleton ds d ih =>
      rw [putAll, List.foldl_concat, ← putAll, ih, latest_concat, put_eq]
      rw [keys_latest]
      exact nodup_eraseDups _

/-! ## One text after the other -/

theorem rows_append {text : String} (h : text.toList.getLast? = some '\n') (more : String) :
    rows (text ++ more) = rows text ++ rows more := by
  obtain ⟨cs, hcs⟩ := List.getLast?_eq_some_iff.mp h
  rw [rows, rows, rows, String.toList_append, hcs, List.append_assoc, List.singleton_append,
    Text.lines_append, List.map_append]

theorem headed_append {ls ms : List (List Char)} {current : Option String}
    (hls : Headed current ls) (hms : Headed none ms) : Headed current (ls ++ ms) := by
  induction ls generalizing current with
  | nil =>
      cases current with
      | none => exact hms
      | some name => exact headed_some name ms
  | cons cs ls ih =>
      rw [List.cons_append, Headed]
      rw [Headed] at hls
      cases hline : Line.read cs with
      | skip =>
          simp only [hline] at hls ⊢
          exact ih hls
      | header opened => trivial
      | entry key value => simpa only [hline] using hls

/-- A text that begins with a header does not depend on the section that is open. -/
theorem declaredIn_of_headed (name : String) (current : Option String) {ms : List (List Char)}
    (hms : Headed none ms) : declaredIn name current ms = declaredIn name none ms := by
  induction ms with
  | nil => rfl
  | cons cs ms ih =>
      rw [declaredIn, declaredIn]
      rw [Headed] at hms
      cases hline : Line.read cs with
      | skip =>
          simp only [hline] at hms ⊢
          exact ih hms
      | header opened => rfl
      | entry key value =>
          simp only [hline] at hms
          cases hms

theorem declaredIn_append {ms : List (List Char)} (hms : Headed none ms) (name : String)
    (current : Option String) (ls : List (List Char)) :
    declaredIn name current (ls ++ ms) =
      declaredIn name current ls ++ declaredIn name none ms := by
  induction ls generalizing current with
  | nil => exact declaredIn_of_headed name current hms
  | cons cs ls ih =>
      rw [List.cons_append, declaredIn, declaredIn]
      cases Line.read cs with
      | skip => exact ih current
      | header opened => exact ih (some opened)
      | entry key value =>
          simp only [ih]
          split <;> rfl

theorem headers_append (ls ms : List (List Char)) :
    headers (ls ++ ms) = headers ls ++ headers ms := List.filterMap_append

/-- The sections of two texts together are those of the second laid over those of the
first. -/
theorem declared_append {text more : String} (h : text.toList.getLast? = some '\n')
    (hmore : Headed none (rows more)) (name : String) :
    declared (text ++ more) name = overlay (declared text name) (declared more name) := by
  rw [declared, rows_append h, declaredIn_append hmore, putAll, List.foldl_append]
  exact putAll_eq_overlay (nodup_keys_declared text name) _

end Ini

end Utterance
