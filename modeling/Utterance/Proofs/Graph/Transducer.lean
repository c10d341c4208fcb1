import Utterance.Proofs.Decimal.Digits
import Utterance.Proofs.Failing
import Utterance.Proofs.Graph.Numbering
import Utterance.Proofs.Text.Blank
import Utterance.Recognition.Basic

/-!
# Reading the text of a transducer

The text that a walk leaves behind tells the part of the graph that was walked: its lines are
the edges in some numbering of the states, each edge once, and the number of the final state if
it was met (`Graph.WrittenAs`).  No field of a line is empty or has a blank in it, so a line is
cut apart into its fields again, and the symbol tables give the labels back
(`SymbolTable.Lists`).

This holds for the text of a whole graph and for each of the texts of its intents, which share
their symbols (`toFst_toIntentFsts_faithful`).
-/

namespace Utterance

/-! ## Symbols in the order of their first use -/

namespace SymbolTable

variable {t : SymbolTable} {eps s : String} {symbols more : List String}

/-- The table numbers these symbols in the order of their first use, from the empty one on. -/
structure Lists (t : SymbolTable) (eps : String) (symbols : List String) : Prop where
  symbols_eq : t.symbols.toList = (eps :: symbols).eraseDups
  nodup : t.symbols.toList.Nodup
  mem_iff : ∀ s, s ∈ t.symbols.toList ↔ s = eps ∨ s ∈ symbols
  id?_eq_some : ∀ s i, t.id? s = some i ↔ t.symbols.toList[i]? = some s
  id?_eps : t.id? eps = some 0

theorem Lists.id?_eq_zero_iff (h : t.Lists eps symbols) : t.id? s = some 0 ↔ s = eps := by
  have heps := (h.id?_eq_some eps 0).mp h.id?_eps
  rw [h.id?_eq_some, heps, Option.some.injEq, eq_comm]

theorem toList_intern (t : SymbolTable) (s : String) :
    (t.intern s).symbols.toList = Graph.appendNew t.symbols.toList s := by
  rw [intern, Graph.appendNew]
  by_cases hs : s ∈ t.symbols.toList
  · have hcontains : t.symbols.contains s = true := by simpa using hs
    rw [if_pos hs, if_pos hcontains]
  · have hcontains : ¬t.symbols.contains s = true := by simpa using hs
    rw [if_neg hs, if_neg hcontains]
    exact Array.toList_push

theorem internAll_append (t : SymbolTable) (symbols more : List String) :
    t.internAll (symbols ++ more) = (t.internAll symbols).internAll more := List.foldl_append

theorem toList_internAll_new (eps : String) (symbols : List String) :
    ((new eps).internAll symbols).symbols.toList = (eps :: symbols).eraseDups := by
  induction symbols using List.reverseRecOn with
  | nil => rfl
  | append_singleton symbols s ih =>
      rw [internAll_append, ← List.cons_append, Graph.eraseDups_concat, ← ih]
      exact toList_intern _ s

theorem lists_internAll_new (eps : String) (symbols : List String) :
    ((new eps).internAll symbols).Lists eps symbols := by
  have hsymbols := toList_internAll_new eps symbols
  have hnodup : ((new eps).internAll symbols).symbols.toList.Nodup := by
    rw [hsymbols]
    exact nodup_eraseDups _
  have hid : ∀ s i, ((new eps).internAll symbols).id? s = some i ↔
      ((new eps).internAll symbols).symbols.toList[i]? = some s :=
    fun s i => idxOf?_eq_some_iff hnodup
  refine ⟨hsymbols, hnodup, fun s => ?_, hid, (hid eps 0).mpr ?_⟩
  · rw [hsymbols, List.mem_eraseDups, List.mem_cons]
  · rw [hsymbols, List.eraseDups_cons]
    rfl

end SymbolTable

/-! ## Lines -/

namespace Text

/-- A line of words and single spaces: in it stands no other blank. -/
def IsLine (cs : List Char) : Prop := ∀ c ∈ cs, c = ' ' ∨ isBlank c = false

theorem isLine_intercalate {ws : List (List Char)} (h : ∀ w ∈ ws, IsWord w) :
    IsLine ([' '].intercalate ws) := by
  refine forall_mem_intercalate (fun c hc => ?_) fun w hw c hc => .inr ((h w hw).2 c hc)
  exact .inl (List.mem_singleton.mp hc)

theorem IsLine.not_mem {cs : List Char} (h : IsLine cs) {c : Char} (hblank : isBlank c = true)
    (hspace : c ≠ ' ') : c ∉ cs := by
  intro hc
  rcases h c hc with rfl | hnot
  · exact hspace rfl
  · rw [hblank] at hnot
    cases hnot

theorem splitAt_flatMap_newline {ls : List (List Char)} (h : ∀ l ∈ ls, '\n' ∉ l) :
    splitAt (· == '\n') (ls.flatMap (· ++ ['\n'])) = ls ++ [[]] := by
  induction ls with
  | nil => rfl
  | cons l ls ih =>
      rw [List.forall_mem_cons] at h
      have hl : ∀ c ∈ l, (c == '\n') = false := fun c hc => by
        rw [beq_eq_false_iff_ne]
        rintro rfl
        exact h.1 hc
      have hend : ∀ cs : List Char,
          splitAt (· == '\n') ('\n' :: cs) = [] :: splitAt (· == '\n') cs :=
        splitAt_cons_of_sep rfl
      rw [List.flatMap_cons, List.append_assoc, splitAt_append hl, List.singleton_append, hend,
        ih h.2, List.modifyHead_cons, List.append_nil, List.cons_append]

/-- Lines that are written one after the other are read again. -/
theorem lines_flatMap_newline {ls : List (List Char)} (h : ∀ l ∈ ls, IsLine l) :
    lines (ls.flatMap (· ++ ['\n'])) = ls := by
  have hreturn : ∀ l ∈ ls, (if l.getLast? == some '\r' then l.dropLast else l) = l := by
    intro l hl
    refine if_neg fun hlast => (h l hl).not_mem (c := '\r') rfl (by decide) ?_
    exact List.mem_of_getLast? (eq_of_beq hlast)
  rw [lines, splitAt_flatMap_newline fun l hl => (h l hl).not_mem rfl (by decide),
    List.getLast?_concat, List.dropLast_concat]
  exact (List.map_congr_left hreturn).trans (List.map_id _)

end Text

section

variable {ws : List String} {ls : List (List String)}

theorem toList_spaced (ws : List String) :
    (spaced ws).toList = [' '].intercalate (ws.map String.toList) := String.toList_intercalate

theorem blankWords_spaced (h : ∀ w ∈ ws, Text.IsWord w.toList) : (spaced ws).blankWords = ws := by
  rw [String.blankWords, toList_spaced, Text.words_intercalate_map h, Text.map_ofList_map_toList]

/-- A text of lines of words is read line by line. -/
theorem textLines_join (h : ∀ ws ∈ ls, ∀ w ∈ ws, Text.IsWord w.toList) :
    (String.join (ls.map fun ws => spaced ws ++ "\n")).textLines = ls.map spaced := by
  have hchars : (String.join (ls.map fun ws => spaced ws ++ "\n")).toList =
      (ls.map fun ws => (spaced ws).toList).flatMap (· ++ ['\n']) := by
    rw [String.toList_join, List.flatMap_map, List.flatMap_map]
    exact List.flatMap_congr fun ws _ => String.toList_append
  have hlines : ∀ l ∈ ls.map fun ws => (spaced ws).toList, Text.IsLine l := by
    refine List.forall_mem_map.mpr fun ws hws => ?_
    rw [toList_spaced]
    exact Text.isLine_intercalate (List.forall_mem_map.mpr (h ws hws))
  rw [String.textLines, hchars, Text.lines_flatMap_newline hlines, List.map_map]
  exact List.map_congr_left fun ws _ => String.ofList_toList

end

/-! ## Numbers are words -/

namespace Decimal

theorem isWord_toString (n : Nat) : Text.IsWord (toString n).toList := by
  have hchars : (toString n).toList = digitsOf n := Nat.toList_repr
  rw [hchars]
  exact ⟨Nat.toDigits_ne_nil, fun c hc =>
    Text.not_isBlank_of_isDigit (isDigit_of_mem_digitsOf hc)⟩

theorem isDigit_of_mem_shortest (x : Binary) (tie : Tie) :
    ∀ c ∈ (x.shortest tie).digits, c.isDigit = true := by
  unfold Binary.shortest
  simp only
  split
  next d hfound =>
    obtain ⟨k, -, hk⟩ := List.exists_of_findSome?_eq_some hfound
    obtain ⟨n, -, rfl⟩ := Option.map_eq_some_iff.mp hk
    intro c hc
    rw [Digits.ofGrid, List.mem_reverse] at hc
    have hmem := (List.dropWhile_suffix _).subset hc
    rw [List.mem_reverse] at hmem
    exact isDigit_of_mem_digitsOf hmem
  next =>
    rw [List.forall_mem_singleton]
    rfl

/-- Before and after the point stand digits, and some stand before it. -/
theorem positional_spec {d : Digits} (h : ∀ c ∈ d.digits, c.isDigit = true) :
    (positional d).1 ≠ [] ∧ (∀ c ∈ (positional d).1, c.isDigit = true) ∧
      ∀ c ∈ (positional d).2, c.isDigit = true := by
  have hzeros : ∀ n, ∀ c ∈ List.replicate n '0', c.isDigit = true := by
    intro n c hc
    rw [List.eq_of_mem_replicate hc]
    rfl
  unfold positional
  simp only
  split
  next =>
    refine ⟨List.cons_ne_nil _ _, List.forall_mem_singleton.mpr rfl, ?_⟩
    exact List.forall_mem_append.mpr ⟨hzeros _, h⟩
  next hwhole =>
    refine ⟨fun hnil => ?_, ?_, fun c hc => h c (List.mem_of_mem_drop hc)⟩
    · have hlength := congrArg List.length hnil
      simp only [List.length_append, List.length_take, List.length_replicate,
        List.length_nil] at hlength
      omega
    · exact List.forall_mem_append.mpr ⟨fun c hc => h c (List.mem_of_mem_take hc), hzeros _⟩

theorem isWord_plainText (x : Float) : Text.IsWord (plainText x).toList := by
  have hsigned : ∀ (negative : Bool) {cs : List Char}, Text.IsWord cs →
      Text.IsWord (String.ofList ((if negative then ['-'] else []) ++ cs)).toList := by
    intro negative cs ⟨hne, hcs⟩
    rw [String.toList_ofList]
    refine ⟨List.append_ne_nil_of_right_ne_nil _ hne, List.forall_mem_append.mpr ⟨?_, hcs⟩⟩
    cases negative
    · exact fun c hc => (List.not_mem_nil hc).elim
    · exact List.forall_mem_singleton.mpr rfl
  have hdigits : ∀ {cs : List Char}, (∀ c ∈ cs, c.isDigit = true) → ∀ c ∈ cs,
      Text.isBlank c = false := fun h c hc => Text.not_isBlank_of_isDigit (h c hc)
  unfold plainText
  generalize magnitude x = p
  obtain ⟨negative, m⟩ := p
  cases m with
  | notANumber => exact (by decide : Text.IsWord "NaN".toList)
  | infinite => exact hsigned negative (by decide)
  | zero => exact hsigned negative (by decide)
  | finite b =>
      obtain ⟨hne, hwhole, hpart⟩ := positional_spec (isDigit_of_mem_shortest b .up)
      simp only
      generalize positional (b.shortest .up) = q at hne hwhole hpart
      obtain ⟨whole, _ | ⟨first, part⟩⟩ := q
      · exact hsigned negative ⟨hne, hdigits hwhole⟩
      · simp only [List.append_assoc]
        refine hsigned negative ⟨List.append_ne_nil_of_left_ne_nil hne _, ?_⟩
        rw [List.forall_mem_append, List.forall_mem_cons]
        exact ⟨hdigits hwhole, rfl, hdigits hpart⟩

end Decimal

/-! ## The text of a part -/

/-- What stands in a line, field by field. -/
def Arc.fields (a : Arc) : List String :=
  [toString a.source, toString a.target, a.input, a.output, Decimal.plainText a.weight]

theorem Arc.toText_eq (a : Arc) : a.toText = spaced a.fields ++ "\n" := rfl

/-- The text has one line for each of these edges, which are those that are followed from the
root, and then the number of the final state if it is met.  States are numbered without gaps,
the root with zero. -/
structure Graph.WrittenAs (g : Graph) (o : FstOptions) (follows : Edge → Bool) (root : Nat)
    (edges : List Edge) (text : String) : Prop where
  nodup : edges.Nodup
  mem_iff : ∀ e, e ∈ edges ↔ g.Writes follows root e
  numbered : ∃ (f : Nat → Nat) (k : Nat) (finals : List Nat),
    Set.BijOn f {s | g.Meets follows root s} (Set.Iio k) ∧ f root = 0 ∧
    finals.Nodup ∧ (∀ s, s ∈ finals ↔ g.final = some s ∧ g.Meets follows root s) ∧
    text.textLines = (edges.map fun e => spaced (o.arcOf f e).fields) ++
      finals.map (fun s => toString (f s)) ∧
    ∀ e ∈ edges, (spaced (o.arcOf f e).fields).blankWords = (o.arcOf f e).fields

/-- The tables number the labels of these edges; zero stands for the empty label alone. -/
structure SymbolsOf (o : FstOptions) (edges : List Edge) (inputs outputs : SymbolTable) :
    Prop where
  inputs_list : inputs.Lists o.eps (edges.map fun e => o.shown e.input)
  outputs_list : outputs.Lists o.eps (edges.map fun e => o.shown e.output)
  inputs_lines : inputs.toText.textLines =
    inputs.symbols.toList.zipIdx.map fun p => spaced [p.1, toString p.2]
  outputs_lines : outputs.toText.textLines =
    outputs.symbols.toList.zipIdx.map fun p => spaced [p.1, toString p.2]
  zero_iff : ∀ e ∈ edges, (inputs.id? (o.shown e.input) = some 0 ↔ e.input = "") ∧
    (outputs.id? (o.shown e.output) = some 0 ↔ e.output = "")

section

variable {g : Graph} {o : FstOptions} {follows : Edge → Bool} {root : Nat} {w : FstWalk} {e : Edge}
  {inputs outputs : SymbolTable} {label : String}

theorem FstOptions.isWord_shown (heps : Text.IsWord o.eps.toList)
    (hlabel : label.hasBlank = false) : Text.IsWord (o.shown label).toList := by
  rw [shown]
  split
  · exact heps
  next hempty =>
    refine ⟨fun hnil => hempty ?_, fun c hc => ?_⟩
    · rw [String.toList_eq_nil_iff.mp hnil]
      rfl
    · rw [String.hasBlank, List.any_eq_false] at hlabel
      exact Bool.eq_false_iff.mpr (hlabel c hc)

theorem FstOptions.shown_eq_eps_iff (hlabel : label ≠ o.eps) :
    o.shown label = o.eps ↔ label = "" := by
  rw [shown]
  split
  next hempty => exact iff_of_true rfl (String.isEmpty_iff.mp hempty)
  next hempty => exact iff_of_false hlabel fun h => hempty (String.isEmpty_iff.mpr h)

theorem FstOptions.isWord_of_mem_fields (heps : Text.IsWord o.eps.toList) (he : e.Printable)
    (f : Nat → Nat) : ∀ field ∈ (o.arcOf f e).fields, Text.IsWord field.toList := by
  simp only [Arc.fields, arcOf, List.forall_mem_cons]
  exact ⟨Decimal.isWord_toString _, Decimal.isWord_toString _, isWord_shown heps he.1,
    isWord_shown heps he.2, Decimal.isWord_plainText _, fun _ h => (List.not_mem_nil h).elim⟩

/-- The final state, if the walk has met it. -/
def FstWalk.finals (g : Graph) (w : FstWalk) : List Nat :=
  g.final.toList.filter (· ∈ w.met.toList)

theorem FstWalk.toText_eq {written : List Edge} (R : Records o root inputs outputs written w)
    (g : Graph) :
    w.toText g = String.join (((written.map fun e => (o.arcOf w.met.toList.idxOf e).fields) ++
      (w.finals g).map fun s => [toString (w.met.toList.idxOf s)]).map fun ws =>
        spaced ws ++ "\n") := by
  have hsplit : w.toText g = String.join (w.arcs.reverse.map Arc.toText) ++
      String.join ((w.finals g).map fun s =>
        spaced [toString (w.met.toList.idxOf s)] ++ "\n") := by
    rw [toText, final?, finals]
    congr 1
    cases g.final with
    | none => rfl
    | some s =>
        rw [Option.bind_some, idxOf?_eq, Option.toList, List.filter_singleton]
        by_cases hs : s ∈ w.met.toList
        · rw [if_pos hs, decide_eq_true hs]
          simp [spaced]
        · rw [if_neg hs, decide_eq_false hs]
          rfl
  rw [hsplit, R.arcs_eq, ← String.join_append, List.map_append, List.map_map, List.map_map,
    List.map_map]
  rfl

/-- The text of a complete walk tells the part of the graph that was walked. -/
theorem FstWalk.Complete.writtenAs (C : Complete g o follows root inputs outputs w)
    (hg : g.Consistent) (heps : Text.IsWord o.eps.toList) :
    g.WrittenAs o follows root (w.met.toList.flatMap (edges g follows)) (w.toText g) := by
  have hfields : ∀ e ∈ w.met.toList.flatMap (edges g follows),
      ∀ field ∈ (o.arcOf w.met.toList.idxOf e).fields, Text.IsWord field.toList :=
    fun e he => FstOptions.isWord_of_mem_fields heps (C.records.printable e he) _
  refine ⟨C.nodup_written hg, fun e => C.mem_written_iff hg,
    w.met.toList.idxOf, w.met.toList.length, w.finals g, C.bijOn_idxOf hg, C.idxOf_root, ?_, ?_, ?_,
    fun e he => blankWords_spaced (hfields e he)⟩
  · rw [finals]
    cases g.final with
    | none => exact List.nodup_nil
    | some s => exact (List.nodup_singleton s).filter _
  · intro s
    rw [finals, List.mem_filter, Option.mem_toList, decide_eq_true_eq,
      C.mem_met_iff hg]
  · rw [toText_eq C.records, textLines_join, List.map_append, List.map_map, List.map_map]
    · rfl
    · refine List.forall_mem_append.mpr ⟨List.forall_mem_map.mpr hfields, ?_⟩
      refine List.forall_mem_map.mpr fun s _ => ?_
      exact List.forall_mem_singleton.mpr (Decimal.isWord_toString _)

/-- A walk writes the part of the graph that it walks, or there is an edge in it that cannot be
written. -/
theorem FstWalk.ofRoot_writtenAs (hg : g.Consistent) (hroot : root < g.size)
    (heps : Text.IsWord o.eps.toList) (follows : Edge → Bool) (inputs outputs : SymbolTable) :
    (∃ w edges, ofRoot g o follows root inputs outputs = .ok w ∧
        g.WrittenAs o follows root edges (w.toText g) ∧ (∀ e ∈ edges, e.Printable) ∧
        w.inputs = inputs.internAll (edges.map fun e => o.shown e.input) ∧
        w.outputs = outputs.internAll (edges.map fun e => o.shown e.output)) ∨
      (∃ err, ofRoot g o follows root inputs outputs = .error err) ∧
        ∃ e, g.Writes follows root e ∧ ¬e.Printable := by
  rcases ofRoot_spec hg hroot o follows inputs outputs with ⟨w, hw, C⟩ | herror
  · exact .inl ⟨w, _, hw, C.writtenAs hg heps, C.records.printable, C.records.inputs_eq,
      C.records.outputs_eq⟩
  · exact .inr herror

/-- The text of a table shows its symbols with their numbers. -/
theorem SymbolTable.Lists.textLines_toText {t : SymbolTable} {eps : String} {symbols : List String}
    (h : t.Lists eps symbols) (heps : Text.IsWord eps.toList)
    (hsymbols : ∀ s ∈ symbols, Text.IsWord s.toList) :
    t.toText.textLines = t.symbols.toList.zipIdx.map fun p => spaced [p.1, toString p.2] := by
  have hwords : ∀ ws ∈ t.symbols.toList.zipIdx.map fun p => [p.1, toString p.2],
      ∀ s ∈ ws, Text.IsWord s.toList := by
    refine List.forall_mem_map.mpr fun p hp => ?_
    have hsymbol : Text.IsWord p.1.toList := by
      rcases (h.mem_iff p.1).mp (List.fst_mem_of_mem_zipIdx hp) with heq | hmem
      · exact heq ▸ heps
      · exact hsymbols _ hmem
    rw [List.forall_mem_cons, List.forall_mem_singleton]
    exact ⟨hsymbol, Decimal.isWord_toString _⟩
  have htext : t.toText = String.join ((t.symbols.toList.zipIdx.map fun p =>
      [p.1, toString p.2]).map fun ws => spaced ws ++ "\n") := by
    rw [toText, List.map_map]
    rfl
  rw [htext, textLines_join hwords, List.map_map]
  rfl

/-- The symbols of edges in tables that were new. -/
theorem symbolsOf_internAll_new {edges : List Edge} (heps : Text.IsWord o.eps.toList)
    (hedges : ∀ e ∈ edges, e.Printable)
    (hfresh : ∀ e ∈ edges, e.input ≠ o.eps ∧ e.output ≠ o.eps) :
    SymbolsOf o edges ((SymbolTable.new o.eps).internAll (edges.map fun e => o.shown e.input))
      ((SymbolTable.new o.eps).internAll (edges.map fun e => o.shown e.output)) := by
  have hinputs := SymbolTable.lists_internAll_new o.eps (edges.map fun e => o.shown e.input)
  have houtputs := SymbolTable.lists_internAll_new o.eps (edges.map fun e => o.shown e.output)
  refine ⟨hinputs, houtputs, hinputs.textLines_toText heps ?_, houtputs.textLines_toText heps ?_,
    fun e he => ?_⟩
  · exact List.forall_mem_map.mpr fun e he => FstOptions.isWord_shown heps (hedges e he).1
  · exact List.forall_mem_map.mpr fun e he => FstOptions.isWord_shown heps (hedges e he).2
  · obtain ⟨hin, hout⟩ := hfresh e he
    rw [hinputs.id?_eq_zero_iff, houtputs.id?_eq_zero_iff, FstOptions.shown_eq_eps_iff hin,
      FstOptions.shown_eq_eps_iff hout]
    exact ⟨Iff.rfl, Iff.rfl⟩

/-! ## The texts of all intents -/

theorem mem_keys_insertText {name key text : String} {l : List (String × String)} :
    key ∈ (insertText name text l).map Prod.fst ↔ key = name ∨ key ∈ l.map Prod.fst := by
  induction l with
  | nil => simp [insertText]
  | cons entry l ih =>
      obtain ⟨k, old⟩ := entry
      rw [insertText]
      split
      · exact List.mem_cons
      · split
        next heq =>
          rw [beq_iff_eq] at heq
          subst heq
          simp
        next =>
          rw [List.map_cons, List.mem_cons, ih, List.map_cons, List.mem_cons, or_left_comm]

theorem lookup_cons_eq_if (key k text : String) (l : List (String × String)) :
    ((k, text) :: l).lookup key = if key = k then some text else l.lookup key := by
  rw [List.lookup_cons]
  by_cases hkey : key = k
  · rw [if_pos hkey, hkey, beq_self_eq_true]
  · rw [if_neg hkey, beq_false_of_ne hkey]

theorem lookup_insertText (name text key : String) (l : List (String × String)) :
    (insertText name text l).lookup key = if key = name then some text else l.lookup key := by
  induction l with
  | nil => exact lookup_cons_eq_if key name text []
  | cons entry l ih =>
      obtain ⟨k, old⟩ := entry
      rw [insertText]
      split
      · exact lookup_cons_eq_if key name text _
      · split
        next heq =>
          rw [beq_iff_eq] at heq
          subst heq
          rw [lookup_cons_eq_if, lookup_cons_eq_if]
          by_cases hkey : key = name
          · rw [if_pos hkey, if_pos hkey]
          · rw [if_neg hkey, if_neg hkey, if_neg hkey]
        next hne =>
          rw [beq_iff_eq] at hne
          rw [lookup_cons_eq_if, lookup_cons_eq_if, ih]
          by_cases hkey : key = name
          · rw [if_pos hkey, if_pos hkey, if_neg (hkey ▸ hne)]
          · rw [if_neg hkey, if_neg hkey]

/-- Every edge is followed. -/
def everyEdge (_ : Edge) : Bool := true

/-- The texts of some intents, with the edges that each of them tells, have been added. -/
structure IntentFsts.Adds (g : Graph) (o : FstOptions) (l : List (String × Edge))
    (parts : List (List Edge)) (f f' : IntentFsts) : Prop where
  inputs_eq : f'.inputs = f.inputs.internAll (parts.flatten.map fun e => o.shown e.input)
  outputs_eq : f'.outputs = f.outputs.internAll (parts.flatten.map fun e => o.shown e.output)
  mem_edges : ∀ e ∈ parts.flatten, e ∈ g.edges.toList
  printable : ∀ e ∈ parts.flatten, e.Printable
  all_printable : ∀ i ∈ l, ∀ e, g.Writes everyEdge i.2.target e → e.Printable
  mem_keys : ∀ key, key ∈ f'.texts.map Prod.fst ↔ key ∈ l.map Prod.fst ∨ key ∈ f.texts.map Prod.fst
  kept : ∀ key ∉ l.map Prod.fst, f'.texts.lookup key = f.texts.lookup key
  texts : (l.map Prod.fst).Nodup → List.Forall₂ (fun i edges =>
    ∃ text, f'.texts.lookup i.1 = some text ∧ g.WrittenAs o everyEdge i.2.target edges text) l parts

theorem IntentFsts.foldlM_add_spec (hg : g.Consistent) (heps : Text.IsWord o.eps.toList) :
    ∀ (l : List (String × Edge)) (f : IntentFsts), (∀ i ∈ l, i.2.target < g.size) →
      (∃ f' parts, l.foldlM (IntentFsts.add g o) f = .ok f' ∧ Adds g o l parts f f') ∨
        (∃ err, l.foldlM (IntentFsts.add g o) f = .error err) ∧
          ∃ i ∈ l, ∃ e, g.Writes everyEdge i.2.target e ∧ ¬e.Printable
  | [], f, _ => .inl ⟨f, [], rfl, rfl, rfl, fun _ he => (List.not_mem_nil he).elim,
      fun _ he => (List.not_mem_nil he).elim, fun _ hi => (List.not_mem_nil hi).elim,
      fun _ => (or_iff_right List.not_mem_nil).symm, fun _ _ => rfl, fun _ => .nil⟩
  | i :: l, f, htargets => by
      rw [List.forall_mem_cons] at htargets
      obtain ⟨hroot, htargets⟩ := htargets
      rw [List.foldlM_cons, IntentFsts.add]
      rcases FstWalk.ofRoot_writtenAs hg hroot heps everyEdge f.inputs f.outputs with
        ⟨w, edges, hw, W, hprintable, hinputs, houtputs⟩ | ⟨⟨err, hw⟩, hbad⟩
      · have hw' : FstWalk.ofRoot g o (fun _ => true) i.2.target f.inputs f.outputs = .ok w := hw
        rw [hw']
        simp only [bind, Except.bind, pure, Except.pure]
        rcases foldlM_add_spec hg heps l ⟨insertText i.1 (w.toText g) f.texts, w.inputs, w.outputs⟩
          htargets with ⟨f', parts, hf', A⟩ | ⟨herr, j, hj, hbad⟩
        · refine .inl ⟨f', edges :: parts, hf', ?_⟩
          constructor
          case inputs_eq =>
            rw [A.inputs_eq, hinputs, ← SymbolTable.internAll_append, List.flatten_cons,
              List.map_append]
          case outputs_eq =>
            rw [A.outputs_eq, houtputs, ← SymbolTable.internAll_append, List.flatten_cons,
              List.map_append]
          case mem_edges =>
            rw [List.flatten_cons, List.forall_mem_append]
            exact ⟨fun e he => ((W.mem_iff e).mp he).mem, A.mem_edges⟩
          case printable =>
            rw [List.flatten_cons, List.forall_mem_append]
            exact ⟨hprintable, A.printable⟩
          case all_printable =>
            rw [List.forall_mem_cons]
            exact ⟨fun e he => hprintable e ((W.mem_iff e).mpr he), A.all_printable⟩
          case mem_keys =>
            intro key
            rw [A.mem_keys, mem_keys_insertText, List.map_cons, List.mem_cons, or_left_comm,
              or_assoc]
          case kept =>
            intro key hkey
            obtain ⟨hne, hkey⟩ := not_or.mp (mt List.mem_cons.mpr hkey)
            rw [A.kept key hkey, lookup_insertText, if_neg hne]
          case texts =>
            intro hnames
            obtain ⟨hnew, hnames⟩ := List.nodup_cons.mp hnames
            refine .cons ⟨w.toText g, ?_, W⟩ (A.texts hnames)
            rw [A.kept i.1 hnew, lookup_insertText, if_pos rfl]
        · exact .inr ⟨herr, j, List.mem_cons_of_mem _ hj, hbad⟩
      · have hw' : FstWalk.ofRoot g o (fun _ => true) i.2.target f.inputs f.outputs =
            .error err := hw
        rw [hw']
        exact .inr ⟨⟨err, rfl⟩, i, List.mem_cons_self, hbad⟩

end

/-- The intents that are not left out, with the edges by which they are entered. -/
def Graph.acceptedIntents (g : Graph) (o : FstOptions) : List (String × Edge) :=
  g.intentEdges.filter fun i => o.accepts i.1

section

variable {g : Graph} {o : FstOptions} {start : Nat}

theorem Graph.toFst_spec (hg : g.Consistent) (hstart : g.start = some start)
    (heps : Text.IsWord o.eps.toList)
    (hfresh : ∀ e ∈ g.edges.toList, e.input ≠ o.eps ∧ e.output ≠ o.eps) :
    (∃ fst edges, g.toFst o = .ok fst ∧ g.WrittenAs o o.follows start edges fst.text ∧
        (∀ e ∈ edges, e.Printable) ∧ SymbolsOf o edges fst.inputs fst.outputs) ∨
      (∃ err, g.toFst o = .error err) ∧ ∃ e, g.Writes o.follows start e ∧ ¬e.Printable := by
  rw [toFst, hstart]
  rcases FstWalk.ofRoot_writtenAs hg (hg.start_lt start hstart) heps o.follows (.new o.eps)
    (.new o.eps) with ⟨w, edges, hw, W, hprintable, hinputs, houtputs⟩ | ⟨⟨err, hw⟩, hbad⟩
  · refine .inl ⟨⟨w.toText g, w.inputs, w.outputs⟩, edges, ?_, W, hprintable, ?_⟩
    · simp only [hw, bind, Except.bind, pure, Except.pure]
    · rw [hinputs, houtputs]
      exact symbolsOf_internAll_new heps hprintable fun e he =>
        hfresh e ((W.mem_iff e).mp he).mem
  · refine .inr ⟨⟨err, ?_⟩, hbad⟩
    simp only [hw, bind, Except.bind]

theorem Graph.Consistent.target_lt_of_mem_intentEdges (hg : g.Consistent) {i : String × Edge}
    (hi : i ∈ g.intentEdges) : i.2.target < g.size := by
  rw [intentEdges] at hi
  split at hi
  · exact (List.not_mem_nil hi).elim
  · obtain ⟨e, he, hname⟩ := List.mem_filterMap.mp hi
    obtain ⟨name, -, rfl⟩ := Option.map_eq_some_iff.mp hname
    exact hg.target_lt he

theorem Graph.toIntentFsts_spec (hg : g.Consistent) (heps : Text.IsWord o.eps.toList)
    (hfresh : ∀ e ∈ g.edges.toList, e.input ≠ o.eps ∧ e.output ≠ o.eps)
    (hnames : g.intentNames.Nodup) :
    (∃ fsts parts, g.toIntentFsts o = .ok fsts ∧
        (∀ name, name ∈ fsts.texts.map Prod.fst ↔ name ∈ (g.acceptedIntents o).map Prod.fst) ∧
        List.Forall₂ (fun i edges => ∃ text, fsts.texts.lookup i.1 = some text ∧
          g.WrittenAs o everyEdge i.2.target edges text) (g.acceptedIntents o) parts ∧
        (∀ i ∈ g.acceptedIntents o, ∀ e, g.Writes everyEdge i.2.target e → e.Printable) ∧
        SymbolsOf o parts.flatten fsts.inputs fsts.outputs) ∨
      (∃ err, g.toIntentFsts o = .error err) ∧
        ∃ i ∈ g.acceptedIntents o, ∃ e, g.Writes everyEdge i.2.target e ∧ ¬e.Printable := by
  have htargets : ∀ i ∈ g.acceptedIntents o, i.2.target < g.size := fun i hi =>
    hg.target_lt_of_mem_intentEdges (List.mem_filter.mp hi).1
  have haccepted : ((g.acceptedIntents o).map Prod.fst).Nodup :=
    hnames.sublist (List.filter_sublist.map _)
  rcases IntentFsts.foldlM_add_spec (o := o) hg heps (g.acceptedIntents o)
    ⟨[], .new o.eps, .new o.eps⟩ htargets with ⟨fsts, parts, hfsts, A⟩ | herror
  · have W := A.texts haccepted
    refine .inl ⟨fsts, parts, hfsts, fun name => ?_, W, A.all_printable, ?_⟩
    · rw [A.mem_keys]
      exact or_iff_left List.not_mem_nil
    · rw [A.inputs_eq, A.outputs_eq]
      exact symbolsOf_internAll_new heps A.printable fun e he => hfresh e (A.mem_edges e he)
  · exact .inr herror

/-- For a graph with a start state and a symbol for the empty label that is no label, not empty
and without blanks: the graph can be written if no edge that is followed from the start has a
label with blanks.  Then the text tells exactly these edges in one numbering of the states they
join, and the tables number their labels.  The same holds for the texts of the intents that are
not left out, each from the state where the intent is entered, with tables that they share. -/
theorem toFst_toIntentFsts_faithful (hg : g.Consistent) (hstart : g.start = some start)
    (hne : o.eps ≠ "") (hblank : o.eps.hasBlank = false)
    (hfresh : ∀ e ∈ g.edges.toList, e.input ≠ o.eps ∧ e.output ≠ o.eps) :
    ((∃ fst, g.toFst o = .ok fst) ↔ ∀ e, g.Writes o.follows start e → e.Printable) ∧
    (∀ fst, g.toFst o = .ok fst → ∃ edges, g.WrittenAs o o.follows start edges fst.text ∧
      SymbolsOf o edges fst.inputs fst.outputs) ∧
    (g.intentNames.Nodup →
      ((∃ fsts, g.toIntentFsts o = .ok fsts) ↔
        ∀ i ∈ g.acceptedIntents o, ∀ e, g.Writes everyEdge i.2.target e → e.Printable) ∧
      ∀ fsts, g.toIntentFsts o = .ok fsts →
        (∀ name, name ∈ fsts.texts.map Prod.fst ↔ name ∈ (g.acceptedIntents o).map Prod.fst) ∧
        ∃ parts, List.Forall₂ (fun i edges => ∃ text, fsts.texts.lookup i.1 = some text ∧
            g.WrittenAs o everyEdge i.2.target edges text) (g.acceptedIntents o) parts ∧
          SymbolsOf o parts.flatten fsts.inputs fsts.outputs) := by
  have heps : Text.IsWord o.eps.toList := by
    refine ⟨mt String.toList_eq_nil_iff.mp hne, fun c hc => ?_⟩
    rw [String.hasBlank, List.any_eq_false] at hblank
    exact Bool.eq_false_iff.mpr (hblank c hc)
  refine ⟨?_, ?_, fun hnames => ?_⟩
  · rcases Graph.toFst_spec hg hstart heps hfresh with
      ⟨fst, edges, hfst, W, hprintable, -⟩ | ⟨⟨err, herr⟩, e, he, hbad⟩
    · exact iff_of_true ⟨fst, hfst⟩ fun e he => hprintable e ((W.mem_iff e).mpr he)
    · exact iff_of_false (fun ⟨fst, hfst⟩ => by rw [herr] at hfst; cases hfst)
        fun hall => hbad (hall e he)
  · intro fst hfst
    rcases Graph.toFst_spec hg hstart heps hfresh with
      ⟨fst', edges, hfst', W, -, S⟩ | ⟨⟨err, herr⟩, -⟩
    · rw [hfst] at hfst'
      obtain rfl := Except.ok.inj hfst'
      exact ⟨edges, W, S⟩
    · rw [herr] at hfst
      cases hfst
  · rcases Graph.toIntentFsts_spec hg heps hfresh hnames with
      ⟨fsts, parts, hfsts, hkeys, W, hprintable, S⟩ | ⟨⟨err, herr⟩, i, hi, e, he, hbad⟩
    · refine ⟨iff_of_true ⟨fsts, hfsts⟩ hprintable, fun fsts' hfsts' => ?_⟩
      rw [hfsts] at hfsts'
      obtain rfl := Except.ok.inj hfsts'
      exact ⟨hkeys, parts, W, S⟩
    · refine ⟨iff_of_false (fun ⟨fsts, hfsts⟩ => by rw [herr] at hfsts; cases hfsts)
        fun hall => hbad (hall i hi e he), fun fsts hfsts => ?_⟩
      rw [herr] at hfsts
      cases hfsts

end

/-- Two intents, with a loop, a circle, an edge that nothing leads to and a label with blanks. -/
def radioCalls : List GraphCall :=
  [.addState none, .addState none, .addState (some "on"), .addState none, .addState none,
    .setStart 0, .setFinal 2, .addEdge 0 1 "" "__label__Lamp", .addEdge 1 1 "*" "*",
    .addEdge 1 2 "on" "on", .addEdge 2 1 "again" "", .addEdge 0 3 "" "__label__Radio",
    .addEdge 3 2 "off" "it is off", .addEdge 4 2 "off" "off"]

def radioGraph : Graph := radioCalls.foldl GraphCall.apply {}

def withoutRadio : FstOptions := { accepts := (· != "Radio") }

theorem consistent_radioGraph : radioGraph.Consistent :=
  (Graph.History.empty.calls (by decide : GraphCall.AllFit {} radioCalls)).consistent

/-- The label with blanks stands in the intent that is left out. -/
theorem toFst_radioGraph :
    radioGraph.Consistent ∧ radioGraph.start = some 0 ∧
      (∀ e ∈ radioGraph.edges.toList,
        e.input ≠ withoutRadio.eps ∧ e.output ≠ withoutRadio.eps) ∧
      (∃ fst edges, radioGraph.toFst withoutRadio = .ok fst ∧
        fst.text = "0 1 <eps> __label__Lamp 0\n1 1 * * 0\n1 2 on on 0\n2 1 again <eps> 0\n2\n" ∧
        radioGraph.WrittenAs withoutRadio withoutRadio.follows 0 edges fst.text ∧
        SymbolsOf withoutRadio edges fst.inputs fst.outputs) ∧
      radioGraph.intentNames.Nodup ∧
      ∃ (fsts : IntentFsts) (parts : List (List Edge)),
        radioGraph.toIntentFsts withoutRadio = .ok fsts ∧
        fsts.texts = [("Lamp", "0 0 * * 0\n0 1 on on 0\n1 0 again <eps> 0\n1\n")] ∧
        SymbolsOf withoutRadio parts.flatten fsts.inputs fsts.outputs := by
  have hstart : radioGraph.start = some 0 := rfl
  have hfresh : ∀ e ∈ radioGraph.edges.toList,
      e.input ≠ withoutRadio.eps ∧ e.output ≠ withoutRadio.eps := by decide
  have hnames : radioGraph.intentNames.Nodup := by decide
  have htext : (radioGraph.toFst withoutRadio).map Fst.text =
      .ok "0 1 <eps> __label__Lamp 0\n1 1 * * 0\n1 2 on on 0\n2 1 again <eps> 0\n2\n" := by
    decide +kernel
  have htexts : (radioGraph.toIntentFsts withoutRadio).map IntentFsts.texts =
      .ok [("Lamp", "0 0 * * 0\n0 1 on on 0\n1 0 again <eps> 0\n1\n")] := by decide +kernel
  obtain ⟨-, hfaithful, hintents⟩ := toFst_toIntentFsts_faithful consistent_radioGraph hstart
    (o := withoutRadio) (by decide) (by decide) hfresh
  obtain ⟨fst, hfst, htext⟩ := Except.map_eq_ok.mp htext
  obtain ⟨fsts, hfsts, htexts⟩ := Except.map_eq_ok.mp htexts
  obtain ⟨edges, W, S⟩ := hfaithful fst hfst
  obtain ⟨-, parts, -, S'⟩ := (hintents hnames).2 fsts hfsts
  exact ⟨consistent_radioGraph, hstart, hfresh, ⟨fst, edges, hfst, htext, W, S⟩, hnames, fsts,
    parts, hfsts, htexts, S'⟩

end Utterance
