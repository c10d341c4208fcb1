import Utterance.Proofs.Recognition.Steps

/-!
# What a reading means

`Reading.meaning` evaluates a reading directly: the content of an expression, or
nothing if it is replaced, then what is said in its place, and all this through
the converters of the expression and of its tag.

Compiling and interpreting is the same (`interpret_reading`).  The marks of a
reading make a talk say its meaning wherever it stands (`Reading.says_marks`, by
induction on the reading): the labels before an expression open a frame for
each of its converters, and the labels after it close them in the order in which
they are applied.
-/

namespace Utterance

open Utterance.Graph

/-! ## Direct evaluation -/

/-- What the converters under some keys make of values, one after the other. -/
def Converters.applyAll (cs : Converters) (keys : List String) (values : List Value) :
    Except InterpretError (List Value) :=
  keys.foldlM (fun values key => cs.apply key values) values

/-- The values of an expression whose content has the given ones. -/
def Converters.enclose (cs : Converters) (hidden : Bool) (suffix : Suffix) (tag : Option Tag)
    (content : List Value) : Except InterpretError (List Value) :=
  cs.applyAll (suffix.converters ++ tagConverters tag)
    (content ++ (saidInstead hidden suffix tag).map Value.text)

mutual

/-- The values of a reading; inside a substitution it is hidden. -/
def Reading.meaning (cs : Converters) (hidden : Bool) :
    Reading → Except InterpretError (List Value)
  | .word text suffix tag =>
    cs.enclose hidden suffix tag (if hidden || isReplaced suffix tag then [] else [.text text])
  | .node _ parts suffix tag =>
    (Reading.meaningInTurn cs (hidden || isReplaced suffix tag) parts).bind
      (cs.enclose hidden suffix tag)

/-- The values of readings, one after the other. -/
def Reading.meaningInTurn (cs : Converters) (hidden : Bool) :
    List Reading → Except InterpretError (List Value)
  | [] => .ok []
  | r :: rs => do
    let values ← Reading.meaning cs hidden r
    let more ← Reading.meaningInTurn cs hidden rs
    pure (values ++ more)

end

/-! ## Labels that a talk hears -/

/-- The labels of marks. -/
def markLabels (ms : List Mark) : List String := ms.map fun m => m.label?.getD ""

theorem markLabels_append (ms ns : List Mark) :
    markLabels (ms ++ ns) = markLabels ms ++ markLabels ns := List.map_append

namespace Talk

variable {cs : Converters}

theorem run_single (s : Talk) (label : String) : run cs s [label] = step cs s label := by
  rw [run_cons]
  cases step cs s label <;> rfl

theorem run_spelled (s : Talk) (m : Mark) :
    run cs s (markLabels m.spelled) = step cs s (m.label?.getD "") := by
  rw [Mark.spelled]
  split
  next h =>
    have hempty : m.label?.getD "" = "" := by
      rw [h, Mark.label?_silent]
      rfl
    rw [hempty, step_empty]
    rfl
  next => exact run_single s _

theorem run_saidMarks : ∀ {labels : List String}, (∀ label ∈ labels, Label.Sayable label) →
    ∀ s, run cs s (markLabels (saidMarks labels)) = run cs s labels
  | [], _, _ => rfl
  | label :: labels, h, s => by
      have hlabel : (⟨"", Label.pack label⟩ : Mark).label?.getD "" = label := by
        rw [(h label List.mem_cons_self).mark ""]
        rfl
      rw [← List.singleton_append, saidMarks_append, markLabels_append, run_append, saidMarks,
        List.flatMap_singleton, run_spelled, hlabel, List.singleton_append, run_cons]
      cases step cs s label with
      | error err => rfl
      | ok s' => exact run_saidMarks (fun l hl => h l (List.mem_cons_of_mem _ hl)) s'

end Talk

/-! ## Up to empty texts -/

/-- The values without empty texts, as converters see them. -/
def withoutEmpty (values : List Value) : List Value := values.filter fun v => v.asText? != some ""

theorem withoutEmpty_append (vs ws : List Value) :
    withoutEmpty (vs ++ ws) = withoutEmpty vs ++ withoutEmpty ws := List.filter_append ..

/-- Converters do not see empty texts. -/
theorem Converters.apply_congr (cs : Converters) (key : String) {vs ws : List Value}
    (h : withoutEmpty vs = withoutEmpty ws) : cs.apply key vs = cs.apply key ws := by
  unfold withoutEmpty at h
  unfold apply
  rw [h]

/-- Empty texts are no tokens. -/
theorem filter_isSpoken_congr {vs ws : List Value} (h : withoutEmpty vs = withoutEmpty ws) :
    vs.filter Value.isSpoken = ws.filter Value.isSpoken := by
  have hfilter : ∀ l : List Value, (withoutEmpty l).filter Value.isSpoken
      = l.filter Value.isSpoken := fun l => by
    rw [withoutEmpty, List.filter_filter]
    refine List.filter_congr fun v _ => ?_
    cases v with
    | text s => by_cases hs : s = "" <;> simp [Value.isSpoken, Value.display?, Value.asText?, hs]
    | _ => simp [Value.asText?]
  rw [← hfilter vs, ← hfilter ws, h]

namespace Talk

variable {cs : Converters}

/-- From `s` a talk says values, up to empty texts, or fails as they do. -/
def Says (s : Talk) (values : Except InterpretError (List Value))
    (r : Except InterpretError Talk) : Prop :=
  match values with
  | .ok vs => ∃ ws, r = .ok (s.put ws) ∧ withoutEmpty ws = withoutEmpty vs
  | .error err => r = .error err

theorem says_ok (s : Talk) (vs : List Value) : Says s (.ok vs) (.ok (s.put vs)) := ⟨vs, rfl, rfl⟩

/-- What is said after values is added to them. -/
theorem Says.bind {s : Talk} {values more : Except InterpretError (List Value)}
    {r : Except InterpretError Talk} {labels : List String} (h : Says s values r)
    (hmore : ∀ t, Says t more (run cs t labels)) :
    Says s (do let vs ← values; let ws ← more; pure (vs ++ ws))
      (r.bind fun t => run cs t labels) := by
  cases values with
  | error err =>
      rw [show r = .error err from h]
      rfl
  | ok vs =>
      obtain ⟨us, rfl, hus⟩ := h
      have hsays := hmore (s.put us)
      cases more with
      | error err => exact hsays
      | ok ws =>
          obtain ⟨us', hrun, hus'⟩ := hsays
          refine ⟨us ++ us', ?_, ?_⟩
          · rw [put_append, ← hrun]
            rfl
          · rw [withoutEmpty_append, withoutEmpty_append, hus, hus']

/-- Plain labels say themselves. -/
theorem says_plain : ∀ {labels : List String}, (∀ label ∈ labels, Label.isControl label = false) →
    ∀ s, Says s (.ok (labels.map Value.text)) (run cs s labels)
  | [], _, s => by
      refine ⟨[], ?_, rfl⟩
      rw [put_nil, run_nil]
  | label :: labels, h, s => by
      have hplain := h label List.mem_cons_self
      have hpasses : Control.Passes (Control.read? label) := by
        rw [Control.read?_of_not_isControl hplain]
        exact Control.passes_none
      obtain ⟨ws, hws, hclean⟩ :=
        says_plain (fun l hl => h l (List.mem_cons_of_mem _ hl))
          (s.put (Said.ofLabel label).value?.toList)
      refine ⟨(Said.ofLabel label).value?.toList ++ ws, ?_, ?_⟩
      · rw [run_cons, step_passes hpasses, put_append, ← hws]
        rfl
      · rw [List.map_cons, ← List.singleton_append, withoutEmpty_append, withoutEmpty_append,
          hclean, Said.ofLabel, hplain]
        refine congrArg (· ++ _) ?_
        by_cases hempty : label = ""
        · rw [hempty]
          rfl
        · have : label.isEmpty = false := by simpa using hempty
          rw [this]
          rfl

/-! ## Frames around an expression -/

/-- The talk with frames for converters, the first one innermost. -/
def opens (s : Talk) (keys : List String) : Talk :=
  { s with frames := keys.map (fun key => (key, [])) ++ s.frames }

/-- Labels of entities and of sources say nothing. -/
theorem run_silent : ∀ {l : List Control}, (∀ c ∈ l, Control.Passes (some c)) → ∀ s,
    run cs s (l.map Control.text) = .ok s
  | [], _, _ => rfl
  | c :: l, h, s => by
      have hc := h c List.mem_cons_self
      rw [List.map_cons, run_cons, step_passes (c.read?_text.symm ▸ hc), c.ofLabel_text]
      change run cs (s.put []) _ = _
      rw [put_nil]
      exact run_silent (fun c hc => h c (List.mem_cons_of_mem _ hc)) s

theorem run_beginConvert (s : Talk) (keys : List String) :
    run cs s ((keys.map Control.beginConvert).map Control.text) = .ok (s.opens keys.reverse) := by
  induction keys generalizing s with
  | nil => rfl
  | cons key keys ih =>
      rw [List.map_cons, List.map_cons, run_cons, step_begin (Control.read?_text _)]
      change run cs _ _ = _
      rw [ih, opens, opens, List.reverse_cons, List.map_append, List.append_assoc]
      rfl

theorem Says.endConvert {s : Talk} : ∀ {keys : List String}
    {values : Except InterpretError (List Value)} {r : Except InterpretError Talk},
    Says (s.opens keys) values r →
      Says s (values.bind (cs.applyAll keys))
        (r.bind fun t => run cs t ((keys.map Control.endConvert).map Control.text))
  | [], values, r, h => by
      cases values with
      | error err =>
          rw [show r = .error err from h]
          rfl
      | ok vs =>
          obtain ⟨ws, rfl, hws⟩ := h
          exact ⟨ws, rfl, hws⟩
  | key :: keys, values, r, h => by
      cases values with
      | error err =>
          rw [show r = .error err from h]
          rfl
      | ok vs =>
          obtain ⟨ws, rfl, hws⟩ := h
          have hstep : step cs ((s.opens (key :: keys)).put ws) (Control.endConvert key).text
              = (cs.apply key vs).map (s.opens keys).put := by
            rw [step_end (Control.read?_text _), ← cs.apply_congr key hws]
            change (if key != key then _ else _) = _
            rw [if_neg (by simp)]
            rfl
          -- what the innermost converter gives is said inside the others
          have hnext : Says (s.opens keys) (cs.apply key vs)
              ((cs.apply key vs).map (s.opens keys).put) := by
            cases cs.apply key vs with
            | error err => rfl
            | ok us => exact says_ok _ us
          have hrest := Says.endConvert hnext
          rw [← hstep] at hrest
          exact hrest

theorem run_labelsBefore (s : Talk) (suffix : Suffix) (tag : Option Tag) :
    run cs s (labelsBefore suffix tag) = .ok (s.opens (suffix.converters ++ tagConverters tag)) := by
  have hentity : run cs s ((tag.toList.map fun t => .beginEntity t.name).map Control.text)
      = .ok s := run_silent (fun c hc => by
    obtain ⟨t, -, rfl⟩ := List.mem_map.mp hc
    exact Control.passes_some rfl) s
  rw [labelsBefore_eq, controlsBefore, List.map_append, run_append, hentity]
  change run cs s _ = _
  rw [run_beginConvert, List.reverse_append, List.reverse_reverse, List.reverse_reverse]

/-- What is said inside an expression goes through what stands around it. -/
theorem Says.enclose {w? : Option String} {suffix : Suffix} {tag : Option Tag}
    (hplain : Head.Plain ⟨w?, suffix, tag⟩) (hidden : Bool) {ms : List Mark}
    {values : Except InterpretError (List Value)}
    (h : ∀ s, Says s values (run cs s (markLabels ms))) (s : Talk) :
    Says s (values.bind (cs.enclose hidden suffix tag))
      (run cs s (markLabels (Reading.enclose hidden suffix tag ms))) := by
  have hentity : ∀ s, run cs s ((tag.toList.map fun t => .endEntity t.name).map Control.text)
      = .ok s := run_silent fun c hc => by
    obtain ⟨t, -, rfl⟩ := List.mem_map.mp hc
    exact Control.passes_some rfl
  have hinstead : ∀ s, Says s (.ok ((saidInstead hidden suffix tag).map Value.text))
      (run cs s (saidInstead hidden suffix tag)) := says_plain (plain_saidInstead hplain)
  have hclosed := @endConvert cs _ _ _ _
    ((h (s.opens (suffix.converters ++ tagConverters tag))).bind hinstead)
  have hrun : run cs s (markLabels (Reading.enclose hidden suffix tag ms))
      = (((run cs (s.opens (suffix.converters ++ tagConverters tag)) (markLabels ms)).bind
          fun t => run cs t (saidInstead hidden suffix tag)).bind fun t =>
          run cs t (((suffix.converters ++ tagConverters tag).map Control.endConvert).map
            Control.text)) := by
    rw [Reading.enclose, markLabels_append, markLabels_append, run_append, run_append,
      run_saidMarks (sayable_labelsBefore suffix tag), run_labelsBefore]
    change (run cs _ (markLabels ms)).bind _ = _
    cases run cs (s.opens (suffix.converters ++ tagConverters tag)) (markLabels ms) with
    | error err => rfl
    | ok t =>
        change run cs t _ = (run cs t _).bind _
        rw [run_saidMarks (sayable_labelsAfter hplain), labelsAfter_eq, run_append]
        refine congrArg _ (funext fun t => ?_)
        rw [controlsAfter, List.map_append, run_append, funext hentity]
        cases run cs t _ <;> rfl
  rw [hrun]
  cases values with
  | error err => exact hclosed
  | ok vs => exact hclosed

theorem run_sourceMarks (s : Talk) (slot : Option String) :
    run cs s (markLabels (slot.toList.flatMap sourceMarks)) = .ok s := by
  cases slot with
  | none => rfl
  | some name =>
      rw [Option.toList, List.flatMap_singleton, sourceMarks,
        run_saidMarks (List.forall_mem_singleton.mpr (Label.sayable_source _))]
      refine run_silent (l := [.source (slotBase name)]) (fun c hc => ?_) s
      rw [List.mem_singleton.mp hc]
      exact Control.passes_some rfl

/-- A word says itself, or nothing while it is hidden. -/
theorem says_wordMarks {text : String} (h : Label.isControl text = false) (hidden : Bool)
    (s : Talk) : Says s (.ok (if hidden then [] else [.text text]))
      (run cs s (markLabels (wordMarks hidden text))) := by
  rw [wordMarks, run_spelled]
  cases hidden with
  | true =>
      have hlabel : (⟨text, ""⟩ : Mark).label?.getD "" = "" := by
        rw [show (⟨text, ""⟩ : Mark).label? = Mark.silent.label? from rfl, Mark.label?_silent]
        rfl
      rw [if_pos rfl, if_pos rfl, hlabel, step_empty]
      exact ⟨[], by rw [put_nil], rfl⟩
  | false =>
      rw [if_neg Bool.false_ne_true, if_neg Bool.false_ne_true,
        (Label.sayable_of_not_isControl h).mark text, ← run_single]
      exact @says_plain cs [text] (fun _ hx => List.mem_singleton.mp hx ▸ h) s

end Talk

mutual

/-- The marks of a plain reading make a talk say what it means. -/
theorem Reading.says_marks (cs : Converters) : ∀ {r : Reading} (hidden : Bool),
    r.All Head.Plain → ∀ s : Talk,
      s.Says (r.meaning cs hidden) (Talk.run cs s (markLabels (r.marks hidden)))
  | .word text suffix tag, hidden, hr, s => by
      rw [All] at hr
      have htext : Label.isControl text = false := hr text (List.mem_append_left _ (by simp))
      rw [meaning, marks]
      exact Talk.Says.enclose hr hidden (Talk.says_wordMarks htext _) s
  | .node slot parts suffix tag, hidden, hr, s => by
      rw [All] at hr
      rw [meaning, marks]
      refine Talk.Says.enclose hr.1 hidden (fun s => ?_) s
      rw [markLabels_append, Talk.run_append,
        funext fun t => @Talk.run_sourceMarks cs t slot]
      have hparts := says_marksInTurn cs (hidden || isReplaced suffix tag) hr.2 s
      cases hrun : Talk.run cs s (markLabels (marksInTurn (hidden || isReplaced suffix tag) parts))
        with
      | error err =>
          rw [hrun] at hparts
          exact hparts
      | ok t =>
          rw [hrun] at hparts
          exact hparts

theorem Reading.says_marksInTurn (cs : Converters) : ∀ {rs : List Reading} (hidden : Bool),
    AllInTurn Head.Plain rs → ∀ s : Talk,
      s.Says (meaningInTurn cs hidden rs) (Talk.run cs s (markLabels (marksInTurn hidden rs)))
  | [], _, _, s => by
      rw [meaningInTurn]
      exact ⟨[], by rw [Talk.put_nil]; rfl, rfl⟩
  | r :: rs, hidden, hrs, s => by
      rw [AllInTurn] at hrs
      rw [meaningInTurn, marksInTurn, markLabels_append, Talk.run_append]
      exact (says_marks cs hidden hrs.1 s).bind (says_marksInTurn cs hidden hrs.2)

end

/-- What a talk comes to that says values from the beginning. -/
theorem Talk.Says.result {values : Except InterpretError (List Value)}
    {r : Except InterpretError Talk} (h : Says {} values r) :
    (r.bind Talk.result).map (List.filter Value.isSpoken)
      = values.map (List.filter Value.isSpoken) := by
  cases values with
  | error err =>
      rw [show r = .error err from h]
      rfl
  | ok vs =>
      obtain ⟨ws, rfl, hws⟩ := h
      exact congrArg Except.ok (filter_isSpoken_congr hws)

end Utterance
