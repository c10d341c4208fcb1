import Utterance.Proofs.Recognition.Entities

/-!
# The order in which words are heard

What is said inside a converter waits until the outermost converter is closed.  Then
the words and the matches that have waited are lined up anew, each in their order
(`heardTogether`).  What is not said, like a word that others are said for, does not
wait.

A `Transcript` goes through emissions and keeps the parts that wait and those that have
been taken down.  What is heard in the end is what has been taken down, group by group
(`Transcript.Tracks.heardIn_eq`).  If in each group either all words are matched or none
is (`Uniform`), no word is lost or repeated.  Then the order is that of the emissions if
nothing overtakes what waits (`Transcript.heard_run`), and where no word is heard twice,
only then (`Transcript.inTurn_of_heard_run`).
-/

namespace Utterance

/-! ## Parts that are lined up anew -/

/-- The words on the way into the states. -/
def rawsOf (l : List Part) : List String := (l.map Part.raw).filter (!·.isEmpty)

/-- The lists of tokens that were matched. -/
def matchedOf (l : List Part) : List (List String) := (l.map Part.matched).filter (!·.isEmpty)

/-- What is heard in parts whose words and matches are lined up: the matches, and the
words beyond their number. -/
def heardTogether (l : List Part) : List String :=
  (matchedOf l).flatten ++ (rawsOf l).drop (matchedOf l).length

theorem rawsOf_append (l m : List Part) : rawsOf (l ++ m) = rawsOf l ++ rawsOf m := by
  rw [rawsOf, List.map_append, List.filter_append]
  rfl

theorem matchedOf_append (l m : List Part) :
    matchedOf (l ++ m) = matchedOf l ++ matchedOf m := by
  rw [matchedOf, List.map_append, List.filter_append]
  rfl

/-- Either all words are matched or none is. -/
def Uniform (l : List Part) : Prop :=
  (∀ q ∈ l, q.raw ≠ "" → q.matched ≠ []) ∨ ∀ q ∈ l, q.matched = []

theorem heardTogether_singleton (p : Part) : heardTogether [p] = p.heard := by
  obtain ⟨raw, said, matched⟩ := p
  cases hmatched : matched.isEmpty <;> cases hraw : raw.isEmpty <;>
    simp [heardTogether, rawsOf, matchedOf, Part.heard, hmatched, hraw]

/-- Where all words are matched, the matches are heard. -/
theorem heardIn_eq_matchedOf : ∀ {l : List Part}, (∀ q ∈ l, q.raw ≠ "" → q.matched ≠ []) →
    heardIn l = (matchedOf l).flatten ∧ (rawsOf l).length ≤ (matchedOf l).length
  | [], _ => ⟨rfl, Nat.le_refl _⟩
  | q :: l, h => by
      obtain ⟨hq, hl⟩ := List.forall_mem_cons.mp h
      obtain ⟨hheard, hlength⟩ := heardIn_eq_matchedOf hl
      rw [heardIn_cons, hheard, ← List.singleton_append, rawsOf_append, matchedOf_append,
        List.flatten_append, List.length_append, List.length_append]
      by_cases hmatched : q.matched = []
      · have hraw : q.raw = "" := by
          by_contra hne
          exact hq hne hmatched
        simpa [rawsOf, matchedOf, Part.heard, hmatched, hraw] using hlength
      · have hone : (rawsOf [q]).length ≤ 1 := List.length_filter_le _ _
        have hmatch : matchedOf [q] = [q.matched] := by simp [matchedOf, hmatched]
        rw [hmatch]
        refine ⟨by simp [Part.heard, hmatched], ?_⟩
        rw [List.length_singleton]
        omega

/-- Where nothing is matched, the words are heard. -/
theorem heardIn_eq_rawsOf : ∀ {l : List Part}, (∀ q ∈ l, q.matched = []) →
    heardIn l = rawsOf l ∧ matchedOf l = []
  | [], _ => ⟨rfl, rfl⟩
  | q :: l, h => by
      obtain ⟨hq, hl⟩ := List.forall_mem_cons.mp h
      obtain ⟨hheard, hmatched⟩ := heardIn_eq_rawsOf hl
      rw [heardIn_cons, hheard, ← List.singleton_append, rawsOf_append, matchedOf_append, hmatched]
      by_cases hraw : q.raw = ""
      · simp [rawsOf, matchedOf, Part.heard, hq, hraw]
      · simp [rawsOf, matchedOf, Part.heard, hq, hraw]

/-- Uniform parts that are lined up are heard one after the other. -/
theorem Uniform.heardTogether_eq {l : List Part} (h : Uniform l) : heardTogether l = heardIn l := by
  rw [heardTogether]
  rcases h with h | h
  · obtain ⟨hheard, hlength⟩ := heardIn_eq_matchedOf h
    rw [hheard, List.drop_eq_nil_of_le hlength, List.append_nil]
  · obtain ⟨hheard, hmatched⟩ := heardIn_eq_rawsOf h
    rw [hheard, hmatched]
    rfl

/-- What is filled up with something that does not count counts as before. -/
theorem filter_map_getD_range {α : Type} {P : α → Bool} {d : α} (hd : P d = false) :
    ∀ {l : List α}, (∀ a ∈ l, P a = true) → ∀ {n : Nat}, l.length ≤ n →
      ((List.range n).map (l.getD · d)).filter P = l
  | [], _, n, _ => List.filter_eq_nil_iff.mpr fun a ha => by
      obtain ⟨i, -, rfl⟩ := List.mem_map.mp ha
      simp [hd]
  | a :: l, hl, n, hn => by
      obtain ⟨m, rfl⟩ : ∃ m, n = m + 1 := ⟨n - 1, by rw [List.length_cons] at hn; omega⟩
      obtain ⟨ha, hrest⟩ := List.forall_mem_cons.mp hl
      have htail := filter_map_getD_range hd hrest (Nat.le_of_succ_le_succ hn)
      rw [List.range_succ_eq_map, List.map_cons, List.map_map, List.getD_cons_zero,
        List.filter_cons_of_pos ha]
      exact congrArg (a :: ·) htail

section

variable {raws : List String} {values : List Value} {matched : List (List String)}

theorem rawsOf_align (hraws : ∀ w ∈ raws, (!w.isEmpty) = true) :
    rawsOf (Frame.align raws values matched) = raws := by
  rw [rawsOf, Frame.align, List.map_map]
  exact filter_map_getD_range (by rfl) hraws (Nat.le_max_left _ _)

theorem matchedOf_align (hmatched : ∀ m ∈ matched, (!m.isEmpty) = true) :
    matchedOf (Frame.align raws values matched) = matched := by
  rw [matchedOf, Frame.align, List.map_map]
  exact filter_map_getD_range (by rfl) hmatched
    (Nat.le_trans (Nat.le_max_right _ _) (Nat.le_max_right _ _))

end

/-- Lined up, every match is heard in the place of a word. -/
theorem flatMap_heard_range : ∀ (n : Nat) (said : Nat → Said) {raws : List String}
    {matched : List (List String)}, (∀ w ∈ raws, (!w.isEmpty) = true) →
      (∀ m ∈ matched, (!m.isEmpty) = true) → raws.length ≤ n → matched.length ≤ n →
      ((List.range n).flatMap fun i => Part.heard ⟨raws.getD i "", said i, matched.getD i []⟩)
        = matched.flatten ++ raws.drop matched.length
  | 0, _, raws, matched, _, _, hn, hm => by
      rw [List.length_eq_zero_iff.mp (Nat.le_zero.mp hn),
        List.length_eq_zero_iff.mp (Nat.le_zero.mp hm)]
      rfl
  | n + 1, said, raws, matched, hraws, hmatched, hn, hm => by
      have ih := @flatMap_heard_range n (fun i => said (i + 1)) raws.tail matched.tail
        (fun w hw => hraws w (List.mem_of_mem_tail hw))
        (fun m hm => hmatched m (List.mem_of_mem_tail hm))
        (by rw [List.length_tail]; omega) (by rw [List.length_tail]; omega)
      have hnext : ∀ i, Part.heard ⟨raws.getD (i + 1) "", said (i + 1), matched.getD (i + 1) []⟩
          = Part.heard ⟨raws.tail.getD i "", said (i + 1), matched.tail.getD i []⟩ := fun i => by
        cases raws <;> cases matched <;> rfl
      rw [List.range_succ_eq_map, List.flatMap_cons, List.flatMap_map]
      simp only [Nat.succ_eq_add_one, hnext, ih]
      cases matched with
      | cons m ms =>
          have hne := hmatched m List.mem_cons_self
          rw [List.flatten_cons, List.append_assoc, List.length_cons, ← List.drop_tail]
          simp only [Part.heard, List.getD_cons_zero, hne, if_true, List.tail_cons]
      | nil =>
          cases raws with
          | nil => rfl
          | cons w ws =>
              have hne := hraws w List.mem_cons_self
              simp [Part.heard, hne]

theorem heardIn_align {raws : List String} {values : List Value} {matched : List (List String)}
    (hraws : ∀ w ∈ raws, (!w.isEmpty) = true) (hmatched : ∀ m ∈ matched, (!m.isEmpty) = true) :
    heardIn (Frame.align raws values matched) = matched.flatten ++ raws.drop matched.length := by
  rw [heardIn, Frame.align, List.flatMap_map]
  exact flatMap_heard_range _ _ hraws hmatched (Nat.le_max_left _ _)
    (Nat.le_trans (Nat.le_max_right _ _) (Nat.le_max_right _ _))

/-- The parts of a closed converter are its own, lined up. -/
theorem Frame.exists_align_of_close {cs : Converters} {f : Frame} {parts : List Part}
    (h : f.close cs = .ok parts) :
    ∃ values, parts = align (rawsOf f.parts) values (matchedOf f.parts) := by
  unfold close at h
  split at h
  next => cases h
  next =>
    split at h
    next values _ =>
      cases h
      exact ⟨values, rfl⟩
    next => cases h
    next => cases h

/-- Closing a converter keeps words and matches, and has them heard together. -/
theorem Frame.close_spec {cs : Converters} {f : Frame} {parts : List Part}
    (h : f.close cs = .ok parts) :
    rawsOf parts = rawsOf f.parts ∧ matchedOf parts = matchedOf f.parts ∧
      heardIn parts = heardTogether f.parts := by
  obtain ⟨values, rfl⟩ := exists_align_of_close h
  have hraws : ∀ w ∈ rawsOf f.parts, (!w.isEmpty) = true := fun _ hw => (List.mem_filter.mp hw).2
  have hmatched : ∀ m ∈ matchedOf f.parts, (!m.isEmpty) = true :=
    fun _ hm => (List.mem_filter.mp hm).2
  exact ⟨rawsOf_align hraws, matchedOf_align hmatched, heardIn_align hraws hmatched⟩

/-! ## Transcripts -/

/-- What has become of the parts of emissions. -/
structure Transcript where
  /-- So many converters are open. -/
  depth : Nat := 0
  /-- The parts that were said inside the outermost of them. -/
  waiting : List Part := []
  /-- The parts that have been taken down, those of a closed converter together. -/
  taken : List (List Part) := []

/-- The parts inside open converters, the outermost first. -/
def insideOf (frames : List Frame) : List Part := frames.reverse.flatMap Frame.parts

theorem insideOf_cons (f : Frame) (outer : List Frame) :
    insideOf (f :: outer) = insideOf outer ++ f.parts := by
  rw [insideOf, List.reverse_cons, List.flatMap_append, List.flatMap_singleton]
  rfl

namespace Transcript

/-- The emission says a value inside a converter. -/
def waits (s : Transcript) (e : Emission) : Bool := s.depth != 0 && e.part.said.value?.isSome

/-- Goes on with an emission. -/
def step (s : Transcript) (e : Emission) : Transcript :=
  match Control.read? e.label with
  | some (.beginConvert _) => { s with depth := s.depth + 1 }
  | some (.endConvert _) =>
    if s.depth ≤ 1 then { taken := s.taken ++ [s.waiting] } else { s with depth := s.depth - 1 }
  | _ =>
    if s.waits e then { s with waiting := s.waiting ++ [e.part] }
    else { s with taken := s.taken ++ [[e.part]] }

def run (s : Transcript) (es : List Emission) : Transcript := es.foldl step s

@[simp] theorem run_nil (s : Transcript) : s.run [] = s := rfl

@[simp] theorem run_cons (s : Transcript) (e : Emission) (es : List Emission) :
    s.run (e :: es) = (s.step e).run es := rfl

section

variable {s : Transcript} {e : Emission} {key : String}

theorem step_begin (h : Control.read? e.label = some (.beginConvert key)) :
    s.step e = { s with depth := s.depth + 1 } := by
  rw [step, h]

theorem step_end (h : Control.read? e.label = some (.endConvert key)) :
    s.step e = if s.depth ≤ 1 then { taken := s.taken ++ [s.waiting] }
      else { s with depth := s.depth - 1 } := by
  rw [step, h]

theorem step_passes (h : Control.Passes (Control.read? e.label)) :
    s.step e = if s.waits e then { s with waiting := s.waiting ++ [e.part] }
      else { s with taken := s.taken ++ [[e.part]] } := by
  rw [step]
  split
  next key hread => exact absurd hread (h key).1
  next key hread => exact absurd hread (h key).2
  next => rfl

end

/-! ## Converting -/

/-- The transcript knows of the frames that are open and of what has been collected in
them, up to what lining up leaves. -/
structure Tracks (s : Transcript) (frames : List Frame) : Prop where
  depth_eq : s.depth = frames.length
  raws_eq : rawsOf s.waiting = rawsOf (insideOf frames)
  matched_eq : matchedOf s.waiting = matchedOf (insideOf frames)
  waiting_eq : frames = [] → s.waiting = []

theorem tracks_empty : Tracks {} [] := ⟨rfl, rfl, rfl, fun _ => rfl⟩

namespace Tracks

variable {s : Transcript} {f : Frame} {frames outer : List Frame}

theorem begin (hs : s.Tracks frames) (key : String) :
    Tracks { s with depth := s.depth + 1 } ({ key } :: frames) where
  depth_eq := congrArg (· + 1) hs.depth_eq
  raws_eq := by rw [hs.raws_eq, insideOf_cons, List.append_nil]
  matched_eq := by rw [hs.matched_eq, insideOf_cons, List.append_nil]
  waiting_eq hnil := (List.cons_ne_nil _ _ hnil).elim

/-- Inside a converter a part waits. -/
theorem wait (hs : s.Tracks (f :: outer)) (p : Part) :
    Tracks { s with waiting := s.waiting ++ [p] } (f.add [p] :: outer) where
  depth_eq := hs.depth_eq
  raws_eq := by
    rw [insideOf_cons, Frame.add, ← List.append_assoc, rawsOf_append, rawsOf_append, hs.raws_eq,
      insideOf_cons]
  matched_eq := by
    rw [insideOf_cons, Frame.add, ← List.append_assoc, matchedOf_append, matchedOf_append,
      hs.matched_eq, insideOf_cons]
  waiting_eq hnil := (List.cons_ne_nil _ _ hnil).elim

/-- What a converter leaves is collected in the next one. -/
theorem close {g : Frame} {cs : Converters} {parts : List Part} (hs : s.Tracks (f :: g :: outer))
    (hclose : f.close cs = .ok parts) :
    Tracks { s with depth := s.depth - 1 } (g.add parts :: outer) := by
  obtain ⟨hraws, hmatched, -⟩ := Frame.close_spec hclose
  constructor
  case depth_eq =>
    rw [hs.depth_eq]
    rfl
  case raws_eq =>
    rw [hs.raws_eq]
    simp only [insideOf_cons, Frame.add, rawsOf_append, hraws, List.append_assoc]
  case matched_eq =>
    rw [hs.matched_eq]
    simp only [insideOf_cons, Frame.add, matchedOf_append, hmatched, List.append_assoc]
  case waiting_eq => exact fun hnil => (List.cons_ne_nil _ _ hnil).elim

theorem heardTogether_eq (hs : s.Tracks [f]) : heardTogether s.waiting = heardTogether f.parts := by
  have hinside : insideOf [f] = f.parts := List.append_nil _
  rw [heardTogether, heardTogether, hs.raws_eq, hs.matched_eq, hinside]

/-- A part that does not wait leaves the frames as they are. -/
theorem take (hs : s.Tracks frames) (l : List (List Part)) : Tracks { s with taken := l } frames :=
  ⟨hs.depth_eq, hs.raws_eq, hs.matched_eq, hs.waiting_eq⟩

theorem waits_eq_false (hs : s.Tracks []) (e : Emission) : s.waits e = false := by
  rw [waits, hs.depth_eq]
  rfl

theorem waits_eq (hs : s.Tracks (f :: outer)) (e : Emission) :
    s.waits e = e.part.said.value?.isSome := by
  rw [waits, hs.depth_eq]
  rfl

/-- An emission is converted as the transcript says, and the group that it takes down, if
any, is heard before the rest. -/
theorem exists_step {cs : Converters} {e : Emission} {es : List Emission} {parts : List Part}
    (hs : s.Tracks frames) (h : convertParts cs frames (e :: es) = .ok parts) :
    ∃ frames' later groups, (s.step e).Tracks frames' ∧ convertParts cs frames' es = .ok later ∧
      (s.step e).taken = s.taken ++ groups ∧
      heardIn parts = groups.flatMap heardTogether ++ heardIn later := by
  have hnothing : s.taken = s.taken ++ [] := (List.append_nil _).symm
  -- a part that does not wait is a group of its own
  have hpart : ∀ later, heardIn (e.part :: later)
      = [[e.part]].flatMap heardTogether ++ heardIn later := fun later => by
    rw [heardIn_cons, List.flatMap_singleton, heardTogether_singleton]
  rcases Control.converts_or_passes (Control.read? e.label) with
    ⟨key, hread⟩ | ⟨key, hread⟩ | hpasses
  · rw [convertParts_begin hread] at h
    rw [step_begin hread]
    exact ⟨_, parts, [], hs.begin key, h, hnothing, rfl⟩
  · cases frames with
    | nil =>
        rw [convertParts_end_nil hread] at h
        cases h
    | cons f outer =>
        rw [convertParts_end hread] at h
        split at h
        next => cases h
        next =>
          obtain ⟨closed, hclose, h⟩ := Except.bind_eq_ok.mp h
          cases outer with
          | nil =>
              obtain ⟨later, hlater, rfl⟩ := Except.map_eq_ok.mp h
              have hdepth : s.depth ≤ 1 := Nat.le_of_eq hs.depth_eq
              rw [step_end hread, if_pos hdepth]
              refine ⟨[], later, [s.waiting], ⟨rfl, rfl, rfl, fun _ => rfl⟩, hlater, rfl, ?_⟩
              rw [heardIn_append, (Frame.close_spec hclose).2.2, List.flatMap_singleton,
                hs.heardTogether_eq]
          | cons g outer =>
              have hdepth : ¬ s.depth ≤ 1 := by
                rw [hs.depth_eq, List.length_cons, List.length_cons]
                omega
              rw [step_end hread, if_neg hdepth]
              exact ⟨_, parts, [], hs.close hclose, h, hnothing, rfl⟩
  · rw [step_passes hpasses]
    cases frames with
    | nil =>
        rw [convertParts_passes_nil hpasses] at h
        obtain ⟨later, hlater, rfl⟩ := Except.map_eq_ok.mp h
        rw [hs.waits_eq_false, if_neg Bool.false_ne_true]
        exact ⟨[], later, [[e.part]], hs.take _, hlater, rfl, hpart later⟩
    | cons f outer =>
        rw [convertParts_passes_cons hpasses] at h
        rw [hs.waits_eq]
        split at h
        next v hvalue =>
          rw [hvalue, Option.isSome_some, if_pos rfl]
          exact ⟨_, parts, [], hs.wait e.part, h, hnothing, rfl⟩
        next hvalue =>
          obtain ⟨later, hlater, rfl⟩ := Except.map_eq_ok.mp h
          rw [hvalue, Option.isSome_none, if_neg Bool.false_ne_true]
          exact ⟨_, later, [[e.part]], hs.take _, hlater, rfl, hpart later⟩

/-- What is heard in converted parts is what the transcript takes down of their
emissions. -/
theorem heardIn_eq {cs : Converters} {es : List Emission} :
    ∀ {s : Transcript} {frames : List Frame} {parts : List Part}, s.Tracks frames →
      convertParts cs frames es = .ok parts →
      ∃ l, (s.run es).taken = s.taken ++ l ∧ (s.run es).waiting = [] ∧
        heardIn parts = l.flatMap heardTogether := by
  induction es with
  | nil =>
      intro s frames parts hs h
      cases frames with
      | nil =>
          cases h
          exact ⟨[], (List.append_nil _).symm, hs.waiting_eq rfl, rfl⟩
      | cons f outer => cases h
  | cons e es ih =>
      intro s frames parts hs h
      obtain ⟨frames', later, groups, hstep, hlater, htaken, hheard⟩ := hs.exists_step h
      obtain ⟨l, hl, hwaiting, hrest⟩ := ih hstep hlater
      refine ⟨groups ++ l, ?_, hwaiting, ?_⟩
      · rw [run_cons, hl, htaken, List.append_assoc]
      · rw [hheard, hrest, List.flatMap_append]

end Tracks

end Transcript

/-! ## Order -/

/-- A mark is not heard. -/
def Emission.SteersSilently (e : Emission) : Prop :=
  (Control.read? e.label).isSome = true → e.part.heard = []

namespace Transcript

/-- All that has been heard, with what waits at the end. -/
def heard (s : Transcript) : List String := heardIn s.taken.flatten ++ heardIn s.waiting

/-- The emission is taken down while something else that was heard waits. -/
def Overtaken (s : Transcript) (e : Emission) : Prop :=
  s.waits e = false ∧ e.part.heard ≠ [] ∧ heardIn s.waiting ≠ []

/-- Nothing that waits is overtaken. -/
def InTurn (s : Transcript) (es : List Emission) : Prop :=
  ∀ before e after, es = before ++ e :: after → ¬ (s.run before).Overtaken e

theorem inTurn_nil (s : Transcript) : s.InTurn [] := fun before e after h => by
  cases before <;> cases h

theorem inTurn_cons {s : Transcript} {e : Emission} {es : List Emission} :
    s.InTurn (e :: es) ↔ ¬ s.Overtaken e ∧ (s.step e).InTurn es := by
  refine ⟨fun h => ⟨h [] e es rfl, fun before e' after heq => h (e :: before) e' after ?_⟩, ?_⟩
  · rw [heq]
    rfl
  · rintro ⟨he, hes⟩ before e' after heq
    cases before with
    | nil =>
        obtain ⟨rfl, -⟩ := List.cons.inj heq
        exact he
    | cons b before =>
        obtain ⟨rfl, hrest⟩ := List.cons.inj heq
        exact hes before e' after hrest

instance (s : Transcript) (e : Emission) : Decidable (s.Overtaken e) :=
  inferInstanceAs (Decidable (_ ∧ _ ∧ _))

instance decidableInTurn : ∀ (s : Transcript) (es : List Emission), Decidable (s.InTurn es)
  | s, [] => isTrue (inTurn_nil s)
  | s, e :: es =>
    have := decidableInTurn (s.step e) es
    decidable_of_iff _ inTurn_cons.symm

section

variable {s : Transcript} {e : Emission} {es : List Emission}

theorem heardIn_flatten : ∀ l : List (List Part), heardIn l.flatten = l.flatMap heardIn
  | [] => rfl
  | m :: l => by rw [List.flatten_cons, heardIn_append, heardIn_flatten l, List.flatMap_cons]

theorem heardIn_flatten_concat (l : List (List Part)) (m : List Part) :
    heardIn (l ++ [m]).flatten = heardIn l.flatten ++ heardIn m := by
  rw [List.flatten_append, List.flatten_singleton, heardIn_append]

theorem step_of_overtaken (he : e.SteersSilently) (h : s.Overtaken e) :
    s.step e = { s with taken := s.taken ++ [[e.part]] } := by
  obtain ⟨hwaits, hheard, -⟩ := h
  have hread : Control.read? e.label = none := by
    by_contra hsome
    exact hheard (he (Option.isSome_iff_ne_none.mpr hsome))
  rw [step_passes (hread ▸ Control.passes_none), hwaits, if_neg Bool.false_ne_true]

/-- What overtakes nothing is heard after all that has been heard. -/
theorem heard_step_of_not_overtaken (he : e.SteersSilently) (h : ¬ s.Overtaken e) :
    (s.step e).heard = s.heard ++ e.part.heard := by
  have hsilent : ∀ {c}, Control.read? e.label = some c → e.part.heard = [] :=
    fun hread => he (hread ▸ rfl)
  rcases Control.converts_or_passes (Control.read? e.label) with
    ⟨key, hread⟩ | ⟨key, hread⟩ | hpasses
  · rw [step_begin hread, hsilent hread, List.append_nil]
    rfl
  · rw [step_end hread, hsilent hread, List.append_nil]
    split
    · rw [heard, heardIn_flatten_concat, heardIn_nil, List.append_nil]
      rfl
    · rfl
  · rw [step_passes hpasses]
    cases hwaits : s.waits e with
    | true =>
        rw [if_pos rfl, heard, heardIn_append, heardIn_cons, heardIn_nil, List.append_nil,
          ← List.append_assoc]
        rfl
    | false =>
        rw [if_neg Bool.false_ne_true, heard, heardIn_flatten_concat, heardIn_cons, heardIn_nil,
          List.append_nil, heard]
        by_cases hheard : e.part.heard = []
        · rw [hheard, List.append_nil, List.append_nil]
        · have hnone : heardIn s.waiting = [] := by
            by_contra hwaiting
            exact h ⟨hwaits, hheard, hwaiting⟩
          rw [hnone, List.append_nil, List.append_nil]

theorem heard_step_perm (he : e.SteersSilently) :
    ((s.step e).heard).Perm (s.heard ++ e.part.heard) := by
  by_cases h : s.Overtaken e
  · rw [step_of_overtaken he h, heard, heardIn_flatten_concat, heardIn_cons, heardIn_nil,
      List.append_nil, heard, List.append_assoc, List.append_assoc]
    exact List.perm_append_comm.append_left _
  · rw [heard_step_of_not_overtaken he h]

/-- Nothing that is heard is lost. -/
theorem heard_run_perm (hes : ∀ e ∈ es, e.SteersSilently) :
    ((s.run es).heard).Perm (s.heard ++ heardIn (es.map Emission.part)) := by
  induction es generalizing s with
  | nil => rw [List.map_nil, heardIn_nil, List.append_nil, run_nil]
  | cons e es ih =>
      obtain ⟨he, hes⟩ := List.forall_mem_cons.mp hes
      rw [run_cons, List.map_cons, heardIn_cons, ← List.append_assoc]
      exact (ih hes).trans ((heard_step_perm he).append_right _)

/-- If nothing that waits is overtaken, everything is heard in its turn. -/
theorem heard_run (hes : ∀ e ∈ es, e.SteersSilently) (h : s.InTurn es) :
    (s.run es).heard = s.heard ++ heardIn (es.map Emission.part) := by
  induction es generalizing s with
  | nil => rw [List.map_nil, heardIn_nil, List.append_nil, run_nil]
  | cons e es ih =>
      obtain ⟨he, hes⟩ := List.forall_mem_cons.mp hes
      obtain ⟨hfirst, hrest⟩ := inTurn_cons.mp h
      rw [run_cons, ih hes hrest, heard_step_of_not_overtaken he hfirst, List.map_cons,
        heardIn_cons, List.append_assoc]

theorem taken_prefix_step (s : Transcript) (e : Emission) : s.taken <+: (s.step e).taken := by
  rw [step]
  split
  · exact List.prefix_rfl
  · split
    · exact List.prefix_append _ _
    · exact List.prefix_rfl
  · split
    · exact List.prefix_rfl
    · exact List.prefix_append _ _

theorem taken_prefix_run (s : Transcript) (es : List Emission) :
    s.taken <+: (s.run es).taken := by
  induction es generalizing s with
  | nil => exact List.prefix_rfl
  | cons e es ih => exact (s.taken_prefix_step e).trans (ih _)

/-- Where no word is heard twice, everything is heard in its turn only if nothing that
waits is overtaken. -/
theorem inTurn_of_heard_run (hes : ∀ e ∈ es, e.SteersSilently)
    (hnodup : (s.heard ++ heardIn (es.map Emission.part)).Nodup)
    (h : (s.run es).heard = s.heard ++ heardIn (es.map Emission.part)) : s.InTurn es := by
  induction es generalizing s with
  | nil => exact inTurn_nil s
  | cons e es ih =>
      obtain ⟨he, hes⟩ := List.forall_mem_cons.mp hes
      rw [run_cons, List.map_cons, heardIn_cons] at h
      rw [List.map_cons, heardIn_cons] at hnodup
      by_cases hover : s.Overtaken e
      · exfalso
        obtain ⟨later, hlater⟩ := taken_prefix_run (s.step e) es
        have hstep := step_of_overtaken he hover
        obtain ⟨-, hheard, hwaiting⟩ := hover
        -- the words of the emission come before those that wait, although they are others
        rw [heard, ← hlater, hstep, List.flatten_append, heardIn_append, heardIn_flatten_concat,
          heardIn_cons, heardIn_nil, List.append_nil, heard] at h
        simp only [List.append_assoc, List.append_cancel_left_eq] at h
        rw [heard, List.append_assoc] at hnodup
        have hdisjoint := List.disjoint_of_nodup_append (List.nodup_append.mp hnodup).2.1
        obtain ⟨x, xs, hx⟩ := List.exists_cons_of_ne_nil hheard
        obtain ⟨y, ys, hy⟩ := List.exists_cons_of_ne_nil hwaiting
        rw [hx, hy] at h hdisjoint
        obtain rfl : x = y := (List.cons.inj h).1
        exact hdisjoint List.mem_cons_self List.mem_cons_self
      · rw [← List.append_assoc, ← heard_step_of_not_overtaken he hover] at h hnodup
        exact inTurn_cons.mpr ⟨hover, ih hes hnodup h⟩

/-- What holds of the parts of all emissions holds of what is taken down. -/
theorem forall_taken_run {P : Part → Prop} (htaken : ∀ l ∈ s.taken, ∀ q ∈ l, P q)
    (hwaiting : ∀ q ∈ s.waiting, P q) (hes : ∀ e ∈ es, P e.part) :
    ∀ l ∈ (s.run es).taken, ∀ q ∈ l, P q := by
  induction es generalizing s with
  | nil => exact htaken
  | cons e es ih =>
      obtain ⟨he, hes⟩ := List.forall_mem_cons.mp hes
      have hconcat : ∀ {m : List Part}, (∀ q ∈ m, P q) → ∀ l ∈ s.taken ++ [m], ∀ q ∈ l, P q :=
        fun hm l hl =>
          (List.mem_append.mp hl).elim (htaken l) fun hl => List.mem_singleton.mp hl ▸ hm
      rcases Control.converts_or_passes (Control.read? e.label) with
        ⟨key, hread⟩ | ⟨key, hread⟩ | hpasses
      · rw [run_cons, step_begin hread]
        exact ih htaken hwaiting hes
      · rw [run_cons, step_end hread]
        split
        · exact ih (hconcat hwaiting) (fun _ hq => (List.not_mem_nil hq).elim) hes
        · exact ih htaken hwaiting hes
      · rw [run_cons, step_passes hpasses]
        split
        · refine ih htaken (fun q hq => ?_) hes
          exact (List.mem_append.mp hq).elim (hwaiting q) fun hq => List.mem_singleton.mp hq ▸ he
        · exact ih (hconcat fun q hq => List.mem_singleton.mp hq ▸ he) hwaiting hes

end

end Transcript

end Utterance
