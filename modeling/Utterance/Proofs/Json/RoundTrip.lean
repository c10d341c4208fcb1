import Mathlib.Data.List.TakeDrop
import Utterance.Json.Reader
import Utterance.Proofs.Decimal.Digits
import Utterance.Proofs.Text.Blank

/-!
# JSON text is read back

Data is written without spaces, so what a reader finds after a value is nothing, a
comma or a closing bracket (`Closes`).  With this a value reads back (`ReadsBack`) if
it is a flag, a text or a natural number of sixty-four bits, and arrays and objects
do if what they hold does.

A floating point number need not: the reader multiplies its digits by a power of ten
in floating point and can come out next to the number that was written.
-/

namespace Utterance.Json

/-- What follows a value: nothing, or the next item or member, or a closing bracket. -/
def Closes (rest : List Char) : Prop := ∀ c ∈ rest.head?, c = ',' ∨ c = ']' ∨ c = '\x7d'

theorem closes_cons {c : Char} (hc : c = ',' ∨ c = ']' ∨ c = '\x7d') (rest : List Char) :
    Closes (c :: rest) := fun d hd => by
  cases hd
  exact hc

theorem Closes.not_isDigit {rest : List Char} (h : Closes rest) :
    ∀ c ∈ rest.head?, c.isDigit = false := fun c hc => by
  rcases h c hc with rfl | rfl | rfl <;> rfl

/-- The value is read back from its text, which is long enough to bound the steps. -/
def ReadsBack (v : Json) : Prop :=
  ∀ n rest, (render v).toList.length ≤ n → Closes rest →
    readValue? (n + 1) ((render v).toList ++ rest) = some (v, rest)

/-! ## Texts -/

theorem readText?_controlCode {n : Nat} (hn : n < 32) (done rest : List Char) :
    readText? done (controlCode (Char.ofNat n) ++ rest) = readText? (Char.ofNat n :: done) rest := by
  obtain ⟨a, b, c, d, hcode, hvalue⟩ : ∃ a b c d, controlCode (Char.ofNat n) = ['\\', 'u', a, b, c, d] ∧
      hexValues? a b c d = some n := by
    interval_cases n <;> exact ⟨_, _, _, _, rfl, rfl⟩
  have hlow : isLowHalf n = false := by
    simp [isLowHalf]
    omega
  have hhigh : isHighHalf n = false := by
    simp [isHighHalf]
    omega
  rw [hcode, List.cons_append, List.cons_append, List.cons_append, List.cons_append, List.cons_append,
    List.cons_append, List.nil_append, readText?, hvalue]
  simp [hlow, hhigh]

theorem readText?_escapeChar (c : Char) (done rest : List Char) :
    readText? done (escapeChar c ++ rest) = readText? (c :: done) rest := by
  by_cases hshort : c = '"' ∨ c = '\\' ∨ c = '\n' ∨ c = '\r' ∨ c = '\t' ∨ c = '\x08' ∨ c = '\x0c'
  · rcases hshort with rfl | rfl | rfl | rfl | rfl | rfl | rfl <;> rfl
  · simp only [not_or] at hshort
    obtain ⟨hquote, hslash, hline, hreturn, htab, hback, hfeed⟩ := hshort
    by_cases hcontrol : c.toNat < 32
    · have hcode : escapeChar c = controlCode c := by
        simp [escapeChar, *]
      rw [hcode, ← Char.ofNat_toNat c]
      exact readText?_controlCode hcontrol done rest
    · have hself : escapeChar c = [c] := by
        simp [escapeChar, *]
      rw [hself, List.singleton_append, readText?.eq_def]
      split <;> simp_all

theorem readText?_flatMap_escapeChar : ∀ (cs done rest : List Char),
    readText? done (cs.flatMap escapeChar ++ '"' :: rest) = some (done.reverse ++ cs, rest)
  | [], done, rest => by
      rw [List.append_nil]
      rfl
  | c :: cs, done, rest => by
      rw [List.flatMap_cons, List.append_assoc, readText?_escapeChar,
        readText?_flatMap_escapeChar cs (c :: done) rest, List.reverse_cons, List.append_assoc]
      rfl

/-- A text is read back from what is written for it. -/
theorem readText?_quote (s : String) (rest : List Char) :
    ∃ cs, (quote s).toList ++ rest = '"' :: cs ∧ readText? [] cs = some (s.toList, rest) := by
  refine ⟨s.toList.flatMap escapeChar ++ '"' :: rest, ?_, readText?_flatMap_escapeChar _ [] rest⟩
  simp [quote]

/-! ## Whole numbers -/

theorem span_digits {digits rest : List Char} (hdigits : ∀ c ∈ digits, c.isDigit = true)
    (hrest : ∀ c ∈ rest.head?, c.isDigit = false) :
    (digits ++ rest).span Char.isDigit = (digits, rest) := by
  rw [List.span_eq_takeWhile_dropWhile, List.takeWhile_append_of_pos hdigits,
    List.dropWhile_append_of_pos hdigits, Text.dropWhile_eq_self hrest]
  cases rest with
  | nil => simp
  | cons c cs => rw [List.takeWhile_cons_of_neg (by simp [hrest c rfl]), List.append_nil]

/-- A number without a point and an exponent ends where the digits end. -/
theorem readMagnitude?_digits {c : Char} {digits rest : List Char}
    (hdigits : ∀ d ∈ c :: digits, d.isDigit = true) (hzero : c = '0' → digits = [])
    (hrest : Closes rest) :
    readMagnitude? false (c :: digits ++ rest) = some (integerOf false (c :: digits), rest) := by
  have hpart : readPart? (c :: digits ++ rest) = some (c :: digits, rest) := by
    rw [readPart?, span_digits hdigits hrest.not_isDigit]
  by_cases hc : c = '0'
  · obtain rfl := hzero hc
    obtain rfl := hc
    cases rest with
    | nil => rfl
    | cons d rest => rcases hrest d rfl with rfl | rfl | rfl <;> rfl
  · unfold readMagnitude?
    split
    next heq => exact absurd (List.cons.inj heq).1 hc
    next =>
      rw [hpart]
      cases rest with
      | nil => rfl
      | cons d rest => rcases hrest d rfl with rfl | rfl | rfl <;> rfl

/-- A natural number of sixty-four bits is read back. -/
theorem readsBack_int {k : Nat} (hk : k ≤ Decimal.maxNat64) : ReadsBack (.int k) := by
  intro n rest _ hrest
  have htext : (render (int k)).toList = Decimal.digitsOf k :=
    (Decimal.toList_repr k).trans (if_pos (Int.natCast_nonneg k))
  rw [htext]
  have hdigits : ∀ d ∈ Decimal.digitsOf k, d.isDigit = true := fun _ =>
    Decimal.isDigit_of_mem_digitsOf
  have hvalue : integerOf false (Decimal.digitsOf k) = .int k := by
    rw [integerOf, Decimal.ofDigits_digitsOf, if_neg (Nat.not_lt.mpr hk)]
    rfl
  have hzero : ∀ ds, Decimal.digitsOf k = '0' :: ds → ds = [] := fun ds hds => by
    cases k with
    | zero => exact (List.cons.inj hds).2.symm
    | succ k => exact absurd (congrArg List.head? hds) (Decimal.head_digitsOf_ne_zero k.succ_pos)
  cases hcs : Decimal.digitsOf k with
  | nil => exact absurd hcs Nat.toDigits_ne_nil
  | cons c digits =>
      rw [hcs] at hdigits hvalue hzero
      have hread := readMagnitude?_digits hdigits (fun hc => hzero digits (hc ▸ rfl)) hrest
      rw [hvalue] at hread
      have hc := hdigits c List.mem_cons_self
      have hskip : skipSpaces (c :: digits ++ rest) = c :: digits ++ rest := by
        refine Text.dropWhile_eq_self fun d hd => ?_
        cases hd
        cases hspace : isSpace c with
        | false => rfl
        | true =>
            simp only [isSpace, Bool.or_eq_true, beq_iff_eq] at hspace
            rcases hspace with ((rfl | rfl) | rfl) | rfl <;> cases hc
      rw [readValue?, hskip]
      split <;> first | exact hread | skip
      all_goals
        next heq =>
          obtain ⟨rfl, -⟩ := List.cons.inj heq
          cases hc

/-! ## Arrays and objects -/

/-- The items of an array, or the members of an object, with commas between them. -/
def joined (l : List String) : List Char := [','].intercalate (l.map String.toList)

theorem joined_singleton (s : String) : joined [s] = s.toList := by simp [joined]

theorem joined_cons_cons (s t : String) (l : List String) :
    joined (s :: t :: l) = s.toList ++ ',' :: joined (t :: l) := by
  rw [joined, List.map_cons, List.map_cons, List.intercalate_cons_cons, List.append_assoc,
    List.singleton_append, joined, List.map_cons]

@[simp] theorem toList_render_array (items : List Json) :
    (render (.array items)).toList = '[' :: (joined (renderItems items) ++ [']']) := by
  simp [render, joined, String.toList_intercalate]

@[simp] theorem toList_render_object (members : List (String × Json)) :
    (render (.object members)).toList = '\x7b' :: (joined (renderMembers members) ++ ['\x7d']) := by
  simp [render, joined, String.toList_intercalate]

/-- Where a value stands no bracket closes an array. -/
theorem readValue?_eq_none {cs ds : List Char} (hcs : skipSpaces cs = ']' :: ds) (n : Nat) :
    readValue? n cs = none := by
  cases n with
  | zero => rfl
  | succ n => rw [readValue?, hcs]; rfl

/-- An array is read if its items can be. -/
theorem readValue?_array {n : Nat} {cs : List Char} {r : Json × List Char}
    (h : readItems? n [] cs = some r) : readValue? (n + 1) ('[' :: cs) = some r := by
  have hspaces : skipSpaces ('[' :: cs) = '[' :: cs := rfl
  simp only [readValue?, hspaces]
  split
  next hcs =>
    cases n with
    | zero => cases h
    | succ n =>
        rw [readItems?, readValue?_eq_none hcs] at h
        cases h
  next => exact h

theorem readItems?_last {n : Nat} {done : List Json} {cs rest : List Char} {v : Json}
    (hv : readValue? n cs = some (v, ']' :: rest)) :
    readItems? (n + 1) done cs = some (array (done.reverse ++ [v]), rest) := by
  rw [readItems?, hv, ← List.reverse_cons]
  rfl

theorem readItems?_more {n : Nat} {done : List Json} {cs rest : List Char} {v : Json}
    (hv : readValue? n cs = some (v, ',' :: rest)) :
    readItems? (n + 1) done cs = readItems? n (v :: done) rest := by
  rw [readItems?, hv]
  rfl

theorem readMembers?_last {n : Nat} {done : List (String × Json)} {k : String}
    {cs rest : List Char} {v : Json} (hv : readValue? n cs = some (v, '\x7d' :: rest)) :
    readMembers? (n + 1) done ((quote k).toList ++ ':' :: cs) =
      some (object (done.reverse ++ [(k, v)]), rest) := by
  obtain ⟨text, htext, hkey⟩ := readText?_quote k (':' :: cs)
  rw [htext, readMembers?, ← List.reverse_cons]
  change ((readText? [] text).bind _) = _
  rw [hkey, Option.bind_some]
  change ((readValue? n cs).bind _) = _
  rw [hv, Option.bind_some]
  change some (object ((String.ofList k.toList, v) :: done).reverse, rest) = _
  rw [String.ofList_toList]

theorem readMembers?_more {n : Nat} {done : List (String × Json)} {k : String}
    {cs rest : List Char} {v : Json} (hv : readValue? n cs = some (v, ',' :: rest)) :
    readMembers? (n + 1) done ((quote k).toList ++ ':' :: cs) =
      readMembers? n ((k, v) :: done) rest := by
  obtain ⟨text, htext, hkey⟩ := readText?_quote k (':' :: cs)
  rw [htext, readMembers?]
  change ((readText? [] text).bind _) = _
  rw [hkey, Option.bind_some]
  change ((readValue? n cs).bind _) = _
  rw [hv, Option.bind_some]
  change readMembers? n ((String.ofList k.toList, v) :: done) rest = _
  rw [String.ofList_toList]

/-- The text of a member. -/
theorem toList_member (k : String) (v : Json) :
    (quote k ++ ":" ++ render v).toList = (quote k).toList ++ ':' :: (render v).toList := by
  simp

theorem exists_joined_member (k : String) (v : Json) (members : List (String × Json)) :
    ∃ cs, joined (renderMembers ((k, v) :: members)) = (quote k).toList ++ cs := by
  cases members with
  | nil => exact ⟨_, by rw [renderMembers, renderMembers, joined_singleton, toList_member]⟩
  | cons m members =>
      obtain ⟨j, w⟩ := m
      exact ⟨_, by rw [renderMembers, renderMembers, joined_cons_cons, toList_member,
        List.append_assoc]⟩

theorem readValue?_object {n : Nat} {k : String} {cs : List Char} :
    readValue? (n + 1) ('\x7b' :: ((quote k).toList ++ cs)) =
      readMembers? n [] ((quote k).toList ++ cs) := by
  obtain ⟨text, htext, -⟩ := readText?_quote k cs
  rw [htext]
  rfl

/-- The items of an array are read one after the other. -/
theorem readItems?_render {items : List Json} {v : Json} {n : Nat} (done : List Json)
    (rest : List Char) (hv : ReadsBack v) (hitems : ∀ w ∈ items, ReadsBack w)
    (hn : (joined (renderItems (v :: items))).length + 1 ≤ n) :
    readItems? (n + 1) done (joined (renderItems (v :: items)) ++ ']' :: rest) =
      some (array (done.reverse ++ v :: items), rest) := by
  induction items generalizing v n done with
  | nil =>
      obtain ⟨n, rfl⟩ := Nat.exists_eq_add_one_of_ne_zero (Nat.ne_zero_of_lt hn)
      rw [renderItems, renderItems, joined_singleton] at hn ⊢
      exact readItems?_last (hv n _ (by omega) (closes_cons (.inr (.inl rfl)) rest))
  | cons w items ih =>
      obtain ⟨hw, hitems⟩ := List.forall_mem_cons.mp hitems
      obtain ⟨n, rfl⟩ := Nat.exists_eq_add_one_of_ne_zero (Nat.ne_zero_of_lt hn)
      rw [renderItems, renderItems, joined_cons_cons, ← renderItems, List.length_append,
        List.length_cons] at hn
      have hfirst := hv n (',' :: (joined (renderItems (w :: items)) ++ ']' :: rest)) (by omega)
        (closes_cons (.inl rfl) _)
      rw [renderItems, renderItems, joined_cons_cons, ← renderItems, List.append_assoc,
        List.cons_append, readItems?_more hfirst, ih (v :: done) hw hitems (by omega),
        List.reverse_cons, List.append_assoc, List.singleton_append]

/-- The members of an object are read one after the other. -/
theorem readMembers?_render {members : List (String × Json)} {k : String} {v : Json} {n : Nat}
    (done : List (String × Json)) (rest : List Char) (hv : ReadsBack v)
    (hmembers : ∀ m ∈ members, ReadsBack m.2)
    (hn : (joined (renderMembers ((k, v) :: members))).length + 1 ≤ n) :
    readMembers? (n + 1) done (joined (renderMembers ((k, v) :: members)) ++ '\x7d' :: rest) =
      some (object (done.reverse ++ (k, v) :: members), rest) := by
  induction members generalizing k v n done with
  | nil =>
      obtain ⟨n, rfl⟩ := Nat.exists_eq_add_one_of_ne_zero (Nat.ne_zero_of_lt hn)
      rw [renderMembers, renderMembers, joined_singleton, toList_member] at hn ⊢
      rw [List.length_append, List.length_cons] at hn
      rw [List.append_assoc, List.cons_append]
      exact readMembers?_last (hv n _ (by omega) (closes_cons (.inr (.inr rfl)) rest))
  | cons m members ih =>
      obtain ⟨j, w⟩ := m
      obtain ⟨hw, hmembers⟩ := List.forall_mem_cons.mp hmembers
      have hw : ReadsBack w := hw
      obtain ⟨n, rfl⟩ := Nat.exists_eq_add_one_of_ne_zero (Nat.ne_zero_of_lt hn)
      rw [renderMembers, renderMembers, joined_cons_cons, ← renderMembers, toList_member,
        List.length_append, List.length_append, List.length_cons, List.length_cons] at hn
      have hfirst := hv n (',' :: (joined (renderMembers ((j, w) :: members)) ++ '\x7d' :: rest))
        (by omega) (closes_cons (.inl rfl) _)
      rw [renderMembers, renderMembers, joined_cons_cons, ← renderMembers, toList_member,
        List.append_assoc, List.append_assoc, List.cons_append, List.cons_append,
        readMembers?_more hfirst, ih ((k, v) :: done) hw hmembers (by omega), List.reverse_cons,
        List.append_assoc, List.singleton_append]

/-! ## Values -/

theorem readsBack_bool (b : Bool) : ReadsBack (.bool b) := fun _ _ _ _ => by
  cases b <;> rfl

theorem readsBack_text (s : String) : ReadsBack (.text s) := by
  intro n rest _ _
  obtain ⟨cs, htext, hread⟩ := readText?_quote s rest
  rw [render, htext]
  change (readText? [] cs).map _ = _
  rw [hread, Option.map_some]
  change some (text (String.ofList s.toList), rest) = _
  rw [String.ofList_toList]

theorem readsBack_array {items : List Json} (h : ∀ v ∈ items, ReadsBack v) :
    ReadsBack (.array items) := by
  intro n rest hn _
  cases items with
  | nil => rfl
  | cons v items =>
      obtain ⟨hv, hitems⟩ := List.forall_mem_cons.mp h
      rw [toList_render_array, List.length_cons, List.length_append, List.length_singleton] at hn
      rw [toList_render_array, List.cons_append, List.append_assoc, List.singleton_append]
      obtain ⟨n, rfl⟩ := Nat.exists_eq_add_one_of_ne_zero (Nat.ne_zero_of_lt hn)
      exact readValue?_array (readItems?_render [] rest hv hitems (Nat.le_of_succ_le_succ hn))

theorem readsBack_object {members : List (String × Json)} (h : ∀ m ∈ members, ReadsBack m.2) :
    ReadsBack (.object members) := by
  intro n rest hn _
  cases members with
  | nil => rfl
  | cons m members =>
      obtain ⟨k, v⟩ := m
      obtain ⟨hv, hmembers⟩ := List.forall_mem_cons.mp h
      rw [toList_render_object, List.length_cons, List.length_append, List.length_singleton] at hn
      rw [toList_render_object, List.cons_append, List.append_assoc, List.singleton_append]
      obtain ⟨n, rfl⟩ := Nat.exists_eq_add_one_of_ne_zero (Nat.ne_zero_of_lt hn)
      have hread := readMembers?_render [] rest hv hmembers (Nat.le_of_succ_le_succ hn)
      obtain ⟨cs, hcs⟩ := exists_joined_member k v members
      rw [hcs, List.append_assoc] at hread ⊢
      exact readValue?_object.trans hread

/-- A whole text is the value that it was written for. -/
theorem ReadsBack.readFirst? {v : Json} (hv : ReadsBack v) : readFirst? (render v) = some (v, []) := by
  have hread := hv (2 * (render v).toList.length + 1) [] (by omega) (fun _ hc => by cases hc)
  rwa [List.append_nil] at hread

end Utterance.Json
