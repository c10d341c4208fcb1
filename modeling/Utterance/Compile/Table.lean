import Utterance.Corpus.Basic

/-!
# Tables of replacements

What references stand for: a rule is found under `<grammar.rule>` and a slot under `$name`, with its
arguments.  An entry lists expressions.  For a slot these are its values, one of which is meant; for a rule
the first is its body.
-/

namespace Utterance

abbrev Table := List (String × List Expr)

namespace Table

def get? (t : Table) (key : String) : Option (List Expr) := t.lookup key

def keys (t : Table) : List String := t.map Prod.fst

/-- Puts an entry in the place of the one with its key, or at the end. -/
def insert (key : String) (values : List Expr) : Table → Table
  | [] => [(key, values)]
  | (k, old) :: rest => if k == key then (k, values) :: rest else (k, old) :: insert key values rest

def mapExprs (f : Expr → Expr) (t : Table) : Table := t.map fun (key, values) => (key, values.map f)

theorem mem_keys_of_get? {t : Table} {key : String} {values : List Expr}
    (h : t.get? key = some values) : key ∈ t.keys := by
  induction t with
  | nil => simp [get?] at h
  | cons entry rest ih =>
    obtain ⟨k, old⟩ := entry
    by_cases hk : key = k
    · simp [keys, hk]
    · have : (key == k) = false := by simpa using hk
      simp only [get?, List.lookup_cons, this] at h
      exact List.mem_cons_of_mem _ (ih h)

end Table

def ruleKey (grammar rule : String) : String := "<" ++ grammar ++ "." ++ rule ++ ">"

abbrev IntentSentences := List (String × List Sentence)

/-- Moves the rules of a section into the table, where a later rule replaces an earlier one of its name. -/
def IntentSection.addRules (s : IntentSection) (t : Table) : Table :=
  s.items.foldl (fun t item =>
    match item with
    | .sentence _ => t
    | .rule r => t.insert (ruleKey s.name r.name) [r.body.toExpr]) t

def IntentSection.sentences (s : IntentSection) : List Sentence :=
  s.items.filterMap fun
    | .sentence s => some s
    | .rule _ => none

/-- Takes a corpus apart into its sentences and the table of its rules. -/
def Corpus.split (c : Corpus) (t : Table := []) : IntentSentences × Table :=
  (c.sections.map fun s => (s.name, s.sentences), c.sections.foldl (fun t s => s.addRules t) t)

def Sentence.mapWords (f : String → Suffix → Option Tag → Expr) (s : Sentence) : Sentence :=
  { s with items := Expr.mapWordsOf f s.items }

def IntentSentences.mapWords (f : String → Suffix → Option Tag → Expr) (l : IntentSentences) :
    IntentSentences :=
  l.map fun (intent, sentences) => (intent, sentences.map (Sentence.mapWords f))

end Utterance
