import Utterance.Compile.Graph
import Utterance.Slots
import Utterance.Wording.Casing
import Utterance.Wording.Number
import Utterance.Wording.Spelling

/-!
# From corpora to graphs

`Trainer.train` takes a corpus through all stages: rules are moved into the table, ranges become slots,
words are cased, slots are filled, numbers get their spoken forms, and everything is compiled.
-/

namespace Utterance

structure TrainConfig where
  casing : Casing := .keep
  /-- Whole numbers may also be heard in words. -/
  replaceNumbers : Bool := true
  addWeights : Bool := true
  excludeSlots : Bool := true
deriving DecidableEq, Repr, Inhabited

def TrainConfig.compileOptions (c : TrainConfig) : CompileOptions :=
  { addWeights := c.addWeights, excludeSlots := c.excludeSlots, expandSlots := true }

inductive TrainError where
  | slot (e : SlotError)
  | reference (e : ReferenceError)
deriving DecidableEq, Repr, Inhabited

def TrainError.message : TrainError → String
  | slot e => e.message
  | reference e => e.message

structure Trainer where
  config : TrainConfig := {}
  generators : SlotGenerators := {}
  speller : Speller := English.spell

namespace Trainer

def new (config : TrainConfig := {}) : Trainer :=
  { config
    generators := ({} : SlotGenerators).register Number.slotName fun args =>
      (Number.rangeValues args).mapError Number.RangeError.message }

def withSlot (t : Trainer) (name : String) (f : SlotGenerator) : Trainer :=
  { t with generators := t.generators.register name f }

def withSlotValues (t : Trainer) (name : String) (values : List String) : Trainer :=
  { t with generators := t.generators.registerValues name values }

/-- Gives a number its spoken form, if that is asked for. -/
def numberWord (t : Trainer) (text : String) (suffix : Suffix) (tag : Option Tag) : Expr :=
  if t.config.replaceNumbers then Number.integerOrSpoken t.speller text suffix tag
  else .word text suffix tag

/-- The sentences and the table that are compiled. -/
def prepare (t : Trainer) (corpus : Corpus) : Except SlotError (IntentSentences × Table) := do
  let (sentences, table) := corpus.split
  let casing := t.config.casing
  let sentences := (sentences.mapWords Number.rangeAsSlot).mapWords casing.word
  let table := (table.mapExprs (Expr.mapWords Number.rangeAsSlot)).mapExprs casing.expr
  let table ← fillSlots t.generators casing.sentence sentences table
  pure (sentences.mapWords t.numberWord, table.mapExprs (Expr.mapWords t.numberWord))

def train (t : Trainer) (corpus : Corpus) : Except TrainError Graph := do
  let (sentences, table) ← (t.prepare corpus).mapError .slot
  (Graph.ofSentences sentences table t.config.compileOptions).mapError .reference

end Trainer

end Utterance
