import Utterance.Main
import Utterance.Files.Tree
import Utterance.Proofs.Compile.Appending
import Utterance.Proofs.Compile.Counting
import Utterance.Proofs.Compile.Expansion
import Utterance.Proofs.Compile.Literals
import Utterance.Proofs.Compile.Multiples
import Utterance.Proofs.Compile.Recasing
import Utterance.Proofs.Compile.Replacing
import Utterance.Proofs.Compile.Sharing
import Utterance.Proofs.Compile.Symbols
import Utterance.Proofs.Compile.Weighing
import Utterance.Proofs.Corpus.Keeping
import Utterance.Proofs.Decimal.Whole
import Utterance.Proofs.Graph.IndexedStorage
import Utterance.Proofs.Graph.Transducer
import Utterance.Proofs.Recognition.Dates
import Utterance.Proofs.Recognition.Delivery
import Utterance.Proofs.Recognition.Evaluation
import Utterance.Proofs.Recognition.Innermost
import Utterance.Proofs.Recognition.Limits
import Utterance.Proofs.Recognition.Order
import Utterance.Proofs.Recognition.Ranges
import Utterance.Proofs.Recognition.Sampling
import Utterance.Proofs.Recognition.Spoken
import Utterance.Proofs.Recognition.Substitutions
import Utterance.Proofs.Recognition.Wildcards
import Utterance.Proofs.Search.Accounting
import Utterance.Proofs.Search.Agreement
import Utterance.Proofs.Search.Backtracking
import Utterance.Proofs.Search.Best
import Utterance.Proofs.Search.Embedding
import Utterance.Proofs.Search.Ending
import Utterance.Proofs.Search.Insertion
import Utterance.Proofs.Search.Optional
import Utterance.Proofs.Search.Queue
import Utterance.Proofs.Search.WholeCosts
import Utterance.Proofs.Template.Suffixes
import Utterance.Proofs.Template.Tags
import Utterance.Proofs.Template.References
import Utterance.Proofs.Template.RoundTrip
import Utterance.Proofs.Value.Hearing
import Utterance.Proofs.Wording.Casing
import Utterance.Proofs.Search.Halting
