import CorpusQuery.Highlighter
import CorpusQuery.Proofs.Acceptance
import CorpusQuery.Proofs.Arrangement
import CorpusQuery.Proofs.Bounds
import CorpusQuery.Proofs.Bracketed
import CorpusQuery.Proofs.Closing
import CorpusQuery.Proofs.Consistency
import CorpusQuery.Proofs.Coverage
import CorpusQuery.Proofs.Cutting
import CorpusQuery.Proofs.Diagnosis
import CorpusQuery.Proofs.Enclosure
import CorpusQuery.Proofs.Escapes
import CorpusQuery.Proofs.Extension
import CorpusQuery.Proofs.Farthest
import CorpusQuery.Proofs.Hint
import CorpusQuery.Proofs.Hollow
import CorpusQuery.Proofs.Insertions
import CorpusQuery.Proofs.Laminarity
import CorpusQuery.Proofs.LineBreaks
import CorpusQuery.Proofs.Matching
import CorpusQuery.Proofs.ProblemLines
import CorpusQuery.Proofs.Protocol
import CorpusQuery.Proofs.Recovery
import CorpusQuery.Proofs.Repetition
import CorpusQuery.Proofs.Saving
import CorpusQuery.Proofs.Scripts
import CorpusQuery.Proofs.Stability
import CorpusQuery.Proofs.Termination
import CorpusQuery.Proofs.Unstructured
import CorpusQuery.Proofs.ValueEnds
import CorpusQuery.Proofs.WellFormed
import CorpusQuery.Proofs.Wishes
import CorpusQuery.Script
import CorpusQuery.Settings.Storage
