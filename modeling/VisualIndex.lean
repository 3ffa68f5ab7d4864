import VisualIndex.PostingList.Scoring
import VisualIndex.Storage
import VisualIndex.Vocabulary
import VisualIndex.Proofs.Streams
import VisualIndex.Proofs.Coding
import VisualIndex.Proofs.Buffering
import VisualIndex.Proofs.RecordRoundTrip
import VisualIndex.Proofs.RecordOutcome
import VisualIndex.Proofs.RecordRewriting
import VisualIndex.Proofs.ListChanges
import VisualIndex.Proofs.PostingLog
import VisualIndex.Proofs.Collections
import VisualIndex.Proofs.BrokenSinks
import VisualIndex.Proofs.ImageScores
import VisualIndex.Proofs.IndexingOrder
import VisualIndex.Proofs.ScoreOrder
import VisualIndex.Proofs.ScoringBounds
import VisualIndex.Proofs.FinishingOrder
import VisualIndex.Proofs.Rounding
import VisualIndex.Proofs.SelfSimilaritySums
import VisualIndex.Proofs.SharedTables
import VisualIndex.Proofs.Exponentials
import VisualIndex.Proofs.VotingTables
import VisualIndex.Proofs.DecimalReading
import VisualIndex.Proofs.NumberSpelling
import VisualIndex.Proofs.NearMidpoints
import VisualIndex.Proofs.SettingsDocument
import VisualIndex.Proofs.NearestReading
import VisualIndex.Proofs.SavedFiles
import VisualIndex.Proofs.AtomicSaves
import VisualIndex.Proofs.SettingsRoundTrip
import VisualIndex.Proofs.SignatureDistance
import VisualIndex.Proofs.Means
import VisualIndex.Proofs.Medians
import VisualIndex.Proofs.ColumnMedians
import VisualIndex.Proofs.BalancedCodes
import VisualIndex.Proofs.Comparisons
import VisualIndex.Proofs.QuantizedBits
import VisualIndex.Proofs.Rankings
import VisualIndex.Proofs.SelfSimilarities
import VisualIndex.Proofs.StoredEquality
import VisualIndex.Proofs.ImageFrequencies
import VisualIndex.Proofs.HexadecimalText
import VisualIndex.Proofs.DescendingTables
import VisualIndex.Proofs.WrittenTexts
import VisualIndex.Proofs.WrittenNumbers
import VisualIndex.Proofs.NumberReading
import VisualIndex.Proofs.WrittenValues
import VisualIndex.Proofs.DocumentLayout
import VisualIndex.Proofs.DocumentScanner
import VisualIndex.Proofs.ScalingError
import VisualIndex.Proofs.NumberAccuracy
import VisualIndex.Proofs.LayoutIndependence
