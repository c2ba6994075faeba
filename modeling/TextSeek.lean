import TextSeek.Main
import TextSeek.Text.DecodedLength
import TextSeek.Text.Writing
import TextSeek.File.Bookmark
import TextSeek.File.Store
import TextSeek.Proofs.Index.Segments
import TextSeek.Proofs.Stream.Filling
import TextSeek.Proofs.Text.LineStarts
import TextSeek.Proofs.Text.RoundTrip
import TextSeek.Proofs.Text.Passages
import TextSeek.Proofs.Index.Marks
import TextSeek.Proofs.Index.Division
import TextSeek.Proofs.Index.Picking
import TextSeek.Proofs.Index.Growth
import TextSeek.Proofs.Index.Selection
import TextSeek.Proofs.Index.Gaps
import TextSeek.Proofs.Index.Soundness
import TextSeek.Proofs.Index.Segmentation
import TextSeek.Proofs.Index.Cutting
import TextSeek.Proofs.Index.Independence
import TextSeek.Proofs.Index.Translation
import TextSeek.Proofs.File.Lookup
import TextSeek.Proofs.Stream.Schedule
import TextSeek.Proofs.Text.Cuts
import TextSeek.Proofs.Reader.RunningOut
import TextSeek.Proofs.File.Built
import TextSeek.Proofs.File.Truncation
import TextSeek.Proofs.Text.LineEnds
import TextSeek.Proofs.Reader.LineReading
import TextSeek.Proofs.File.LineText
import TextSeek.Proofs.File.Header
import TextSeek.Proofs.File.Seeking
import TextSeek.Proofs.File.Locality
import TextSeek.Proofs.Reader.Standing
import TextSeek.Proofs.Reader.Delivery
import TextSeek.Proofs.Reader.Calls
import TextSeek.Proofs.Reader.Transcoding
import TextSeek.Proofs.File.LineByLine
import TextSeek.Proofs.Index.Geometry
import TextSeek.Proofs.Index.Runs
import TextSeek.Proofs.Index.Reports
import TextSeek.Proofs.Index.CheckedScan
import TextSeek.Proofs.Index.CheckedRun
import TextSeek.Proofs.Index.Spending
import TextSeek.Proofs.Reader.Stepping
import TextSeek.Proofs.Stream.Rounds
import TextSeek.Proofs.Index.Rounds
import TextSeek.Proofs.Reader.Rounds
import TextSeek.Proofs.Index.ByteOrder
import TextSeek.Proofs.File.Encodings
import TextSeek.Proofs.File.Anchors
