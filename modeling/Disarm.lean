import Disarm.Host.Recorder
import Disarm.Host.Transcript
import Disarm.Host.Callbacks
import Disarm.Main
import Disarm.Proofs.Classification
import Disarm.Proofs.Mnemonic
import Disarm.Proofs.Recording
import Disarm.Proofs.FrontEnds
import Disarm.Proofs.Readability
import Disarm.Proofs.LineShape
import Disarm.Proofs.ConditionField
import Disarm.Proofs.PrintedAddress
import Disarm.Proofs.Relocation
import Disarm.Proofs.OperandText
import Disarm.Proofs.OperandBits
import Disarm.Proofs.ReadBack
import Disarm.Proofs.Layout
import Disarm.Proofs.ProgramHeaders
import Disarm.Proofs.EndToEnd
import Disarm.Proofs.RoundTrip
import Disarm.Proofs.LongerFiles
import Disarm.Proofs.Allocation
import Disarm.Proofs.StrictReading
import Disarm.Proofs.SymbolHistory
import Disarm.Proofs.SessionHistory
import Disarm.Proofs.OneSession
import Disarm.Proofs.RawListing
import Disarm.Proofs.LimitedSink
import Disarm.Proofs.WithoutOutput
import Disarm.Proofs.AllOrNothing
import Disarm.Proofs.CodeImage
import Disarm.Proofs.Flaws
import Disarm.Proofs.SymbolTables
import Disarm.Proofs.Refusals
import Disarm.Proofs.Annotation
import Disarm.Proofs.Consecutive
import Disarm.Proofs.Headings
import Disarm.Proofs.LineCount
import Disarm.Proofs.Numerals
import Disarm.Proofs.StartAddress
import Disarm.Proofs.FirstWord
import Disarm.Proofs.RegisterOffset
