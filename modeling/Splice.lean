import Splice.Agreement
import Splice.Analysis
import Splice.Assembly
import Splice.Direction
import Splice.Error
import Splice.Finishing
import Splice.Flags
import Splice.Fragment
import Splice.Grammar.Pattern
import Splice.GroupName
import Splice.Marker
import Splice.Offer
import Splice.Pattern
import Splice.Program.Run
import Splice.Proofs.Advancing
import Splice.Proofs.Atoms
import Splice.Proofs.Compiling
import Splice.Proofs.Consensus
import Splice.Proofs.Coupling
import Splice.Proofs.Deferral
import Splice.Proofs.Directions
import Splice.Proofs.Eligibility
import Splice.Proofs.Emulating
import Splice.Proofs.FlagLetters
import Splice.Proofs.History
import Splice.Proofs.Likeness
import Splice.Proofs.Literals
import Splice.Proofs.MarkerCodec
import Splice.Proofs.Members
import Splice.Proofs.Memory
import Splice.Proofs.NameEscapes
import Splice.Proofs.Newborn
import Splice.Proofs.Offering
import Splice.Proofs.Partition
import Splice.Proofs.Precedence
import Splice.Proofs.Promotion
import Splice.Proofs.Ranges
import Splice.Proofs.Reading
import Splice.Proofs.Refinishing
import Splice.Proofs.Rejections
import Splice.Proofs.Repeating
import Splice.Proofs.Settling
import Splice.Proofs.Shifting
import Splice.Proofs.Sights
import Splice.Proofs.Staging
import Splice.Proofs.Surveys
import Splice.Proofs.Tandem
import Splice.Proofs.Targeting
import Splice.Proofs.Tiling
import Splice.Proofs.Transparency
import Splice.Source.Emulation
import Splice.Source.Groups
import Splice.Source.Literal
import Splice.Source.References
import Splice.Source.Repetition
import Splice.Source.WideMode
import Splice.Token.Lexer
import Splice.Wrapping
