import WordTrace.Table
import WordTrace.Trace
import WordTrace.Proofs.Completeness
import WordTrace.Proofs.DivisionSoundness
import WordTrace.Proofs.ResidueSoundness
import WordTrace.Proofs.ForgedResidue
import WordTrace.Proofs.ChainSoundness
import WordTrace.Proofs.ProductSoundness
import WordTrace.Proofs.ProductRange
import WordTrace.Proofs.Encoding
import WordTrace.Proofs.Isolation
import WordTrace.Proofs.Windows
import WordTrace.Proofs.Batching
import WordTrace.Proofs.Tampering
import WordTrace.Proofs.FreeOutput
import WordTrace.Proofs.Reuse
import WordTrace.Proofs.Refusal
import WordTrace.Proofs.Ranges
import WordTrace.Proofs.Footprint
import WordTrace.Proofs.Atomicity
import WordTrace.Proofs.Continuation
import WordTrace.Proofs.Construction
import WordTrace.Proofs.Root
import WordTrace.Proofs.Congruence
import WordTrace.Proofs.Shift
import WordTrace.Proofs.Evaluation
import WordTrace.Proofs.SignedLimbs
