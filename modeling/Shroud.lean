import Shroud.Proofs.Partition.Meet
import Shroud.Proofs.Typing.Again
import Shroud.Proofs.Semantics.Compound
import Shroud.Proofs.Semantics.Log
import Shroud.Proofs.Alias.Conditions
import Shroud.Proofs.Alias.Parallel
import Shroud.Proofs.Alias.Subsumption
import Shroud.Proofs.Joins
import Shroud.Proofs.EffectsInside
import Shroud.Proofs.Lowering.Sites
import Shroud.Proofs.Lowering.Resolution
import Shroud.Proofs.Lowering.Inlining
import Shroud.Proofs.Lowering.Witnesses
import Shroud.Proofs.Naming
import Shroud.Proofs.Rendering
import Shroud.Proofs.Lowering.Words
import Shroud.Proofs.Folding.Compile
import Shroud.Proofs.Command
