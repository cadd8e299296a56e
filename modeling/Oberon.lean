import Oberon.Main
import Oberon.Proofs.Target.OperatorTree
import Oberon.Proofs.Translation.Statement
import Oberon.Proofs.Grammar.Declaration
import Oberon.Proofs.Translation.Declaration
import Oberon.Proofs.Translation.Module
import Oberon.Proofs.Distinct
import Oberon.Proofs.Target.Interface
import Oberon.Proofs.Termination
import Oberon.Proofs.Lockstep
import Oberon.Proofs.Capacity
import Oberon.Proofs.Layout
import Oberon.Proofs.Target.Brackets
import Oberon.Proofs.Target.Namings
import Oberon.Proofs.Target.Hygiene
import Oberon.Proofs.Target.Freshness
import Oberon.Proofs.TableSession
import Oberon.Proofs.Transparency
import Oberon.Proofs.TypeGraph
import Oberon.Proofs.Surroundings
import Oberon.Proofs.Lexical.Pieces
import Oberon.Proofs.FailFast
import Oberon.Proofs.Imports
import Oberon.Proofs.Files.Order
import Oberon.Proofs.Qualification
import Oberon.Proofs.Calls
import Oberon.Proofs.Copies
import Oberon.Proofs.Results
import Oberon.Proofs.Compatibility
import Oberon.Proofs.Files.Pairing
import Oberon.Proofs.Integers
import Oberon.Proofs.Lexical.Malformed
import Oberon.Proofs.ErrorLines
