import ReactiveLang.Digest
import ReactiveLang.Json.Reader
import ReactiveLang.Document.Analysis
import ReactiveLang.Document.Session
import ReactiveLang.Session.Run
import ReactiveLang.Proofs.Analysis.History
import ReactiveLang.Proofs.Analysis.Refining
import ReactiveLang.Proofs.Eval.Agreement
import ReactiveLang.Proofs.Session.Navigation
import ReactiveLang.Proofs.Session.Afresh
import ReactiveLang.Proofs.Session.Isolation
import ReactiveLang.Proofs.Session.Discipline
import ReactiveLang.Proofs.Session.Scoping
import ReactiveLang.Proofs.Eval.Statuses
import ReactiveLang.Proofs.Session.Partition
import ReactiveLang.Proofs.Session.Changes
import ReactiveLang.Proofs.Session.Reactions
import ReactiveLang.Proofs.Session.Reused
import ReactiveLang.Proofs.Session.Bounds
import ReactiveLang.Proofs.Session.Wider
import ReactiveLang.Proofs.Syntax.Finishing
import ReactiveLang.Proofs.Types.Acceptance
import ReactiveLang.Proofs.Types.Joining
import ReactiveLang.Proofs.Session.Restarting
import ReactiveLang.Proofs.Session.Narrowing
import ReactiveLang.Proofs.Session.Proper
import ReactiveLang.Proofs.Analysis.Reads
import ReactiveLang.Proofs.Types.Laws
import ReactiveLang.Proofs.Session.ItemTests
import ReactiveLang.Proofs.Value.Collecting
import ReactiveLang.Proofs.Value.EqualTypes
import ReactiveLang.Proofs.Value.Operators
import ReactiveLang.Proofs.Session.Bracketing
import ReactiveLang.Proofs.Value.Conversions
import ReactiveLang.Proofs.Value.TextLimit
import ReactiveLang.Proofs.Analysis.MissingInputs
import ReactiveLang.Proofs.Analysis.Understood
import ReactiveLang.Proofs.Eval.Defaults
import ReactiveLang.Proofs.Eval.Inputs
import ReactiveLang.Proofs.Eval.Understood
import ReactiveLang.Proofs.Session.Understood
import ReactiveLang.Proofs.Syntax.Replacing
import ReactiveLang.Proofs.Eval.Creators
import ReactiveLang.Proofs.Session.Streams
import ReactiveLang.Proofs.Eval.Lives
import ReactiveLang.Proofs.Value.Units
