import ParamStream.Archive.Codec
import ParamStream.Dump
import ParamStream.Eval.ParamStore
import ParamStream.Eval.Run
import ParamStream.Interner
import ParamStream.Parallel
import ParamStream.Pass
import ParamStream.Program.Render
import ParamStream.Proofs.Acceptance
import ParamStream.Proofs.Assembly
import ParamStream.Proofs.Atomicity
import ParamStream.Proofs.Attributes
import ParamStream.Proofs.Commits
import ParamStream.Proofs.Construction
import ParamStream.Proofs.Convention
import ParamStream.Proofs.Correspondence
import ParamStream.Proofs.Disagreement
import ParamStream.Proofs.Entries
import ParamStream.Proofs.Evaluation
import ParamStream.Proofs.Fetches
import ParamStream.Proofs.FirstFault
import ParamStream.Proofs.Forwarding
import ParamStream.Proofs.Holding
import ParamStream.Proofs.InsertionOrder
import ParamStream.Proofs.Interleaving
import ParamStream.Proofs.Intermediates
import ParamStream.Proofs.Interning
import ParamStream.Proofs.LastReaders
import ParamStream.Proofs.LastUse
import ParamStream.Proofs.Layout
import ParamStream.Proofs.Outcome
import ParamStream.Proofs.OutputIndex
import ParamStream.Proofs.OutputTuple
import ParamStream.Proofs.Outputs
import ParamStream.Proofs.Plan
import ParamStream.Proofs.Progress
import ParamStream.Proofs.Pruning
import ParamStream.Proofs.Readability
import ParamStream.Proofs.Reads
import ParamStream.Proofs.Redirect
import ParamStream.Proofs.Releases
import ParamStream.Proofs.Renumbering
import ParamStream.Proofs.Residency
import ParamStream.Proofs.RoundTrip
import ParamStream.Proofs.Scoping
import ParamStream.Proofs.Segment
import ParamStream.Proofs.Sequences
import ParamStream.Proofs.Services
import ParamStream.Proofs.Serving
import ParamStream.Proofs.Simulation
import ParamStream.Proofs.Storage
import ParamStream.Proofs.Success
import ParamStream.Proofs.Sufficiency
import ParamStream.Proofs.Symbols
import ParamStream.Proofs.WellFormed
import ParamStream.Proofs.Words
