import StateEngine.Machine.Description
import StateEngine.Session
import StateEngine.Proofs.Entering
import StateEngine.Proofs.Growth
import StateEngine.Proofs.StackChange
import StateEngine.Proofs.Deed
import StateEngine.Proofs.Run
import StateEngine.Proofs.Soundness
import StateEngine.Proofs.Accounting
import StateEngine.Proofs.Ledger
import StateEngine.Proofs.Underflow
import StateEngine.Proofs.Driving
import StateEngine.Proofs.Iteration
import StateEngine.Proofs.Commitment
import StateEngine.Proofs.Standing
import StateEngine.Proofs.Completion
import StateEngine.Proofs.Refusal
import StateEngine.Proofs.Answering
import StateEngine.Proofs.Agreement
import StateEngine.Proofs.Building
import StateEngine.Proofs.Recording
import StateEngine.Proofs.Limits
import StateEngine.Proofs.Walk
import StateEngine.Proofs.Ownership
import StateEngine.Proofs.World
import StateEngine.Proofs.Scopes
import StateEngine.Proofs.Results
import StateEngine.Proofs.Recursion
import StateEngine.Proofs.Sharing
import StateEngine.Proofs.Plain
import StateEngine.Proofs.Bound
import StateEngine.Proofs.Consumption
import StateEngine.Proofs.Admission
import StateEngine.Proofs.Linking
import StateEngine.Proofs.Following
import StateEngine.Proofs.Chaining
import StateEngine.Proofs.Resumption
import StateEngine.Proofs.Tracing
import StateEngine.Proofs.Replacement
import StateEngine.Proofs.Observation
import StateEngine.Proofs.Lifetimes
import StateEngine.Proofs.Unwinding
import StateEngine.Proofs.Nesting
import StateEngine.Proofs.Lookup
