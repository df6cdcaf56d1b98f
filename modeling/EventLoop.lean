import EventLoop.Browse
import EventLoop.Crew
import EventLoop.Loopback
import EventLoop.Script.Run
import EventLoop.Settings.Text
import EventLoop.Proofs.Run
import EventLoop.Proofs.Rule
import EventLoop.Proofs.Stack
import EventLoop.Proofs.Weight
import EventLoop.Proofs.StrandCounts
import EventLoop.Proofs.Exclusion
import EventLoop.Proofs.Ledger
import EventLoop.Proofs.Work
import EventLoop.Proofs.Growth
import EventLoop.Proofs.Homing
import EventLoop.Proofs.Order
import EventLoop.Proofs.TicketCounts
import EventLoop.Proofs.OperationCounts
import EventLoop.Proofs.Outcomes
import EventLoop.Proofs.Tickets
import EventLoop.Proofs.Aborts
import EventLoop.Proofs.Cancellation
import EventLoop.Proofs.Wakeup
import EventLoop.Proofs.Calling
import EventLoop.Proofs.Conservation
import EventLoop.Proofs.Deadline
import EventLoop.Proofs.OwnerDrop
import EventLoop.Proofs.Refusal
import EventLoop.Proofs.Destruction
import EventLoop.Proofs.Shutdown
import EventLoop.Proofs.CounterSteps
import EventLoop.Proofs.Halting
import EventLoop.Proofs.Returns
import EventLoop.Proofs.Rounds
import EventLoop.Proofs.Reckoning
import EventLoop.Proofs.Tally
import EventLoop.Proofs.Winding
import EventLoop.Proofs.Unwinding
import EventLoop.Proofs.Arrangement
import EventLoop.Proofs.Spelling
import EventLoop.Proofs.Retention
import EventLoop.Proofs.RoundTrip
import EventLoop.Proofs.Nesting
import EventLoop.Proofs.Dispatching
import EventLoop.Proofs.Expiry
import EventLoop.Proofs.Conclusion
import EventLoop.Proofs.Revocation
import EventLoop.Proofs.Addressing
import EventLoop.Proofs.Literal
import EventLoop.Proofs.Consultation
import EventLoop.Proofs.Standing
import EventLoop.Proofs.Lineage
import EventLoop.Proofs.Browsing
import EventLoop.Proofs.Likeness
import EventLoop.Proofs.Horizon
import EventLoop.Proofs.Ports
import EventLoop.Proofs.Grammar
import EventLoop.Proofs.Scanning
import EventLoop.Proofs.Skipping
import EventLoop.Proofs.Unambiguity
import EventLoop.Proofs.Taking
import EventLoop.Proofs.Members
import EventLoop.Proofs.Fieldwise
import EventLoop.Proofs.Respelling
import EventLoop.Proofs.Restatement
import EventLoop.Proofs.Presentation
import EventLoop.Proofs.Delivery
import EventLoop.Proofs.Serving
import EventLoop.Proofs.Resolution
import EventLoop.Proofs.Dialling
import EventLoop.Proofs.Difference
import EventLoop.Proofs.Conduct
import EventLoop.Proofs.Splitting
import EventLoop.Proofs.Startup
