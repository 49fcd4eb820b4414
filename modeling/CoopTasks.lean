import CoopTasks.Channel
import CoopTasks.Error
import CoopTasks.Json.Decode
import CoopTasks.Pattern
import CoopTasks.Status
import CoopTasks.Table
import CoopTasks.Effect.Timeout
import CoopTasks.Effect.Validity
import CoopTasks.Process
import CoopTasks.Pending
import CoopTasks.Group
import CoopTasks.Task
import CoopTasks.Config
import CoopTasks.Scheduler.Host
import CoopTasks.Snapshot.Tree
import CoopTasks.Snapshot.Text
import CoopTasks.Snapshot.Binary
import CoopTasks.Scheduler.Observe
import CoopTasks.Routine.Environment
import CoopTasks.Encoding
import CoopTasks.Proofs.Frame
import CoopTasks.Proofs.Execution
import CoopTasks.Proofs.Forest
import CoopTasks.Proofs.Coherence
import CoopTasks.Proofs.Coherence.Settlement
import CoopTasks.Proofs.Coherence.Effects
import CoopTasks.Proofs.Coherence.Moves
import CoopTasks.Proofs.Registration
import CoopTasks.Proofs.Lifetimes
import CoopTasks.Proofs.Quiescence
import CoopTasks.Proofs.Idempotence
import CoopTasks.Proofs.Changes
import CoopTasks.Proofs.Departures
import CoopTasks.Proofs.Delivery
import CoopTasks.Proofs.Verdict
import CoopTasks.Proofs.Propagation
import CoopTasks.Proofs.Groups
import CoopTasks.Proofs.Tally
import CoopTasks.Proofs.Precedence
import CoopTasks.Proofs.Resolution
import CoopTasks.Proofs.Contract
import CoopTasks.Proofs.Fifo
import CoopTasks.Proofs.Channels
import CoopTasks.Proofs.Fairness
import CoopTasks.Proofs.Rotation
import CoopTasks.Proofs.Newcomers
import CoopTasks.Proofs.OwnFailure
import CoopTasks.Proofs.Records
import CoopTasks.Proofs.Waning
import CoopTasks.Proofs.Joining
import CoopTasks.Proofs.Clock
import CoopTasks.Proofs.Advance
import CoopTasks.Proofs.Timers
import CoopTasks.Proofs.Order
import CoopTasks.Proofs.Publication
import CoopTasks.Proofs.Signals
import CoopTasks.Proofs.Faults
import CoopTasks.Proofs.Budget
import CoopTasks.Proofs.Standstill
import CoopTasks.Proofs.Bystanders
import CoopTasks.Proofs.Deeds
import CoopTasks.Proofs.Custody
import CoopTasks.Proofs.Watchers
import CoopTasks.Proofs.Frailty
import CoopTasks.Proofs.Teardown
import CoopTasks.Proofs.Annals
import CoopTasks.Proofs.Twins
import CoopTasks.Proofs.Lockstep
import CoopTasks.Proofs.Observation
import CoopTasks.Proofs.Eviction
import CoopTasks.Proofs.Callers
import CoopTasks.Proofs.Roles
import CoopTasks.Proofs.Succession
import CoopTasks.Proofs.Handover
import CoopTasks.Proofs.Breaches
import CoopTasks.Proofs.RootFailures
import CoopTasks.Proofs.Recital
import CoopTasks.Proofs.Completions
import CoopTasks.Proofs.Rendering
import CoopTasks.Proofs.Overview
import CoopTasks.Proofs.WellFormed
import CoopTasks.Proofs.Spinning
import CoopTasks.Proofs.Posture
import CoopTasks.Proofs.Candour
