import ForwardChaining.ErrorReport
import ForwardChaining.Logging
import ForwardChaining.Session.Create
import ForwardChaining.Proofs.Value.Key
import ForwardChaining.Proofs.Logged
import ForwardChaining.Proofs.Network.Stage
import ForwardChaining.Proofs.Network.Step
import ForwardChaining.Proofs.Rule.Condition
import ForwardChaining.Proofs.Aggregate
import ForwardChaining.Proofs.Network.Memory
import ForwardChaining.Proofs.Network.Rescan
import ForwardChaining.Proofs.Network.Count
import ForwardChaining.Proofs.Rule.TypeIndex
import ForwardChaining.Proofs.Network.Sound
import ForwardChaining.Proofs.Network.Work
import ForwardChaining.Proofs.Network.Turn
import ForwardChaining.Proofs.Network.Change
import ForwardChaining.Proofs.Network.Tame
import ForwardChaining.Proofs.Network.Delivery
import ForwardChaining.Proofs.Network.Start
import ForwardChaining.Proofs.Network.Level
import ForwardChaining.Proofs.Checked
import ForwardChaining.Proofs.Rule.Compile
import ForwardChaining.Proofs.Binary64.Rounding
import ForwardChaining.Proofs.Binary64.Text
import ForwardChaining.Proofs.Binary64.Sum
import ForwardChaining.Proofs.Text.Quoted
import ForwardChaining.Proofs.Value.Alike
import ForwardChaining.Proofs.Rule.Identity
import ForwardChaining.Proofs.Store.Table
import ForwardChaining.Proofs.Store.Log
import ForwardChaining.Proofs.Network.Equivalence
import ForwardChaining.Proofs.Agenda
import ForwardChaining.Proofs.Network.Schedule
import ForwardChaining.Proofs.Network.Pending
import ForwardChaining.Proofs.Session.Following
import ForwardChaining.Proofs.Session.Action
import ForwardChaining.Proofs.Session.History
import ForwardChaining.Proofs.Session.Refraction
import ForwardChaining.Proofs.Session.Liveness
import ForwardChaining.Proofs.Session.Tracking
import ForwardChaining.Proofs.Session.Isolation
import ForwardChaining.Proofs.Session.Completion
import ForwardChaining.Proofs.Session.Naive
import ForwardChaining.Proofs.Session.Simulation
import ForwardChaining.Proofs.Session.Lockstep
import ForwardChaining.Proofs.Session.Refinement
import ForwardChaining.Proofs.Agenda.Map
import ForwardChaining.Proofs.Store.Mutation
import ForwardChaining.Proofs.Store.Calls
import ForwardChaining.Proofs.Store.Deferral
import ForwardChaining.Proofs.Store.Snapshots
import ForwardChaining.Proofs.Store.Filing
import ForwardChaining.Proofs.Store.Accounts
import ForwardChaining.Proofs.Rule.WellFormed
import ForwardChaining.Proofs.Rule.Acceptance
import ForwardChaining.Proofs.Network.Confined
import ForwardChaining.Proofs.Network.Scope
import ForwardChaining.Proofs.Rule.Scope
import ForwardChaining.Proofs.Network.Binding
import ForwardChaining.Proofs.Session.Conduct
import ForwardChaining.Proofs.Session.Typing
import ForwardChaining.Proofs.Store.Scope
import ForwardChaining.Proofs.Session.Scope
import ForwardChaining.Proofs.Session.Naming
import ForwardChaining.Proofs.Session.Limit
import ForwardChaining.Proofs.Session.Population
import ForwardChaining.Proofs.Rule.Timeless
import ForwardChaining.Proofs.Rule.Placement
import ForwardChaining.Proofs.Session.Exchange
import ForwardChaining.Proofs.Session.Placement
import ForwardChaining.Proofs.Session.Bystander
import ForwardChaining.Proofs.Value.Rank
import ForwardChaining.Proofs.Aggregate.Sum
import ForwardChaining.Proofs.Network.Turnover
import ForwardChaining.Proofs.Network.Blocking
import ForwardChaining.Proofs.Network.Recount
import ForwardChaining.Proofs.Session.Recount
import ForwardChaining.Proofs.Rule.Comparison
import ForwardChaining.Proofs.Value.Freezing
import ForwardChaining.Proofs.Rule.Correlation
import ForwardChaining.Proofs.Store.Revision
import ForwardChaining.Proofs.Session.Revision
import ForwardChaining.Proofs.Network.Vacancy
import ForwardChaining.Proofs.Session.Vacancy
import ForwardChaining.Proofs.Value.Ordering
import ForwardChaining.Proofs.Operator.Ordering
import ForwardChaining.Proofs.Agenda.Policy
import ForwardChaining.Proofs.Store.Promptness
import ForwardChaining.Proofs.Store.Refusal
import ForwardChaining.Proofs.Text.Separated
import ForwardChaining.Proofs.Network.Sharing
import ForwardChaining.Proofs.Rule.IndexFigures
import ForwardChaining.Proofs.Json
import ForwardChaining.Proofs.Json.Reading
import ForwardChaining.Proofs.Rule.Digest
import ForwardChaining.Proofs.Value.Content
import ForwardChaining.Proofs.Rule.Content
import ForwardChaining.Proofs.Session.Calm
import ForwardChaining.Proofs.Session.Progress
