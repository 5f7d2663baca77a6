import UnitControl.Name
import UnitControl.Label.Grammar
import UnitControl.Label.Scan
import UnitControl.UnitPath
import UnitControl.Table
import UnitControl.Job
import UnitControl.UnitStatus
import UnitControl.Signal
import UnitControl.Bus.MatchRule.Reader
import UnitControl.Listing
import UnitControl.Registry.Operation
import UnitControl.Dispatcher
import UnitControl.Clock
import UnitControl.Poller
import UnitControl.Engine
import UnitControl.Engine.Step
import UnitControl.Script.Manager
import UnitControl.Script.Session
import UnitControl.Script.Link
import UnitControl.Proofs.Registry.Balance
import UnitControl.Proofs.Registry.Operation
import UnitControl.Proofs.Registry.Rules
import UnitControl.Proofs.Engine.Alike
import UnitControl.Proofs.Engine.Move
import UnitControl.Proofs.Dispatcher.Slots
import UnitControl.Proofs.Engine.Answers
import UnitControl.Proofs.Engine.Waits
import UnitControl.Proofs.Registry.Directs
import UnitControl.Proofs.Engine.References
import UnitControl.Proofs.Bus.MatchRule
import UnitControl.Proofs.Engine.Rules
import UnitControl.Proofs.Engine.Correlation
import UnitControl.Proofs.Engine.Completion
import UnitControl.Proofs.Listing
import UnitControl.Proofs.Poller.Replay
import UnitControl.Proofs.Engine.Polling
import UnitControl.Proofs.Channel
import UnitControl.Proofs.Engine.Sinks
import UnitControl.Proofs.Registry.Atomic
import UnitControl.Proofs.Engine.Atomic
import UnitControl.Proofs.Registry.Targets
import UnitControl.Proofs.Engine.Mail
import UnitControl.Proofs.Engine.Fanout
import UnitControl.Proofs.Engine.Pursuit
import UnitControl.Proofs.Engine.Disconnection
import UnitControl.Engine.Act
import UnitControl.Proofs.Engine.Act
import UnitControl.Proofs.Engine.Attendance
import UnitControl.Proofs.Engine.Shutdown
import UnitControl.Proofs.Engine.Sidelines
import UnitControl.Proofs.Engine.Pending
import UnitControl.Proofs.Registry.Endings
import UnitControl.Proofs.Feed
import UnitControl.Proofs.Engine.Feeds
import UnitControl.Proofs.Engine.Endings
import UnitControl.Proofs.Engine.Stall
import UnitControl.Proofs.Engine.Submissions
import UnitControl.Proofs.Registry.Withdrawal
import UnitControl.Proofs.Engine.Withdrawal
import UnitControl.Proofs.Poller.Backlog
import UnitControl.Proofs.Engine.Backlog
import UnitControl.Proofs.Engine.Handle
import UnitControl.Proofs.Engine.Veil
import UnitControl.Proofs.Engine.Fate
import UnitControl.Proofs.Engine.Timeout
import UnitControl.Proofs.UnitPath.RoundTrip
import UnitControl.Proofs.Bus.MatchRule.Reader
import UnitControl.Proofs.Engine.Line
import UnitControl.Proofs.Engine.Places
import UnitControl.Proofs.Engine.Tenure
import UnitControl.Proofs.Registry.Release
import UnitControl.Proofs.Engine.Release
import UnitControl.Proofs.Engine.Publication
import UnitControl.Proofs.Engine.Newcomers
import UnitControl.Proofs.Engine.Idled
import UnitControl.Proofs.Engine.Progress
import UnitControl.Proofs.Engine.Deadlock
import UnitControl.Proofs.Label.Grammar
import UnitControl.Proofs.Label.Scan
import UnitControl.Proofs.Channel.Bounds
import UnitControl.Proofs.Poller.Lanes
import UnitControl.Proofs.Poller.Bounds
import UnitControl.Proofs.Engine.Bounds
import UnitControl.Proofs.Poller.Lifetime
import UnitControl.Proofs.Poller.Ticks
import UnitControl.Proofs.Engine.ListCalls
import UnitControl.Proofs.Engine.Lifetime
import UnitControl.Proofs.Listing.Restriction
import UnitControl.Proofs.Poller.Restriction
import UnitControl.Proofs.Engine.Restriction
import UnitControl.Proofs.Text.Blank
import UnitControl.Proofs.Name
import UnitControl.Proofs.Engine.Names
import UnitControl.Proofs.UnitStatus
import UnitControl.Proofs.Listing.Patch
import UnitControl.Proofs.Registry.Membership
import UnitControl.Proofs.Engine.Routine
import UnitControl.Proofs.Engine.Assignments
import UnitControl.Proofs.Engine.Course
import UnitControl.Proofs.Engine.Deeds
import UnitControl.Proofs.Engine.Members
import UnitControl.Proofs.Engine.Closing
import UnitControl.Proofs.Poller.Farewell
import UnitControl.Proofs.Engine.Membership
