import CompactionLeasing.Admission
import CompactionLeasing.Backoff
import CompactionLeasing.Daemon.Launch
import CompactionLeasing.Daemon.Run
import CompactionLeasing.Endpoint
import CompactionLeasing.Files
import CompactionLeasing.Job
import CompactionLeasing.Json.Number
import CompactionLeasing.Json.Text
import CompactionLeasing.Json.Token
import CompactionLeasing.Json.Value
import CompactionLeasing.Loops.Discovery
import CompactionLeasing.Loops.Maintenance
import CompactionLeasing.Loops.Ticks
import CompactionLeasing.Main
import CompactionLeasing.Metrics.Exposition
import CompactionLeasing.Metrics.Registry
import CompactionLeasing.Metrics.Tally
import CompactionLeasing.Proofs.Backoff
import CompactionLeasing.Proofs.ByteOrder
import CompactionLeasing.Proofs.Durability
import CompactionLeasing.Proofs.JobTable
import CompactionLeasing.Proofs.Json.Lexing
import CompactionLeasing.Proofs.Json.Reading
import CompactionLeasing.Proofs.Loops.Starting
import CompactionLeasing.Proofs.Metrics.Exposition
import CompactionLeasing.Proofs.Queues.Linked
import CompactionLeasing.Proofs.Queues.Listing
import CompactionLeasing.Proofs.Queues.Sound
import CompactionLeasing.Proofs.Queues.Strict
import CompactionLeasing.Proofs.Record
import CompactionLeasing.Proofs.Scanning
import CompactionLeasing.Proofs.Scheduler.Fairness
import CompactionLeasing.Proofs.Scheduler.Keeping
import CompactionLeasing.Proofs.Scheduler.Maintenance
import CompactionLeasing.Proofs.Scheduler.Moves
import CompactionLeasing.Proofs.Scheduler.Overflow
import CompactionLeasing.Proofs.Scheduler.Reconciliation
import CompactionLeasing.Proofs.Scheduler.Registries
import CompactionLeasing.Proofs.Scheduler.Removal
import CompactionLeasing.Proofs.Scheduler.Rounds
import CompactionLeasing.Proofs.Scheduler.Separate
import CompactionLeasing.Proofs.Scheduler.Standing
import CompactionLeasing.Proofs.Scheduler.Survey
import CompactionLeasing.Proofs.Scheduler.Waits
import CompactionLeasing.Proofs.Settings.Resolved
import CompactionLeasing.Proofs.Settings.Usable
import CompactionLeasing.Proofs.Settings.Written
import CompactionLeasing.Proofs.Sorting
import CompactionLeasing.Proofs.SpanText
import CompactionLeasing.Proofs.Store.Holdings
import CompactionLeasing.Proofs.Store.Recorded
import CompactionLeasing.Proofs.Store.Rows
import CompactionLeasing.Proofs.Table
import CompactionLeasing.Proofs.Toml.Lexing
import CompactionLeasing.Proofs.Toml.Quoting
import CompactionLeasing.Proofs.Toml.Reading
import CompactionLeasing.Proofs.Tracker.Atomicity
import CompactionLeasing.Proofs.Tracker.Balance
import CompactionLeasing.Proofs.Tracker.Cadence
import CompactionLeasing.Proofs.Tracker.Commits
import CompactionLeasing.Proofs.Tracker.Consistent
import CompactionLeasing.Proofs.Tracker.DueTimes
import CompactionLeasing.Proofs.Tracker.Fencing
import CompactionLeasing.Proofs.Tracker.Histories
import CompactionLeasing.Proofs.Tracker.Horizon
import CompactionLeasing.Proofs.Tracker.Insertion
import CompactionLeasing.Proofs.Tracker.Life
import CompactionLeasing.Proofs.Tracker.Lineup
import CompactionLeasing.Proofs.Tracker.Metered
import CompactionLeasing.Proofs.Tracker.Mirrors
import CompactionLeasing.Proofs.Tracker.Outcome
import CompactionLeasing.Proofs.Tracker.PlanJob
import CompactionLeasing.Proofs.Tracker.Planning
import CompactionLeasing.Proofs.Tracker.Recovery
import CompactionLeasing.Proofs.Tracker.Refills
import CompactionLeasing.Proofs.Tracker.Serves
import CompactionLeasing.Proofs.Tracker.Shifts
import CompactionLeasing.Proofs.Tracker.Ties
import CompactionLeasing.Proofs.Tracker.Tracks
import CompactionLeasing.Proofs.Tracker.Upkeep
import CompactionLeasing.Proofs.Tracker.WellFormed
import CompactionLeasing.Queues
import CompactionLeasing.Record
import CompactionLeasing.Scheduler.Basic
import CompactionLeasing.Scheduler.Discovery
import CompactionLeasing.Scheduler.Recovery
import CompactionLeasing.Scheduler.Rotation
import CompactionLeasing.Settings.Basic
import CompactionLeasing.Settings.Reader
import CompactionLeasing.Settings.Writer
import CompactionLeasing.SpanText
import CompactionLeasing.Storage
import CompactionLeasing.Store.Basic
import CompactionLeasing.Store.Error
import CompactionLeasing.Store.File
import CompactionLeasing.Tenant
import CompactionLeasing.Text.Blank
import CompactionLeasing.Text.Decimal
import CompactionLeasing.Text.FloatRange
import CompactionLeasing.Text.Hexadecimal
import CompactionLeasing.Text.Quoted
import CompactionLeasing.Text.Unprintable
import CompactionLeasing.Time
import CompactionLeasing.Toml.Document
import CompactionLeasing.Toml.Quoting
import CompactionLeasing.Toml.Scalar
import CompactionLeasing.Toml.Statement
import CompactionLeasing.Toml.Text
import CompactionLeasing.Toml.Token
import CompactionLeasing.Toml.Value
import CompactionLeasing.Tracker.Basic
import CompactionLeasing.Tracker.Lease
import CompactionLeasing.Tracker.Maintenance
import CompactionLeasing.Tracker.Proposal
import CompactionLeasing.Tracker.Recovery
import CompactionLeasing.Tracker.Request
