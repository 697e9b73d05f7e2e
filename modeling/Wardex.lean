import Wardex.Lib.Run
import Wardex.Lib.Ballot
import Wardex.Lib.LogHistory
import Wardex.Lib.Replica
import Wardex.Lib.Replication
import Wardex.Lib.Protocol
import Wardex.Lib.HashChain
import Wardex.Lib.OpTree
import Wardex.Lib.Delimited
import Wardex.Lib.Response
import Wardex.Lib.Visits
import Wardex.Lib.Decimal
import Wardex.Lib.Text
import Wardex.Lib.SortedMap
import Wardex.Lib.Throttle
import Wardex.Lib.Records
import Wardex.Lib.Offsets
import Wardex.Lib.KeyMap
import Wardex.Lib.FixedWidth
import Wardex.Lib.BoundedQueue
import Wardex.Lib.ConstantTime
import Wardex.Lib.Brackets
import Wardex.Lib.Stash
import Wardex.Lib.Ranking
import Wardex.Lib.WeightedMean
import Wardex.Cluster.Node
import Wardex.Cluster.Votes
import Wardex.Cluster.Commit
import Wardex.Cluster.Compaction
import Wardex.Cluster.Log
import Wardex.Cluster.Convergence
import Wardex.Cluster.Network
import Wardex.Cluster.Election
import Wardex.Cluster.Simulation
import Wardex.Cluster.Replication
import Wardex.Cluster.Refinement
import Wardex.Cluster.Safety
import Wardex.Audit.Log
import Wardex.Audit.Chain
import Wardex.Audit.Numbering
import Wardex.Policy.Vm
import Wardex.Policy.Grammar
import Wardex.Policy.Correctness
import Wardex.Policy.Acceptance
import Wardex.Policy.Composition
import Wardex.Temporal.Monitor
import Wardex.Temporal.BoundedResponse
import Wardex.Response.Orchestrator
import Wardex.Response.Lifecycle
import Wardex.Response.Steps
import Wardex.Response.Approval
import Wardex.Spool.EncryptedSpool
import Wardex.Spool.Persist
import Wardex.Spool.Host
import Wardex.Spool.Capacity
import Wardex.Sigma.Rule
import Wardex.Sigma.Condition
import Wardex.Sigma.Events
import Wardex.Sigma.Engine
import Wardex.Sigma.Suppression
import Wardex.Sigma.Import
import Wardex.Sigma.Layout
import Wardex.Sigma.Quoting
import Wardex.Sigma.Reading
import Wardex.Sigma.Writing
import Wardex.Sigma.Fidelity
import Wardex.Playbooks.Engine
import Wardex.Playbooks.Works
import Wardex.Playbooks.Runs
import Wardex.Playbooks.Approval
import Wardex.Playbooks.Branches
import Wardex.PlaybookDsl.Store
import Wardex.PlaybookDsl.Branches
import Wardex.Swarm.Gossip
import Wardex.Swarm.Rounds
import Wardex.Rbac.Authentication
import Wardex.GraphQl.Parser
import Wardex.GraphQl.Arguments
import Wardex.GraphQl.Selections
import Wardex.GraphQl.RoundTrip
import Wardex.WsStream.Framing
import Wardex.WsStream.EventBus
import Wardex.Enrollment.Registry
import Wardex.Enrollment.TokenUse
import Wardex.Lib.Fallible
import Wardex.Updates.Release
import Wardex.Updates.Trust
import Wardex.Updates.Integrity
import Wardex.Updates.Atomic
import Wardex.Remediation.Commands
import Wardex.Remediation.Engine
import Wardex.Remediation.Review
import Wardex.Remediation.Authorization
import Wardex.Remediation.QuarantineRestore
import Wardex.Lib.Table
import Wardex.Lib.Grouping
import Wardex.Events.Store
import Wardex.Events.Persistence
import Wardex.Events.Correlation
import Wardex.Events.Escalation
import Wardex.Events.Triage
import Wardex.Lib.Clustering
import Wardex.Lib.ClusterOrder
import Wardex.Lib.ClusterSteady
import Wardex.Incidents.Incident
import Wardex.Incidents.Placement
import Wardex.Incidents.Stability
import Wardex.Incidents.Coverage
import Wardex.Escalation.Engine
import Wardex.Escalation.Chain
import Wardex.Storage.AuditTable
import Wardex.Clickhouse.Storage
import Wardex.Clickhouse.Delivery
import Wardex.LiveResponse.Engine
import Wardex.LiveResponse.Control
import Wardex.Lib.Escaped
import Wardex.Siem.Formats
import Wardex.Siem.Cef
import Wardex.Siem.Syslog
import Wardex.Siem.Forgery
import Wardex.Backup.Manager
import Wardex.Lib.FileTree
import Wardex.Backup.Restorable
import Wardex.Hunt.Search
import Wardex.Hunt.Grammar
import Wardex.Hunt.RoundTrip
import Wardex.Hunt.Wildcard
import Wardex.Hunt.Pipe
import Wardex.Hunt.Aggregation
import Wardex.Enforcement.Tpm
import Wardex.Enforcement.Quote
import Wardex.Enforcement.Executor
import Wardex.Lib.HashTable
import Wardex.Tenants.Manager
import Wardex.Storage.Dedup
import Wardex.Cluster.Acknowledge
import Wardex.Policy.Limits
import Wardex.Spool.Plain
import Wardex.Spool.Tenants
import Wardex.Spool.RoundTrip
import Wardex.Sigma.Bounds
import Wardex.Sigma.Alternatives
import Wardex.Temporal.Safety
import Wardex.Playbooks.Language
import Wardex.Playbooks.Slicing
import Wardex.Playbooks.Glob
import Wardex.Playbooks.Template
import Wardex.PlaybookDsl.Runs
import Wardex.Swarm.Tally
import Wardex.Swarm.Posture
import Wardex.Swarm.Partitions
import Wardex.Swarm.Healing
import Wardex.Lib.Forest
import Wardex.Processes.Tree
import Wardex.Updates.Versions
import Wardex.Edr.Engine
import Wardex.Edr.Window
import Wardex.Quantum.Lamport
import Wardex.GraphQl.Nesting
import Wardex.Yara.Lossy
import Wardex.Yara.Engine
import Wardex.Yara.Locations
import Wardex.Privacy.Redaction
import Wardex.Privacy.Addresses
import Wardex.Privacy.Federated
import Wardex.Quarantine.Store
import Wardex.Lib.Shell
import Wardex.Lib.Windows
import Wardex.Lib.Bursts
import Wardex.Lib.DepthFirst
import Wardex.Licensing.License
import Wardex.Enforcement.Topology
import Wardex.Enforcement.QuarantineFile
import Wardex.Events.CredentialSpray
import Wardex.ThreatIntel.Store
import Wardex.ThreatIntel.Decay
import Wardex.ThreatIntel.Compounding
import Wardex.Vulnerability.Scanner
import Wardex.Fleet.Campaign
import Wardex.Fleet.Lateral
import Wardex.Alerts.Deduplication
import Wardex.Runtime.Detector
import Wardex.Runtime.Learning
import Wardex.Runtime.Drift
import Wardex.Runtime.Windows
import Wardex.Runtime.StateMachine
import Wardex.Runtime.Checkpoints
import Wardex.Runtime.Pipeline
import Wardex.Alerts.Analysis
import Wardex.Clickhouse.Queries
import Wardex.Lib.Schema
import Wardex.Storage.Migrations
