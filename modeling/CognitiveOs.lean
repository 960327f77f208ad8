import CognitiveOs.Runtime.Scheduler.Safety
import CognitiveOs.Snapshot.Agreement
import CognitiveOs.Tx.Rollback
import CognitiveOs.Sessions.Isolation
import CognitiveOs.Sessions.Index.Restart
import CognitiveOs.Cognition.Obligations
import CognitiveOs.Cognition.Repairs
import CognitiveOs.Cognition.SearchReuse
import CognitiveOs.Cognition.FullReads
import CognitiveOs.Cognition.Artifacts
import CognitiveOs.Action.Mcp.Ownership
import CognitiveOs.Sessions.Lanes
import CognitiveOs.Os.Http.Full
import CognitiveOs.Llm.Sse
import CognitiveOs.Sessions.Torn
import CognitiveOs.Cognition.Planner.Salvage
import CognitiveOs.Llm.NativeExecution
import CognitiveOs.Action.Mcp.Stdio
import CognitiveOs.Cognition.Planner.Batches
import CognitiveOs.Api.WebSocket.RoundTrip
import CognitiveOs.Api.WebSocket.Segmentation
import CognitiveOs.Agent.ChatLanes
import CognitiveOs.Memory.Summary.Flight
import CognitiveOs.Memory.Gate.Provenance
import CognitiveOs.Memory.Records.RoundTrip
import CognitiveOs.Security.Redaction
import CognitiveOs.Action.ToolShell
import CognitiveOs.Security.StreamGuard
import CognitiveOs.Action.Ssh.Binding
import CognitiveOs.Cognition.Rounds.Budget
import CognitiveOs.Context.Mmu.Emission
import CognitiveOs.Api.HttpServer.Segments
import CognitiveOs.Infra.Ringbuf.Linearization
import CognitiveOs.Runtime.EventBus.Storm
import CognitiveOs.Runtime.FlowRun.Dependencies
import CognitiveOs.Cognition.Rounds.Messages
import CognitiveOs.Action.Ssh.Session
import CognitiveOs.Runtime.FlowStore
import CognitiveOs.Memory.Gate.Maturation
import CognitiveOs.Memory.Episodes
import CognitiveOs.Runtime.TaskLog.Recovery
import CognitiveOs.Execution.Route
import CognitiveOs.Runtime.Cron
import CognitiveOs.Llm.Router.RoundRobin
import CognitiveOs.Runtime.Policy
import CognitiveOs.Llm.Usage
import CognitiveOs.Action.Ssh.Correction
import CognitiveOs.Im.Channel
import CognitiveOs.Api.WebSocket.Broadcast
import CognitiveOs.Context.Mmu.Output
import CognitiveOs.Im.Order
import CognitiveOs.Llm.Router.Persist
import CognitiveOs.Cognition.Planner.Spans
import CognitiveOs.Action.Search.Glob
import CognitiveOs.Action.Search.Grep
import CognitiveOs.Llm.Router.Active
import CognitiveOs.Cognition.FailureTable
import CognitiveOs.Runtime.Orchestrator.Roster
import CognitiveOs.Action.Ssh.CommandLine
import CognitiveOs.Runtime.StateImport
import CognitiveOs.PluginRuntime.WasmRunner
import CognitiveOs.Cognition.Planner.Dsml.RoundTrip
import CognitiveOs.Runtime.Scheduler.Queue
import CognitiveOs.Runtime.Scheduler.History
import CognitiveOs.Api.WebSocket.Bounds
import CognitiveOs.Memory.Working
import CognitiveOs.Runtime.FlowRun.Longest
import CognitiveOs.Cognition.Repetition
import CognitiveOs.Cognition.RoundLog
import CognitiveOs.Runtime.FlowRun.Substitute
import CognitiveOs.Cognition.Signatures
import CognitiveOs.Sessions.Table.Consistent
import CognitiveOs.Llm.Preview.Faithful
import CognitiveOs.Retrieval.Engine
import CognitiveOs.Runtime.StateStore
import CognitiveOs.Memory.Nearest
import CognitiveOs.Memory.Consolidation
import CognitiveOs.Memory.Archive
import CognitiveOs.Memory.Documents
import CognitiveOs.Runtime.TaskLog.States
import CognitiveOs.Cognition.FilePaging
import CognitiveOs.Cognition.PageCache
import CognitiveOs.Infra.CodePoints
import CognitiveOs.Api.WebSocket.Base64
import CognitiveOs.Runtime.Agents.Presentation
import CognitiveOs.Runtime.Agents.Pool
import CognitiveOs.Api.HttpServer.Routes
import CognitiveOs.PluginRuntime.Capability
import CognitiveOs.PluginRuntime.Registry
import CognitiveOs.Action.FileEdit
import CognitiveOs.Infra.Config
import CognitiveOs.Action.Ssh.Prompt
import CognitiveOs.Infra.Trace
import CognitiveOs.Runtime.Hook
import CognitiveOs.Cognition.Blackboard
import CognitiveOs.PluginRuntime.FileTracker
