import N8n.AgentMemory.ScopedMemoryTaskRunner
import N8n.AgentMemory.Serialization
import N8n.AgentMemory.SettledTasks
import N8n.AgentMemory.TaskLifecycle
import N8n.ChatHub.ChatStream
import N8n.Common.Base64Url
import N8n.Common.IsoDate
import N8n.Common.JsString
import N8n.Common.JsonText
import N8n.Common.JsonValue
import N8n.Common.Utf8
import N8n.Concurrency.ConcurrencyControl
import N8n.Concurrency.ConcurrencyQueue
import N8n.Crdt.BaseSyncProvider
import N8n.Crdt.Convergence
import N8n.Crdt.CurrentAttempt
import N8n.Crdt.SingleSocket
import N8n.Crdt.WebSocketTransport
import N8n.Crdt.WorkerProtocol
import N8n.DataProxy.AugmentObject
import N8n.DataProxy.JsObject
import N8n.DataProxy.PrivateCopy
import N8n.DataProxy.Simulation
import N8n.Engine.BackEdges
import N8n.Engine.Completion
import N8n.Engine.Components
import N8n.Engine.Executable
import N8n.Engine.Graph
import N8n.Engine.Handlers
import N8n.Engine.Inputs
import N8n.Engine.Loops
import N8n.Engine.Progress
import N8n.Engine.Rows
import N8n.Engine.Safety
import N8n.Engine.Settlement
import N8n.Engine.StepStore
import N8n.ExecutionList.ExecutionCursor
import N8n.ExecutionList.MergeExecutionPages
import N8n.ExecutionList.PagedList
import N8n.ExpressionRuntime.ExpressionEvaluator
import N8n.ExpressionRuntime.IsolateCustody
import N8n.ExpressionRuntime.IsolateLifecycle
import N8n.ExpressionRuntime.LazyProxy
import N8n.ExpressionRuntime.LazyProxyCopy
import N8n.ExpressionRuntime.LazyProxyPrivate
import N8n.ExpressionRuntime.LazyProxySimulation
import N8n.ExpressionRuntime.Transfer
import N8n.ExpressionRuntime.TransferRoundTrip
import N8n.Expressions.ExpressionParser
import N8n.Expressions.FromAI
import N8n.Expressions.LiteralArguments
import N8n.Foundations.BoundedWalk
import N8n.Foundations.BranchSearch
import N8n.Foundations.Collecting
import N8n.Foundations.ComponentSearch
import N8n.Foundations.Custody
import N8n.Foundations.DepthFirstOrder
import N8n.Foundations.Execution
import N8n.Foundations.Failure
import N8n.Foundations.FrontierSearch
import N8n.Foundations.IntervalCover
import N8n.Foundations.LowLinks
import N8n.Foundations.MergedPages
import N8n.Foundations.OrderedMap
import N8n.Foundations.OrderedSet
import N8n.Foundations.StackSearch
import N8n.Foundations.Table
import N8n.Foundations.Transition
import N8n.Foundations.VertexElimination
import N8n.Insights.Flushing
import N8n.Insights.InsightsCollection
import N8n.LifecycleEvents.BatchingPublisher
import N8n.PartialExecution.CleanRunData
import N8n.PartialExecution.DirectedGraph
import N8n.PartialExecution.ExecutionStack
import N8n.PartialExecution.FewestGroups
import N8n.PartialExecution.FilterDisabledNodes
import N8n.PartialExecution.FindStartNodes
import N8n.PartialExecution.FindSubgraph
import N8n.PartialExecution.GraphEditing
import N8n.PartialExecution.GraphSearch
import N8n.PartialExecution.SourceDataGroups
import N8n.PartialExecution.StronglyConnected
import N8n.PartialExecution.WaitingEntries
import N8n.PartialExecution.WorkflowConversion
import N8n.Publication.PublicationHistory
import N8n.Publication.WorkflowPublicationOutbox
import N8n.PythonTaskRunner.TaskBookkeeping
import N8n.PythonTaskRunner.TaskRunner
import N8n.Redaction.StreamingRedactor
import N8n.Scaling.Leadership
import N8n.Scaling.MultiMainSetup
import N8n.Scaling.QueueRecovery
import N8n.Scaling.ScalingService
import N8n.Scheduler.Attempts
import N8n.Scheduler.Backlog
import N8n.Scheduler.Executor
import N8n.Scheduler.Fencing
import N8n.Scheduler.LeaseInvariant
import N8n.Scheduler.Leases
import N8n.Scheduler.Materializer
import N8n.Scheduler.OwnerCoverage
import N8n.Scheduler.OwnerPages
import N8n.Scheduler.OwnerRetirement
import N8n.Scheduler.Passes
import N8n.Scheduler.Reconciliation
import N8n.Scheduler.Recurrence
import N8n.Scheduler.ScheduledTask
import N8n.SshClients.ClientRegistry
import N8n.SshClients.SSHClientsManager
import N8n.StaticData.ChangeTracking
import N8n.StaticData.ObservableObject
import N8n.Waiting.WaitTracker
import N8n.WorkflowExecute.Conservation
import N8n.WorkflowExecute.EngineRequests
import N8n.WorkflowExecute.WaitingExecution
import N8n.WorkflowExecute.Workflow
import N8n.Workflows.Connections
import N8n.Workflows.GraphUtils
import N8n.Workflows.RenameNode
import N8n.Workflows.WorkflowDiff
import N8n.PartialExecution.HandleCycles
import N8n.WorkflowExecute.RequestWrites
import N8n.Foundations.ServiceOrder
import N8n.WorkflowExecute.ReleaseOrder
import N8n.WorkflowExecute.WaitingLayers
import N8n.WorkflowExecute.CreationOrder
import N8n.Foundations.Distribution
import N8n.WorkflowExecute.PairedItems
import N8n.WorkflowExecute.ErrorOutput
import N8n.Foundations.Remaining
import N8n.Engine.CycleRule
import N8n.Workflows.ConnectionsDiff
import N8n.Scheduler.OwnerGroups
import N8n.Foundations.Delimited
import N8n.Foundations.PathContraction
import N8n.Engine.DisabledNodes
import N8n.Foundations.MemoSearch
import N8n.Workflows.ConnectedNodes
import N8n.Workflows.NodeGroups
import N8n.Foundations.AtMostOnce
import N8n.TaskRunners.TaskBroker
import N8n.TaskRunners.Orderly
import N8n.TaskRunners.Resolution
import N8n.TaskRunners.Residue
import N8n.Expressions.StringValues
import N8n.Expressions.ExtractCalls
import N8n.Expressions.CallsInQuotes
import N8n.TypeAvailability.PolicyShadowLint
import N8n.JsonUtils.ToJsonValue
import N8n.Workflows.ConnectionsByDestination
import N8n.Webhooks.DynamicWebhooks
import N8n.JsonUtils.JsonSize
import N8n.DataTables.LikeFilter
import N8n.Filters.FilterConditions
import N8n.Filters.FilterValidation
import N8n.Promotions.DiffPackageFiles
import N8n.Engine.BatchStep
