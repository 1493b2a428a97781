import ServerlessEdge.Library.Runs
import ServerlessEdge.Library.Triple
import ServerlessEdge.Forwarding.EdgeRouter
import ServerlessEdge.Controller.EdgeControllerHier
import ServerlessEdge.Controller.HierRegistry
import ServerlessEdge.Controller.HierAnnounce
import ServerlessEdge.Controller.HierCanonical
import ServerlessEdge.Controller.HierAnnouncements
import ServerlessEdge.Controller.HierUnique
import ServerlessEdge.Controller.HierWithdraw
import ServerlessEdge.Controller.HierRemoval
import ServerlessEdge.Model.Chain
import ServerlessEdge.Model.Dag
import ServerlessEdge.Messages.LambdaRequest
import ServerlessEdge.Computer.EdgeComputer
import ServerlessEdge.Library.Joins
import ServerlessEdge.Computer.Workflows
import ServerlessEdge.Computer.Executions
import ServerlessEdge.Computer.DagSafety
import ServerlessEdge.Computer.Completion
import ServerlessEdge.Computer.RemoteStates
import ServerlessEdge.Computer.JoinStates
import ServerlessEdge.Library.Deltas
import ServerlessEdge.Clients.EdgeClientPool
import ServerlessEdge.Clients.EdgeClientMulti
import ServerlessEdge.Clients.MultiProtocol
import ServerlessEdge.Controller.HierCoherence
import ServerlessEdge.Controller.HierFailures
import ServerlessEdge.Estimator.DestinationTable
import ServerlessEdge.Estimator.Estimators
import ServerlessEdge.Estimator.PtimeEstimator
import ServerlessEdge.Estimator.Tracking
import ServerlessEdge.Estimator.PtimeConsistency
import ServerlessEdge.Forwarding.EntryPolicy
import ServerlessEdge.Forwarding.Entries
import ServerlessEdge.Forwarding.EntryRoundRobin
import ServerlessEdge.Forwarding.TypedTable
import ServerlessEdge.Processing.EdgeLambdaProcessor
import ServerlessEdge.Processing.EdgeRouter
import ServerlessEdge.Processing.EdgeDispatcher
import ServerlessEdge.Processing.NoRetry
import ServerlessEdge.Computer.ChainExecution
import ServerlessEdge.Simulation.Client
import ServerlessEdge.Simulation.ChainsAgree
import ServerlessEdge.Library.Groups
import ServerlessEdge.Controller.Serving
import ServerlessEdge.Controller.Notifications
import ServerlessEdge.Controller.EdgeControllerEtsiBalanced
import ServerlessEdge.Controller.EtsiDescriptors
import ServerlessEdge.Controller.EtsiDefaults
import ServerlessEdge.Controller.EtsiAssociations
import ServerlessEdge.Controller.EdgeControllerFlat
import ServerlessEdge.Controller.FlatRoutes
import ServerlessEdge.Controller.FlatTables
import ServerlessEdge.Estimator.Choosing
import ServerlessEdge.Processing.PendingEstimates
import ServerlessEdge.Forwarding.Listed
import ServerlessEdge.Processing.RouterTables
import ServerlessEdge.Processing.Routing
import ServerlessEdge.LambdaMuSim.AppPool
import ServerlessEdge.LambdaMuSim.Transitions
import ServerlessEdge.LambdaMuSim.Mcfp
import ServerlessEdge.LambdaMuSim.Served
import ServerlessEdge.LambdaMuSim.FlowGraph
import ServerlessEdge.LambdaMuSim.Scenario
import ServerlessEdge.LambdaMuSim.Dynamic
import ServerlessEdge.LambdaMuSim.MuApps
import ServerlessEdge.LambdaMuSim.Assignments
import ServerlessEdge.LambdaMuSim.DynamicRuns
import ServerlessEdge.LambdaMuSim.RunningCosts
import ServerlessEdge.LambdaMuSim.LambdaService
import ServerlessEdge.Computer.StateRetrieval
import ServerlessEdge.Computer.StateFailures
import ServerlessEdge.Computer.Descriptors
import ServerlessEdge.Computer.Companion
import ServerlessEdge.Processing.Retries
import ServerlessEdge.Processing.Attempts
import ServerlessEdge.Forwarding.Handles
import ServerlessEdge.Forwarding.Deficits
import ServerlessEdge.Forwarding.ActiveSet
import ServerlessEdge.Forwarding.MinElement
import ServerlessEdge.Forwarding.Frequencies
import ServerlessEdge.Controller.EtsiBalance
import ServerlessEdge.Controller.HierClosest
import ServerlessEdge.Library.Ancestors
import ServerlessEdge.Model.Callable
import ServerlessEdge.Simulation.FunctionDag
import ServerlessEdge.Simulation.DagRuns
import ServerlessEdge.Simulation.RequestRuns
import ServerlessEdge.Library.Json
import ServerlessEdge.Model.JsonTexts
import ServerlessEdge.LambdaMuSim.StorageCosts
import ServerlessEdge.Library.Averages
import ServerlessEdge.LambdaMuSim.Averages
import ServerlessEdge.LambdaMuSim.InputCheck
import ServerlessEdge.Library.Rounding
import ServerlessEdge.LambdaMuSim.MinimumCosts
import ServerlessEdge.Library.DepthFirst
import ServerlessEdge.StateSim.Job
import ServerlessEdge.StateSim.Traces
import ServerlessEdge.StateSim.Chains
import ServerlessEdge.StateSim.LoadedJobs
import ServerlessEdge.StateSim.WellFormed
import ServerlessEdge.Library.Parents
import ServerlessEdge.StateSim.Network
import ServerlessEdge.StateSim.Accepted
import ServerlessEdge.StateSim.Routes
import ServerlessEdge.StateSim.Termination
import ServerlessEdge.StateSim.Scenario
import ServerlessEdge.StateSim.Allocation
import ServerlessEdge.StateSim.Measures
import ServerlessEdge.StateSim.Loads
import ServerlessEdge.StateSim.FailedAllocation
import ServerlessEdge.StateSim.PolicyOrder
import ServerlessEdge.Library.Binary
import ServerlessEdge.StateSim.PerformanceData
import ServerlessEdge.Controller.HierCache
import ServerlessEdge.Controller.TopologyFile
import ServerlessEdge.Controller.TopologyGrammar
import ServerlessEdge.Library.Loops
import ServerlessEdge.LambdaMuSim.Termination
import ServerlessEdge.Hosting.Computer
import ServerlessEdge.Hosting.Schedule
import ServerlessEdge.Hosting.Accounting
import ServerlessEdge.Hosting.Stranded
import ServerlessEdge.Hosting.Conservation
import ServerlessEdge.Hosting.FirstCome
import ServerlessEdge.Hosting.Rejections
import ServerlessEdge.Library.PoolProgress
import ServerlessEdge.StateSim.Batches
import ServerlessEdge.LambdaMuSim.Simulation
import ServerlessEdge.Processing.EdgeServerGrpc
import ServerlessEdge.Processing.ServedCalls
import ServerlessEdge.Controller.HierFinal
import ServerlessEdge.Controller.HierRequests
import ServerlessEdge.Processing.ControlledRouters
import ServerlessEdge.Forwarding.ForwardingTableClient
import ServerlessEdge.Hosting.Progress
import ServerlessEdge.Library.Turns
import ServerlessEdge.Forwarding.Fairness
import ServerlessEdge.Controller.EdgeControllerServer
import ServerlessEdge.LambdaMuSim.Replications
