import RlAqs.Campaign.CampaignSafe
import RlAqs.Campaign.CampaignTotal
import RlAqs.Campaign.GroupsMatch
import RlAqs.Campaign.MasterChecks
import RlAqs.Campaign.MasterCore
import RlAqs.Campaign.ParametersCore
import RlAqs.Campaign.ParametersMatch
import RlAqs.Campaign.ProtocolCore
import RlAqs.Campaign.ProtocolJoined
import RlAqs.Campaign.ProtocolNumbered
import RlAqs.Campaign.ProtocolSafe
import RlAqs.Campaign.ProtocolServed
import RlAqs.Campaign.ResumedCore
import RlAqs.Campaign.ResumedInside
import RlAqs.Campaign.SharedCore
import RlAqs.Campaign.SharedSafe
import RlAqs.Campaign.SharedStages
import RlAqs.Campaign.SharedWedged
import RlAqs.Campaign.TallyCore
import RlAqs.Campaign.TallyReported
import RlAqs.Campaign.TallySequential
import RlAqs.Learner.LearnersChecks
import RlAqs.Learner.LearnersCore
import RlAqs.Learner.ListingCore
import RlAqs.Learner.ListingExact
import RlAqs.Learner.ListingStored
import RlAqs.Learner.ProjectionCore
import RlAqs.Learner.ProjectionExact
import RlAqs.Learner.SignalsBounded
import RlAqs.Learner.SimplexChecks
import RlAqs.Learner.SimplexCore
import RlAqs.Learner.StrategyDrawn
import RlAqs.Learner.StrategyKept
import RlAqs.Library.Counter
import RlAqs.Library.DepthFirst
import RlAqs.Library.Discounted
import RlAqs.Library.Inflow
import RlAqs.Library.Parking
import RlAqs.Library.PathSums
import RlAqs.Library.PointWrites
import RlAqs.Library.Reach
import RlAqs.Library.Remaining
import RlAqs.Library.Roulette
import RlAqs.Library.Runs
import RlAqs.Library.SignFlips
import RlAqs.Library.SingleServer
import RlAqs.Library.Stages
import RlAqs.Library.Sums
import RlAqs.Library.Threshold
import RlAqs.Library.Timeline
import RlAqs.Library.Welford
import RlAqs.Library.Worklist
import RlAqs.Network.EpidemicPaths
import RlAqs.Network.EpidemicSpread
import RlAqs.Network.FeaturesCore
import RlAqs.Network.FeaturesSound
import RlAqs.Network.FeaturesText
import RlAqs.Network.FormedAwake
import RlAqs.Network.FormedChecks
import RlAqs.Network.FormedGenerated
import RlAqs.Network.GraphCore
import RlAqs.Network.IndicesUnique
import RlAqs.Network.LinksDrawn
import RlAqs.Network.NetworkChecks
import RlAqs.Network.NetworkCore
import RlAqs.Network.RoutinesReference
import RlAqs.Network.TrafficBalanced
import RlAqs.Network.TrafficGenerated
import RlAqs.Neural.ActivationSlopes
import RlAqs.Neural.Backpropagation
import RlAqs.Neural.DotProduct
import RlAqs.Neural.ErrorAlong
import RlAqs.Neural.FeedforwardCore
import RlAqs.Neural.LineSearchBest
import RlAqs.Neural.LineSearchCore
import RlAqs.Neural.LossPredicted
import RlAqs.Neural.MomentumCore
import RlAqs.Neural.MomentumDescent
import RlAqs.Neural.ObjectiveCore
import RlAqs.Neural.SearchUphill
import RlAqs.Neural.TrainingCore
import RlAqs.Neural.TrainingStart
import RlAqs.Neural.WeightLayout
import RlAqs.Neural.WeightOrder
import RlAqs.Queue.BottomChecks
import RlAqs.Queue.EntryCore
import RlAqs.Queue.IndexedCore
import RlAqs.Queue.IndexedInside
import RlAqs.Queue.LadderAccess
import RlAqs.Queue.LadderBuckets
import RlAqs.Queue.LadderCore
import RlAqs.Queue.LadderDelist
import RlAqs.Queue.LadderDrained
import RlAqs.Queue.LadderEpoch
import RlAqs.Queue.LadderInvariant
import RlAqs.Queue.LadderQueueCases
import RlAqs.Queue.LadderQueueCore
import RlAqs.Queue.LadderQueueOrder
import RlAqs.Queue.LadderQueueStages
import RlAqs.Queue.LadderSpawn
import RlAqs.Queue.LadderTimes
import RlAqs.Queue.LadderTotal
import RlAqs.Queue.QueueCore
import RlAqs.Queue.SessionCore
import RlAqs.Queue.SessionOrder
import RlAqs.Queue.SessionPast
import RlAqs.Queue.SessionStable
import RlAqs.Queue.SessionTotal
import RlAqs.Routing.BoltzmannCore
import RlAqs.Routing.EstimatesBounded
import RlAqs.Routing.GreedyDrawn
import RlAqs.Routing.PresentedCore
import RlAqs.Routing.PresentedTrained
import RlAqs.Routing.PresentedUnobserved
import RlAqs.Routing.RegretCore
import RlAqs.Routing.RegretTotal
import RlAqs.Routing.RoutedRuns
import RlAqs.Routing.RoutingCore
import RlAqs.Routing.RoutingInside
import RlAqs.Routing.SelectionsDrawn
import RlAqs.Routing.StateFeatures
import RlAqs.Sampling.LatinColumns
import RlAqs.Sampling.LatinCore
import RlAqs.Sampling.LatinDesign
import RlAqs.Sampling.LatinOrthogonal
import RlAqs.Sampling.LatinSampleCore
import RlAqs.Sampling.LatinSearchCore
import RlAqs.Sampling.LatinSearchEnds
import RlAqs.Sampling.LatinSearchTried
import RlAqs.Sampling.LatinStrata
import RlAqs.Sampling.WalkBounded
import RlAqs.Sampling.WalkCore
import RlAqs.Simulator.AdminTimes
import RlAqs.Simulator.ArrivalRates
import RlAqs.Simulator.ArrivalStreams
import RlAqs.Simulator.HandlersChecks
import RlAqs.Simulator.HandlersCore
import RlAqs.Simulator.HistoryPast
import RlAqs.Simulator.JobsChecks
import RlAqs.Simulator.JobsCore
import RlAqs.Simulator.JobsEach
import RlAqs.Simulator.JobsRetrace
import RlAqs.Simulator.JobsRewarded
import RlAqs.Simulator.JobsTracked
import RlAqs.Simulator.LoopAccepts
import RlAqs.Simulator.LoopCore
import RlAqs.Simulator.LoopEnds
import RlAqs.Simulator.LoopReturns
import RlAqs.Simulator.PathsLinked
import RlAqs.Simulator.ProcessorCases
import RlAqs.Simulator.ProcessorCore
import RlAqs.Simulator.QueuedCases
import RlAqs.Simulator.QueuedConserved
import RlAqs.Simulator.QueuedCore
import RlAqs.Simulator.QueuedEnds
import RlAqs.Simulator.QueuedPushes
import RlAqs.Simulator.QueuedRefines
import RlAqs.Simulator.QueuedTies
import RlAqs.Simulator.RatesCore
import RlAqs.Simulator.ServersFifo
import RlAqs.Simulator.ServersMatch
import RlAqs.Simulator.ServersServed
import RlAqs.Statistics.ExpertsCore
import RlAqs.Statistics.ExpertsMeasured
import RlAqs.Statistics.LoadBalanced
import RlAqs.Statistics.LoadCore
import RlAqs.Statistics.LoadMeasured
import RlAqs.Statistics.LoadServed
import RlAqs.Statistics.MonitorCore
import RlAqs.Statistics.MonitorReported
import RlAqs.Statistics.RewardsCore
import RlAqs.Statistics.RewardsMean
import RlAqs.Statistics.StatisticsAgree
import RlAqs.Statistics.StatisticsCore
