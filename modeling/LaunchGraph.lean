import LaunchGraph.Json.Codec
import LaunchGraph.Graph.Listing
import LaunchGraph.Proofs.Construction
import LaunchGraph.Proofs.FusionOrder
import LaunchGraph.Proofs.Schedule
import LaunchGraph.Proofs.Graph.Delete
import LaunchGraph.Proofs.Graph.Order
import LaunchGraph.Proofs.Graph.Execute
import LaunchGraph.Proofs.Graph.Verify
import LaunchGraph.Proofs.Pass.DeadStores
import LaunchGraph.Proofs.Pass.Demotion
import LaunchGraph.Proofs.Pass.Listgen
import LaunchGraph.Proofs.Graph.Redirect
import LaunchGraph.Proofs.Graph.Window
import LaunchGraph.Proofs.Pass.Grouping
import LaunchGraph.Proofs.Pass.Fusing
import LaunchGraph.Proofs.Pass.Fusion
import LaunchGraph.Proofs.FusionLegality
import LaunchGraph.Proofs.Graph.Lists
import LaunchGraph.Proofs.ListCurrency
import LaunchGraph.Proofs.Accounts
import LaunchGraph.Proofs.Pass.Survivors
import LaunchGraph.Proofs.ReadSources
import LaunchGraph.Proofs.Rollback
import LaunchGraph.Proofs.FromScratch
import LaunchGraph.Proofs.Hazards
import LaunchGraph.Proofs.Transparency
import LaunchGraph.Proofs.Conservation
import LaunchGraph.Proofs.ListReuse
import LaunchGraph.Proofs.Fixpoint
import LaunchGraph.Proofs.StoreElimination
import LaunchGraph.Proofs.Demotions
import LaunchGraph.Proofs.Graph.SmallestFirst
import LaunchGraph.Proofs.Contraction
import LaunchGraph.Proofs.WindowReachability
import LaunchGraph.Proofs.Resumption
import LaunchGraph.Proofs.Redirection
import LaunchGraph.Proofs.Acyclicity
import LaunchGraph.Proofs.Graph.Countdown
import LaunchGraph.Proofs.TwoPhase
import LaunchGraph.Proofs.ListHistory
import LaunchGraph.Proofs.Drawing
import LaunchGraph.Proofs.Labels
import LaunchGraph.Proofs.PreviousWriters
