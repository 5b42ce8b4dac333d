import DemandPlan.Planner
import DemandPlan.Operation.Declaration
import DemandPlan.Proofs.Agreement
import DemandPlan.Proofs.Coherence
import DemandPlan.Proofs.Compilation
import DemandPlan.Proofs.Concurrent
import DemandPlan.Proofs.Cycle
import DemandPlan.Proofs.Declarations
import DemandPlan.Proofs.Evaluation
import DemandPlan.Proofs.FanOut
import DemandPlan.Proofs.Interleaving
import DemandPlan.Proofs.Json
import DemandPlan.Proofs.KeptPlans
import DemandPlan.Proofs.Layout
import DemandPlan.Proofs.Linking
import DemandPlan.Proofs.Meaning
import DemandPlan.Proofs.Names
import DemandPlan.Proofs.Outcome
import DemandPlan.Proofs.Plan
import DemandPlan.Proofs.Query
import DemandPlan.Proofs.Record
import DemandPlan.Proofs.Relinking
import DemandPlan.Proofs.Requests
import DemandPlan.Proofs.Requirements
import DemandPlan.Proofs.Run
import DemandPlan.Proofs.Schedule
import DemandPlan.Proofs.Session
import DemandPlan.Proofs.Shapes
import DemandPlan.Proofs.Sharing
import DemandPlan.Proofs.Table
import DemandPlan.Proofs.Token
import DemandPlan.Proofs.Transparency
import DemandPlan.Proofs.Waiting
import DemandPlan.Proofs.PlanKeys
import DemandPlan.Proofs.Detection
import DemandPlan.Proofs.Registration
import DemandPlan.Proofs.MissingInputs
import DemandPlan.Proofs.Pruning
import DemandPlan.Proofs.Course
import DemandPlan.Proofs.Body
import DemandPlan.Proofs.Identity
import DemandPlan.Proofs.Supply
import DemandPlan.Proofs.Union
import DemandPlan.Proofs.Walk
import DemandPlan.Proofs.Layering
import DemandPlan.Proofs.Search
import DemandPlan.Proofs.Joining
import DemandPlan.Proofs.Linkage
import DemandPlan.Proofs.Assignment
import DemandPlan.Proofs.History
import DemandPlan.Proofs.Memo
import DemandPlan.Proofs.MissingArguments
import DemandPlan.Proofs.Rounding
import DemandPlan.Proofs.Spelling
