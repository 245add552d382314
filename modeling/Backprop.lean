import Backprop.Datum.Json
import Backprop.Proofs.ActionLemmas
import Backprop.Proofs.TraversalSound
import Backprop.Report
import Backprop.Session
import Backprop.Proofs.SlotLemmas
import Backprop.Proofs.TurnSound
import Backprop.Proofs.MirrorSound
import Backprop.Proofs.Moments
import Backprop.Proofs.AccumulationSound
import Backprop.Proofs.SafetySound
import Backprop.Proofs.Denotation
import Backprop.Proofs.Recipe
import Backprop.Proofs.RecipeSound
import Backprop.Proofs.Calculus
import Backprop.Proofs.GradientSound
import Backprop.Proofs.Likeness
import Backprop.Proofs.MirrorNeutral
import Backprop.Proofs.CycleSound
import Backprop.Proofs.FrameSound
import Backprop.Proofs.Differentiable
import Backprop.Proofs.ClosureSound
import Backprop.Proofs.Relabelling
import Backprop.Proofs.SweepRelabelled
import Backprop.Proofs.StructureSound
import Backprop.Proofs.VisitSound
import Backprop.Proofs.TemporarySound
import Backprop.Proofs.SearchSound
import Backprop.Proofs.IsomorphismSound
import Backprop.Proofs.SeveranceSound
import Backprop.Proofs.DepthFirst
import Backprop.Proofs.ScheduleSound
import Backprop.Proofs.DiskSound
import Backprop.Proofs.SchemaSound
import Backprop.Proofs.RoundTripSound
import Backprop.Proofs.AggregateSound
import Backprop.Proofs.FailureSound
import Backprop.Proofs.MirrorMapSound
import Backprop.Proofs.SizeSound
import Backprop.Proofs.RequestSound
import Backprop.Proofs.FormSound
import Backprop.Proofs.MishapSound
import Backprop.Proofs.HistorySound
import Backprop.Proofs.AritySound
import Backprop.Proofs.DiscoverySound
import Backprop.Proofs.FillingSound
import Backprop.Proofs.PathSound
import Backprop.Proofs.NameSound
