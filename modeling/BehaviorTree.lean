import BehaviorTree.Json.Codec
import BehaviorTree.Library.Node
import BehaviorTree.Library.Scripted
import BehaviorTree.Tree.Host
import BehaviorTree.Proofs.World.Frame
import BehaviorTree.Proofs.World.Happening
import BehaviorTree.Proofs.World.Since
import BehaviorTree.Proofs.Graph.Built
import BehaviorTree.Proofs.Graph.Placement
import BehaviorTree.Proofs.Library.Children
import BehaviorTree.Proofs.Stack.Act
import BehaviorTree.Proofs.Tree.Layout
import BehaviorTree.Proofs.Tree.Orderly
import BehaviorTree.Proofs.Tree.Settled
import BehaviorTree.Proofs.Tree.Calls
import BehaviorTree.Proofs.Tree.Exclusive
import BehaviorTree.Proofs.Tree.Registration
import BehaviorTree.Proofs.Stack.Path
import BehaviorTree.Proofs.Stack.Sound
import BehaviorTree.Proofs.Stack.Reachable
import BehaviorTree.Proofs.World.Local
import BehaviorTree.Proofs.Stack.Leads
import BehaviorTree.Proofs.Flow.Meaning
import BehaviorTree.Proofs.Flow.Like
import BehaviorTree.Proofs.Flow.Agreement
import BehaviorTree.Proofs.Flow.Simulation
import BehaviorTree.Proofs.Flow.Composites
import BehaviorTree.Proofs.Flow.Loops
import BehaviorTree.Proofs.Flow.Refinement
import BehaviorTree.Proofs.Tree.Steps
import BehaviorTree.Proofs.Tree.Walk
import BehaviorTree.Proofs.Stack.Stops
import BehaviorTree.Proofs.Tree.Stops
import BehaviorTree.Proofs.Stack.Replay
import BehaviorTree.Proofs.Tree.StackChanges
import BehaviorTree.Proofs.Tree.Replay
import BehaviorTree.Proofs.Stack.Breaches
import BehaviorTree.Proofs.Tree.Rooted
import BehaviorTree.Proofs.Tree.Homes
import BehaviorTree.Proofs.Tree.Breaches
import BehaviorTree.Proofs.World.Tokens
import BehaviorTree.Proofs.Tree.Tokens
import BehaviorTree.Proofs.Blackboard.Types
import BehaviorTree.Proofs.World.Lives
import BehaviorTree.Proofs.World.Obedient
import BehaviorTree.Proofs.Library.Obedient
import BehaviorTree.Proofs.Stack.Obedient
import BehaviorTree.Proofs.Tree.Obedient
import BehaviorTree.Proofs.World.Engaged
import BehaviorTree.Proofs.Tree.EngagedActive
import BehaviorTree.Proofs.Tree.Shutdown
import BehaviorTree.Proofs.World.Same
import BehaviorTree.Proofs.World.Written
import BehaviorTree.Proofs.Stack.Transparent
import BehaviorTree.Proofs.Stack.Marks
import BehaviorTree.Proofs.Stack.Brackets
import BehaviorTree.Proofs.Stack.Held
import BehaviorTree.Proofs.Tree.GuardedRuns
import BehaviorTree.Proofs.Tree.Events
import BehaviorTree.Proofs.Tree.Stepping
import BehaviorTree.Proofs.World.Agenda
import BehaviorTree.Proofs.Stack.Lasting
import BehaviorTree.Proofs.Tree.Deferred
import BehaviorTree.Proofs.Tree.Departed
import BehaviorTree.Proofs.Tree.Paused
import BehaviorTree.Proofs.World.Forgetful
import BehaviorTree.Proofs.Library.Forgetful
import BehaviorTree.Proofs.World.Afresh
import BehaviorTree.Proofs.Stack.Afresh
import BehaviorTree.Proofs.Stack.Settings
import BehaviorTree.Proofs.Tree.Afresh
import BehaviorTree.Proofs.Tree.Lives
import BehaviorTree.Proofs.Tree.Restart
import BehaviorTree.Proofs.World.Traced
import BehaviorTree.Proofs.Stack.Traced
import BehaviorTree.Proofs.Stack.Suspensions
import BehaviorTree.Proofs.Tree.Motions
import BehaviorTree.Proofs.Tree.Traced
import BehaviorTree.Proofs.Tree.Suspensions
import BehaviorTree.Proofs.Tree.Reports
import BehaviorTree.Proofs.Graph.Alone
import BehaviorTree.Proofs.World.SameFor
import BehaviorTree.Proofs.Stack.SameFor
import BehaviorTree.Proofs.Library.Still
import BehaviorTree.Proofs.Tree.SameFor
import BehaviorTree.Proofs.Tree.Undisturbed
import BehaviorTree.Proofs.World.Unread
import BehaviorTree.Proofs.Stack.Unread
import BehaviorTree.Proofs.Stack.Written
import BehaviorTree.Proofs.Tree.Written
import BehaviorTree.Proofs.Tree.Rounds
import BehaviorTree.Proofs.Tree.Alternation
import BehaviorTree.Proofs.Tree.Starts
import BehaviorTree.Proofs.World.Bound
import BehaviorTree.Proofs.Stack.Bound
import BehaviorTree.Proofs.Stack.Parked
import BehaviorTree.Proofs.Stack.Resume
import BehaviorTree.Proofs.Tree.Running
import BehaviorTree.Proofs.Tree.Parked
import BehaviorTree.Proofs.Stack.Outcomes
import BehaviorTree.Proofs.Tree.Outcomes
import BehaviorTree.Proofs.Tree.Unread
import BehaviorTree.Proofs.Tree.Refused
import BehaviorTree.Proofs.Blackboard.Edits
import BehaviorTree.Proofs.Blackboard.References
import BehaviorTree.Proofs.Stack.Enlisted
import BehaviorTree.Proofs.Stack.Lineage
import BehaviorTree.Proofs.Tree.Lineage
import BehaviorTree.Proofs.Stack.Refusals
import BehaviorTree.Proofs.Tree.Draining
import BehaviorTree.Proofs.World.Picked
import BehaviorTree.Proofs.Stack.Pauses
import BehaviorTree.Proofs.Library.Background
import BehaviorTree.Proofs.Tree.Tenures
import BehaviorTree.Proofs.Stack.Background
import BehaviorTree.Proofs.Tree.Schedules
import BehaviorTree.Proofs.Tree.Intervals
import BehaviorTree.Proofs.Graph.Validity
import BehaviorTree.Proofs.Schedule.Fates
import BehaviorTree.Proofs.Blackboard.Conversion
import BehaviorTree.Proofs.Library.Copy
import BehaviorTree.Proofs.Stack.Visits
import BehaviorTree.Proofs.Stack.Faults
