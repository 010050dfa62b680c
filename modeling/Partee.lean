import Partee.Transition.Run
import Partee.Transition.Tally
import Partee.Transition.Waiting
import Partee.Queue.Model
import Partee.Queue.Invariant
import Partee.Queue.StaleThief
import Partee.Runtime.Argument
import Partee.Runtime.Descriptor
import Partee.Runtime.State
import Partee.Runtime.Dependencies
import Partee.Runtime.Step
import Partee.Runtime.Move
import Partee.Runtime.Tokens
import Partee.Runtime.Family
import Partee.Runtime.Balance
import Partee.Runtime.Elements
import Partee.Runtime.Width
import Partee.Runtime.Rereads
import Partee.Runtime.Children
import Partee.Runtime.Scheduling
import Partee.Runtime.Progress
import Partee.Runtime.Follows
import Partee.Runtime.Visits
import Partee.Runtime.Coverage
import Partee.Runtime.Accesses
import Partee.Runtime.Hazards
import Partee.Runtime.Subtree
import Partee.Runtime.Lifetime
import Partee.Transition.Object
import Partee.Queue.Abstract
import Partee.Queue.Sequential
import Partee.Transition.Linearization
import Partee.Queue.Linearizable
import Partee.Stack.Model
import Partee.Stack.Invariant
import Partee.Runtime.BlockWalk
import Partee.Alloc.Balloc
import Partee.Runtime.Context
import Partee.Startup.Model
import Partee.Startup.Phases
import Partee.Startup.DequeLifetime
import Partee.Runtime.Conflicts
import Partee.Runtime.View
import Partee.Runtime.Spawn
import Partee.Runtime.OwnWaits
import Partee.Runtime.Lockstep
import Partee.Runtime.Separate
import Partee.Runtime.Found
import Partee.Runtime.ArgumentOrder
import Partee.Alloc.Grid
import Partee.Alloc.Trie
import Partee.Startup.Placement
import Partee.Region.RegionMap
import Partee.Memory.Lists
import Partee.Region.Pages
import Partee.Region.FreeLists
import Partee.Region.Counters
import Partee.Region.Exclusive
import Partee.Region.Conserve
import Partee.Region.Delete
import Partee.Region.Undisturbed
import Partee.Region.Reuse
import Partee.Transition.Reorder
import Partee.Runtime.SubtreeOrder
import Partee.Runtime.Position
import Partee.Runtime.Serial
import Partee.Transition.Ranking
import Partee.Runtime.Livelock
import Partee.Runtime.Completion
import Partee.Memory.Bytes
import Partee.Region.Heap
import Partee.Region.Grants
import Partee.Region.Ownership
import Partee.Region.Objects
import Partee.Region.Allocate
import Partee.Region.Arena
import Partee.Region.Contents
import Partee.Region.Forest
import Partee.Region.History
import Partee.Queue.Contract
import Partee.Runtime.Deques
import Partee.Runtime.OnDeques
