import Yap.Base.Binary64
import Yap.Base.Lex
import Yap.Base.IntDivision
import Yap.Base.Backtrack
import Yap.Base.Preorder
import Yap.Base.Machine
import Yap.Base.BinaryHeap
import Yap.Terms.Tags
import Yap.Terms.Term
import Yap.Arith.Gmp
import Yap.Arith.Binary
import Yap.Arith.Value
import Yap.Arith.Exact
import Yap.Arith.Division
import Yap.Arith.Compare
import Yap.Arith.Power
import Yap.Arith.Shift
import Yap.Arith.Gcd
import Yap.Arith.Bits
import Yap.Arith.Unary
import Yap.Arith.Overflow
import Yap.Compare.Code
import Yap.Compare.Order
import Yap.Compare.Loop
import Yap.Compare.Cells
import Yap.Compare.Standard
import Yap.Compare.Integers
import Yap.Compare.Compound
import Yap.Compare.Levels
import Yap.Globals.Arena
import Yap.Globals.NbHeap
import Yap.Heap.Store
import Yap.Heap.Unfold
import Yap.Unify.Code
import Yap.Unify.Moves
import Yap.Unify.Turns
import Yap.Unify.Solutions
import Yap.Unify.Walk
import Yap.Unify.Extension
import Yap.Unify.Correct
import Yap.Unify.Constant
import Yap.Base.Recursion
import Yap.Base.InfTree
import Yap.Unify.Trees
import Yap.Unify.Descents
import Yap.Unify.Unifiable
import Yap.Arith.Eval
import Yap.Arith.EvalEnds
import Yap.OccursCheck.Code
import Yap.OccursCheck.Tree
import Yap.OccursCheck.Marks
import Yap.TermHash.Code
import Yap.TermHash.Restore
import Yap.TermHash.Copies
import Yap.TermHash.Hash
import Yap.TermVisit.Code
import Yap.TermVisit.Events
import Yap.TermVisit.Run
import Yap.TermVisit.Steps
import Yap.TermVisit.Paths
import Yap.TermVisit.Cyclic
import Yap.TermVisit.Singletons
import Yap.TermVisit.Variables
import Yap.TermVisit.Agreement
import Yap.OccursCheck.Links
import Yap.OccursCheck.Detect
import Yap.OccursCheck.Run
import Yap.OccursCheck.Correct
import Yap.Text.Utf8
import Yap.Text.Write
import Yap.Text.Scan
import Yap.Text.Escapes
import Yap.Text.Quoted
import Yap.Text.Plain
import Yap.Text.RoundTrip
import Yap.Text.Lists
import Yap.Text.Splice
import Yap.Text.CaseConversion
import Yap.Text.Concat
import Yap.Text.SubAtom
import Yap.Text.Compare
import Yap.Text.StringCode
import Yap.Text.Decompose
import Yap.Text.Occurrences
import Yap.Parse.Tokens
import Yap.Parse.Code
import Yap.Parse.Sound
import Yap.Arith.Between
import Yap.Base.Trail
import Yap.Attributes.Code
import Yap.Attributes.Chain
import Yap.Attributes.Map
import Yap.Attributes.Correct
import Yap.Globals.NbBeam
import Yap.Globals.NbQueue
import Yap.Globals.Removals
import Yap.Library.Avl
import Yap.Base.Assoc
import Yap.Library.Rbtrees.Tree
import Yap.Library.Rbtrees.Check
import Yap.Library.Rbtrees.Insert
import Yap.Library.Rbtrees.Delete
import Yap.Library.Heaps
import Yap.Library.Ordsets
import Yap.Library.Ordsets.Operations
import Yap.Library.Ugraphs.Graph
import Yap.Library.Ugraphs.Update
import Yap.Base.Closure
import Yap.Base.Cycles
import Yap.Library.Ugraphs.Relations
import Yap.Library.Rbtrees.Maps
import Yap.Library.Dgraphs.Update
import Yap.Library.Dgraphs.Delete
import Yap.Library.Dgraphs.Operations
import Yap.Library.Dgraphs.Relations
import Yap.Base.Fueled
import Yap.Library.Ugraphs.Reachable
import Yap.Library.Ugraphs.TopSort
import Yap.Library.Queues
import Yap.Library.Bhash.Code
import Yap.Library.Bhash.Invariant
import Yap.Library.Bhash.Correct
import Yap.Base.BestFirst
import Yap.Library.Wdgraphs.Paths
import Yap.Library.Wdgraphs.Update
import Yap.Library.Wdgraphs.Graph
import Yap.Library.Wdgraphs.Additions
import Yap.Library.Wdgraphs.Operations
import Yap.Base.Greedy
import Yap.Library.Wdgraphs.Trees
import Yap.Base.StableSort
import Yap.Base.Lanes
import Yap.Base.MixedRadix
import Yap.Sorting.Code
import Yap.Sorting.MergeSort
import Yap.Sorting.Correct
import Yap.Library.Matrix
import Yap.Library.Rltree.Code
import Yap.Library.Rltree.Tree
import Yap.Library.Rltree.Array
import Yap.Library.Rltree.Update
import Yap.Library.Rltree.Insert
import Yap.Library.Rltree.Runs
import Yap.Library.Rltree.Next
import Yap.Library.Splay
import Yap.Library.Tries.Code
import Yap.Library.Tries.Words
import Yap.Library.Tries.Variants
import Yap.Library.Tries.Read
import Yap.Library.Tries.Correct
import Yap.Library.Tries.Represents
import Yap.Base.Strides
import Yap.Exo.Code
import Yap.Exo.Build
import Yap.Base.Brent
import Yap.Heap.SkipList
import Yap.Mutables.Code
import Yap.Mutables.Runs
import Yap.Index.Boxes
import Yap.Index.Keys
import Yap.Numbervars.Code
import Yap.Numbervars.Visits
import Yap.Numbervars.Stages
import Yap.Numbervars.Walk
import Yap.Numbervars.Passes
import Yap.Numbervars.Copies
import Yap.Numbervars.Variants
import Yap.Numbervars.Correct
import Yap.Arith.Rounding
import Yap.Signals.Code
import Yap.Signals.Pending
import Yap.Library.Rbtrees.Neighbours
import Yap.Library.Rbtrees.Values
import Yap.Base.Doubles
import Yap.Library.Rbtrees.Ordered
import Yap.Base.Variables
import Yap.Library.Dgraphs.TopSort
import Yap.Library.Dgraphs.Queue
import Yap.Library.Dgraphs.Search
import Yap.Base.OpenAddressing
import Yap.Index.Clauses
import Yap.Index.SortGroup
import Yap.Index.SwitchTables
import Yap.Index.Probes
import Yap.Index.Dispatch
import Yap.Index.Switches
import Yap.Index.Generation
import Yap.Tabling.AnswerTrie
import Yap.Tabling.Shape
import Yap.Tabling.Insertions
import Yap.Tabling.Loop
import Yap.Tabling.Grammar
import Yap.Tabling.Compiled
import Yap.Base.Control
import Yap.Base.Control
import Yap.Grammar.Code
import Yap.Grammar.Threads
import Yap.Grammar.Meaning
import Yap.Grammar.Tidy
