import TeamyBend.Base.Arithmetic
import TeamyBend.Base.Array
import TeamyBend.Base.DecimalText
import TeamyBend.Base.Map
import TeamyBend.Base.Numerals
import TeamyBend.Base.Operations
import TeamyBend.Base.Sort
import TeamyBend.Base.Text
import TeamyBend.Base.Word
import TeamyBend.Compiler.GpuMarks
import TeamyBend.Compiler.GpuSegments
import TeamyBend.Compiler.JavaScriptLossless
import TeamyBend.Compiler.JavaScriptValues
import TeamyBend.Compiler.Layout
import TeamyBend.Compiler.LayoutWords
import TeamyBend.Compiler.NativeC
import TeamyBend.Compiler.Replacement
import TeamyBend.Compiler.Specialization
import TeamyBend.Compiler.StableLayout
import TeamyBend.Kernel.Acceptance
import TeamyBend.Kernel.Book
import TeamyBend.Kernel.Check
import TeamyBend.Kernel.Comparing
import TeamyBend.Kernel.Copies
import TeamyBend.Kernel.Coverage
import TeamyBend.Kernel.Descend
import TeamyBend.Kernel.Engine
import TeamyBend.Kernel.Error
import TeamyBend.Kernel.Head
import TeamyBend.Kernel.Keeps
import TeamyBend.Kernel.Nameless
import TeamyBend.Kernel.Names
import TeamyBend.Kernel.Normalize
import TeamyBend.Kernel.Quantity
import TeamyBend.Kernel.Reduce
import TeamyBend.Kernel.Renaming
import TeamyBend.Kernel.Resources
import TeamyBend.Kernel.Rules
import TeamyBend.Kernel.Sound
import TeamyBend.Kernel.Substitution
import TeamyBend.Kernel.Term
import TeamyBend.Kernel.Usage
import TeamyBend.Library.BinaryFormat
import TeamyBend.Library.BoundedChannel
import TeamyBend.Library.Counted
import TeamyBend.Library.CritBit
import TeamyBend.Library.Delimited
import TeamyBend.Library.Finishes
import TeamyBend.Library.Handles
import TeamyBend.Library.LazyNat
import TeamyBend.Library.Ledger
import TeamyBend.Library.LinkedList
import TeamyBend.Library.Meets
import TeamyBend.Library.Mirrors
import TeamyBend.Library.NestedText
import TeamyBend.Library.Occurrences
import TeamyBend.Library.Outcomes
import TeamyBend.Library.RingBuffer
import TeamyBend.Library.Tiling
import TeamyBend.Library.TwoRuns
import TeamyBend.Library.Worklist
import TeamyBend.Protocol.Framing
import TeamyBend.Runtime.AdoptionChecks
import TeamyBend.Runtime.AdoptionSafety
import TeamyBend.Runtime.AdoptionTree
import TeamyBend.Runtime.BlockHeap
import TeamyBend.Runtime.CallStack
import TeamyBend.Runtime.ChannelAgreement
import TeamyBend.Runtime.ChannelRings
import TeamyBend.Runtime.Channels
import TeamyBend.Runtime.ChannelsFifo
import TeamyBend.Runtime.ChannelsMap
import TeamyBend.Runtime.ChannelsTable
import TeamyBend.Runtime.ChannelsWaiting
import TeamyBend.Runtime.Collection
import TeamyBend.Runtime.CollectionExact
import TeamyBend.Runtime.CompactNaturals
import TeamyBend.Runtime.Conservation
import TeamyBend.Runtime.Driver
import TeamyBend.Runtime.Evaluation
import TeamyBend.Runtime.FileLeases
import TeamyBend.Runtime.FileTable
import TeamyBend.Runtime.Force
import TeamyBend.Runtime.HeapAccess
import TeamyBend.Runtime.HeapBundles
import TeamyBend.Runtime.HeapDraws
import TeamyBend.Runtime.HeapPartition
import TeamyBend.Runtime.HeapRuns
import TeamyBend.Runtime.HeapTickets
import TeamyBend.Runtime.HeapWords
import TeamyBend.Runtime.HostCompletions
import TeamyBend.Runtime.HostLeases
import TeamyBend.Runtime.HostPool
import TeamyBend.Runtime.IoLoop
import TeamyBend.Runtime.IoPlaces
import TeamyBend.Runtime.NativeCalls
import TeamyBend.Runtime.NativeConstruct
import TeamyBend.Runtime.NativeDrop
import TeamyBend.Runtime.NativeOwnership
import TeamyBend.Runtime.NativeRuns
import TeamyBend.Runtime.NativeText
import TeamyBend.Runtime.NativeValues
import TeamyBend.Runtime.NaturalMeanings
import TeamyBend.Runtime.Naturals
import TeamyBend.Runtime.NetworkDesk
import TeamyBend.Runtime.NetworkOwnership
import TeamyBend.Runtime.Numeric
import TeamyBend.Runtime.NumericCalls
import TeamyBend.Runtime.NumericText
import TeamyBend.Runtime.OptimizationGate
import TeamyBend.Runtime.ParkedFrames
import TeamyBend.Runtime.References
import TeamyBend.Runtime.RingWaiters
import TeamyBend.Runtime.RunReferences
import TeamyBend.Runtime.Scheduler
import TeamyBend.Runtime.Shape
import TeamyBend.Runtime.Suspension
import TeamyBend.Runtime.TailCalls
import TeamyBend.Runtime.TaskAdoption
import TeamyBend.Runtime.TaskRun
import TeamyBend.Runtime.Thunks
import TeamyBend.Runtime.WakeOrder
import TeamyBend.Syntax.Apart
import TeamyBend.Syntax.Columns
import TeamyBend.Syntax.FirstMatch
import TeamyBend.Syntax.Flatten
import TeamyBend.Syntax.ImportHeader
import TeamyBend.Syntax.Lexer
import TeamyBend.Syntax.Literals
import TeamyBend.Syntax.Meaning
import TeamyBend.Syntax.ModuleGraph
import TeamyBend.Syntax.ModuleLoader
import TeamyBend.Syntax.ModuleOrder
import TeamyBend.Syntax.ModuleTraversal
import TeamyBend.Syntax.RowMeaning
import TeamyBend.Syntax.Surface
import TeamyBend.Syntax.TemplateInstances
import TeamyBend.Syntax.TemplateKey
