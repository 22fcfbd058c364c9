import Fimbulwinter.UnstableErase
import Fimbulwinter.DenseTable
import Fimbulwinter.HeapVector
import Fimbulwinter.LoaderState
import Fimbulwinter.LoaderLoads
import Fimbulwinter.LoaderFiles
import Fimbulwinter.LoaderMessages
import Fimbulwinter.LoaderSystem
import Fimbulwinter.LoaderFrames
import Fimbulwinter.DelayedMessages
import Fimbulwinter.TagLifeCycle
import Fimbulwinter.LookupTable
import Fimbulwinter.LookupOverflow
import Fimbulwinter.Collection
import Fimbulwinter.CollectionRuns
import Fimbulwinter.MultiCollection
import Fimbulwinter.TransitionRuns
import Fimbulwinter.ObjectStorage
import Fimbulwinter.ExchangeQueue
import Fimbulwinter.Fragmentation
import Fimbulwinter.RingBuffer
import Fimbulwinter.SimpleQueue
import Fimbulwinter.PageQueue
import Fimbulwinter.PageQueueCalls
import Fimbulwinter.PageQueueRuns
import Fimbulwinter.JsonStructurer
import Fimbulwinter.JsonGrammar
import Fimbulwinter.JsonAcceptance
import Fimbulwinter.JsonTruncation
import Fimbulwinter.MultiCollectionRuns
import Fimbulwinter.Regex
import Fimbulwinter.RegexMatches
import Fimbulwinter.Scheduler
import Fimbulwinter.DirectoryRegistry
import Fimbulwinter.SharedPointer
import Fimbulwinter.SharedPointerRuns
import Fimbulwinter.DynamicStorage
import Fimbulwinter.Vector
import Fimbulwinter.VectorContents
import Fimbulwinter.VectorRuns
import Fimbulwinter.VectorLifetimes
import Fimbulwinter.WatchRegistry
import Fimbulwinter.WatchRegistryRuns
import Fimbulwinter.ChangeDelivery
import Fimbulwinter.ChangeDeliveryRuns
import Fimbulwinter.IniStructurer
import Fimbulwinter.IniGrammar
import Fimbulwinter.IniAcceptance
import Fimbulwinter.IniSerializer
import Fimbulwinter.IniBounds
import Fimbulwinter.EntityEnum
import Fimbulwinter.Physics
import Fimbulwinter.FailedRequests
import Fimbulwinter.Mixer
import Fimbulwinter.KeyedList
import Fimbulwinter.InputDevices
import Fimbulwinter.HidUi
import Fimbulwinter.HidFilters
import Fimbulwinter.HidDispatch
import Fimbulwinter.LoaderCascade
import Fimbulwinter.LoaderMoves
import Fimbulwinter.LoaderReads
import Fimbulwinter.RendererTables
import Fimbulwinter.ViewerDisplays
import Fimbulwinter.JsonSerializer
import Fimbulwinter.VectorInsert
import Fimbulwinter.FreeSlots
import Fimbulwinter.RegexFind
import Fimbulwinter.TextScan
import Fimbulwinter.FilePath
import Fimbulwinter.FileListing
import Fimbulwinter.Console
import Fimbulwinter.JsonBounds
import Fimbulwinter.JsonPositions
import Fimbulwinter.JsonBuffer
import Fimbulwinter.LookupPlacement
import Fimbulwinter.UnorderedCollection
import Fimbulwinter.AxisScaling
import Fimbulwinter.CheckedMultiplication
import Fimbulwinter.ObjectFrames
import Fimbulwinter.OptionalComparisons
import Fimbulwinter.OptionalLifetimes
import Fimbulwinter.UniquePointer
import Fimbulwinter.ScalarBuffer
import Fimbulwinter.VariantLifetimes
import Fimbulwinter.AnyOwnership
import Fimbulwinter.SerialLayout
import Fimbulwinter.AggregationLayout
import Fimbulwinter.ArrayResize
import Fimbulwinter.Reservations
import Fimbulwinter.SkeletonPlayback
import Fimbulwinter.ViewportTiling
import Fimbulwinter.ExactArithmetic
import Fimbulwinter.Rotations
import Fimbulwinter.Decomposition
import Fimbulwinter.CameraMatrices
import Fimbulwinter.Planes
import Fimbulwinter.GlyphAtlas
import Fimbulwinter.GlyphDrawing
import Fimbulwinter.UniformScan
import Fimbulwinter.Crc32
import Fimbulwinter.MatrixLayout
import Fimbulwinter.RemovePartition
import Fimbulwinter.JsonStrings
import Fimbulwinter.PowerOfTwo
import Fimbulwinter.HardwareEvents
import Fimbulwinter.PngRows
import Fimbulwinter.EntityPicking
import Fimbulwinter.Events
import Fimbulwinter.Views
import Fimbulwinter.ViewRefreshing
import Fimbulwinter.ViewUpdating
import Fimbulwinter.ViewFrames
import Fimbulwinter.ViewGeometry
import Fimbulwinter.ViewTabs
import Fimbulwinter.TokenTable
import Fimbulwinter.DataNodes
import Fimbulwinter.Reactions
import Fimbulwinter.ReactionUpdates
