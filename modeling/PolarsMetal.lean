import PolarsMetal.GroupBy.FloatKeys
import PolarsMetal.GroupBy.GroupOrder
import PolarsMetal.GroupBy.AggAgreement
import PolarsMetal.Fusion.Faithful
import PolarsMetal.Fusion.StagingSpec
import PolarsMetal.Router.Agreement
import PolarsMetal.Filter.CompactionSpec
import PolarsMetal.GroupBy.SortReference
import PolarsMetal.GroupBy.ScatterSpec
import PolarsMetal.GroupBy.RadixLaneSpec
import PolarsMetal.Rolling.Locality
import PolarsMetal.GroupBy.PipelineCache
import PolarsMetal.GroupBy.Bindings
import PolarsMetal.GroupBy.Means
import PolarsMetal.Wire.StringKeys
import PolarsMetal.Lowering.SortSpec
import PolarsMetal.Lowering.NullDrop
import PolarsMetal.Lowering.NullFree
import PolarsMetal.Lowering.JoinGatherSpec
import PolarsMetal.Lowering.SelectReductionSpec
import PolarsMetal.Verbs.Compose
import PolarsMetal.Filter.PredicateSpec
import PolarsMetal.Lib.Barriers
import PolarsMetal.Lib.Extended
import PolarsMetal.Rolling.Kernel
import PolarsMetal.Rolling.KernelSpec
import PolarsMetal.Arena.Bump
import PolarsMetal.Lib.JsonText
import PolarsMetal.Lowering.DenseKey
import PolarsMetal.Verbs.BracketSlice
import PolarsMetal.Dt.Gregorian
import PolarsMetal.GroupBy.CpuAggregates
import PolarsMetal.Filter.NativeFilterSpec
import PolarsMetal.Filter.CmpF64
import PolarsMetal.Udf.ExecuteSpec
import PolarsMetal.Vector.Tiling
import PolarsMetal.Dtw.Banded
import PolarsMetal.Fft.Bluestein
import PolarsMetal.Fft.MixedRadix
import PolarsMetal.Fft.Binding
import PolarsMetal.GroupBy.FloatAggregatesSpec
import PolarsMetal.GroupBy.PipelineSpec
import PolarsMetal.GroupBy.CpuFloats
import PolarsMetal.GroupBy.Pipeline
