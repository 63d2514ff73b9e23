import Camel.Alloc.Run
import Camel.Array.Compact
import Camel.Array.Names
import Camel.Array.References
import Camel.Array.Slots
import Camel.Autodiff.TangentLaws
import Camel.Collection.Refine
import Camel.Draft.Cycle
import Camel.Draft.OrderKept
import Camel.FastVM.Origins
import Camel.FastVM.Scan
import Camel.FastVM.Units
import Camel.Heap.Run
import Camel.Index.EntryChecks
import Camel.Index.Scatter
import Camel.Index.SliceInstance
import Camel.Index.Validate
import Camel.Jit.DeadStores
import Camel.Jit.EncodeSound
import Camel.Jit.SlotSound
import Camel.Literal.DecimalText
import Camel.Literal.Exact
import Camel.Loop.Kept
import Camel.Onnx.Graphs
import Camel.Random.Uniform
import Camel.Storage.Sound
import Camel.Syntax.Lossless
import Camel.Tensor.BroadcastStatic
import Camel.Tensor.ConvGradients
import Camel.Tensor.Matmul
import Camel.Tensor.NpyRoundTrip
import Camel.Tensor.PermuteInverse
import Camel.Tensor.PlainSequence
import Camel.Tensor.PoolGradient
import Camel.Tensor.PoolRuns
import Camel.Tensor.TakeGradient
import Camel.Text.ComplexText
import Camel.Text.Escape
import Camel.Text.HalfDigits
import Camel.Text.NumberToken
import Camel.Text.Wide
import Camel.Types.BindWalk
import Camel.Types.ExtentValues
import Camel.Types.Steps
