import Hypersdk.Foundations.Overlay
import Hypersdk.Foundations.Serial
import Hypersdk.Foundations.BigEndian
import Hypersdk.State.Keys
import Hypersdk.Tstate.View
import Hypersdk.Tstate.Journal
import Hypersdk.Tstate.Scope
import Hypersdk.Tstate.Rollback
import Hypersdk.Tstate.Refinement
import Hypersdk.Foundations.Checked
import Hypersdk.Math.Uint64
import Hypersdk.Window.Window
import Hypersdk.Fees.Manager
import Hypersdk.Fees.Price
import Hypersdk.Chain.Dependencies
import Hypersdk.Chain.Transaction
import Hypersdk.Chain.Builder
import Hypersdk.Foundations.System
import Hypersdk.Workers.Parallel
import Hypersdk.Codec.Packer
import Hypersdk.Chain.Unmarshal
import Hypersdk.Chain.Result
import Hypersdk.Chain.Block
import Hypersdk.Chain.Sign
import Hypersdk.Typescriptvm.Actions
import Hypersdk.Typescriptvm.Codec
import Hypersdk.Tstate.Mutable
import Hypersdk.Chain.Execute
import Hypersdk.Chain.Atomic
import Hypersdk.Chain.Estimate
import Hypersdk.Tokenvm.Storage
import Hypersdk.Tokenvm.Actions
import Hypersdk.Tokenvm.Conservation
import Hypersdk.Tokenvm.Orderbook
import Hypersdk.Tokenvm.OrderActions
import Hypersdk.Foundations.BinaryHeap
import Hypersdk.Heap.Heap
import Hypersdk.Eheap.Eheap
import Hypersdk.List.List
import Hypersdk.Mempool.Mempool
import Hypersdk.Mempool.Invariant
import Hypersdk.Mempool.Order
import Hypersdk.Emap.Emap
import Hypersdk.Emap.Impl
import Hypersdk.Vm.Replay
import Hypersdk.Executor.Executor
import Hypersdk.Executor.Ordering
import Hypersdk.Executor.Process
import Hypersdk.Fetcher.Fetcher
import Hypersdk.Fetcher.Invariant
import Hypersdk.Fetcher.Run
import Hypersdk.Pubsub.MessageBuffer
import Hypersdk.Programs.Serialization
import Hypersdk.Tstate.Program
