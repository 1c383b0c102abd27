import Rail.Foundation.ByteFile
import Rail.Delta.Checksum
import Rail.Delta.Signature
import Rail.Delta.Differ
import Rail.Delta.Reconstruct
import Rail.Foundation.Runs
import Rail.Fuse.Handle
import Rail.Fuse.Flush
import Rail.Fuse.Landing
import Rail.Fuse.Settling
import Rail.Foundation.Overlay
import Rail.Fuse.Handles
import Rail.Foundation.Names
import Rail.Fuse.Naming
import Rail.Memory.Window
import Rail.Fuse.Reply
import Rail.Foundation.Links
import Rail.Fs.SafePath
import Rail.Nfs.Gateway
import Rail.Nfs.Coherence
import Rail.Kernel.Attributes
import Rail.Kernel.Pool
import Rail.Kernel.Dentries
import Rail.Kernel.Readahead
import Rail.Kernel.Lines
import Rail.Kernel.Direct
import Rail.Proto.Frame
import Rail.Kernel.Replies
import Rail.Client.Exchange
import Rail.Transport.Quiescence
import Rail.Foundation.Bitmap
import Rail.Memory.PagePool
import Rail.Memory.Regions
import Rail.Delta.Bounds
import Rail.Delta.Sizing
import Rail.Client.Keys
import Rail.Kernel.Calls
import Rail.Transport.Closing
import Rail.Client.Receiving
import Rail.Client.Streaming
import Rail.Client.Ranged
import Rail.Transport.RdmaChannel
import Rail.Transport.Offers
import Rail.Transport.Pairing
import Rail.Foundation.Chains
import Rail.Fuse.Inodes
import Rail.Foundation.TextMap
import Rail.Nfs.Handles
import Rail.Nfs.Xdr
import Rail.Nfs.Rpc
import Rail.Foundation.Lexical
import Rail.Nfs.Confinement
import Rail.Delta.Tally
import Rail.Foundation.Duplex
import Rail.Session.InStep
import Rail.Foundation.Coroutine
import Rail.Transfer.Io
import Rail.Transfer.Landing
import Rail.Transfer.PageSender
import Rail.Transfer.PageReceiver
import Rail.Transfer.Fetch
import Rail.Transfer.Receive
import Rail.Transfer.Replacing
import Rail.Transfer.Push
import Rail.Transfer.Windows
import Rail.Transfer.Quiet
import Rail.Delta.Progress
import Rail.Delta.Unchanged
import Rail.Delta.Compared
import Rail.App.Filter
import Rail.Io.Turn
