import Matcha.Buffer
import Matcha.Codec.Tlv
import Matcha.Peer.Reader
import Matcha.Codec.Apollo
import Matcha.Peer.Pipeline
import Matcha.Peer.Lifecycle
import Matcha.Peer.Delivery
import Matcha.Peer.Shutdown
import Matcha.Peer.Outbound
import Matcha.Util.Set
import Matcha.Peer.Ack
import Matcha.Bind.Acceptor
import Matcha.Tcp.Client
import Matcha.Peer.States
import Matcha.Tcp.Server
import Matcha.Codec.String
import Matcha.Util.BitSet
import Matcha.Task.Corn
import Matcha.Task.CornFields
import Matcha.Util.Url
import Matcha.Task.Scheduler
import Matcha.Task.Ticker
import Matcha.Misc.Property
import Matcha.Parallel.Goroutine
