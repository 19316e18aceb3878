import TcpPubsub.Wire
import TcpPubsub.Send
import TcpPubsub.TransientLocal
import TcpPubsub.Publisher.Model
import TcpPubsub.Publisher.Trace
import TcpPubsub.Publisher.Sessions
import TcpPubsub.Publisher.FanOut
import TcpPubsub.Publisher.Replay
import TcpPubsub.Publisher.Ordering
import TcpPubsub.Publisher.Lifecycle
import TcpPubsub.Publisher.Running
