import Ramen.Ringbuf.Channel
import Ramen.Ringbuf.Lock
import Ramen.Ser.RoundTrip
import Ramen.Ser.Bounds
import Ramen.Ser.Truncate
import Ramen.Graph.View
