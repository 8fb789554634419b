import Forstio.RingFifo
import Forstio.ArrayBuffer
import Forstio.DecodeExact
import Forstio.EncodeExact
import Forstio.Layout
import Forstio.Transaction
import Forstio.Chunks
import Forstio.Malformed
import Forstio.PacketFifo
import Forstio.IoPeer
import Forstio.EventQueue
import Forstio.ChainTake
import Forstio.Growth
import Forstio.Instant
import Forstio.MergeCautious
import Forstio.IoSend
import Forstio.AsyncIo
import Forstio.RingAdvance
import Forstio.TlsStream
import Forstio.UnixServer
import Forstio.Reader
import Forstio.Backpressure
import Forstio.SinkErrors
import Forstio.CriticalEnds
import Forstio.RingSegments
import Forstio.Daemon
import Forstio.Link
import Forstio.UnixPoll
import Forstio.UnixSignals
import Forstio.Builder
import Forstio.GraphWorld
