import Mcoap.Lib.Runs
import Mcoap.QueueRefine
import Mcoap.MessageWritten
import Mcoap.Receive
import Mcoap.Budget
import Mcoap.StaysInside
import Mcoap.OptionsRoundTrip
import Mcoap.OptionOrder
import Mcoap.UriRequests
import Mcoap.Confirmation
import Mcoap.Reencoding
import Mcoap.SendOutcome
import Mcoap.BackOff
import Mcoap.ReadLoop
import Mcoap.TwoPasses
import Mcoap.UriSafety
import Mcoap.EmptyComponents
import Mcoap.UriAddress
import Mcoap.BufferBounds
import Mcoap.OptionsMerge
import Mcoap.OptionLookup
import Mcoap.PortContacted
import Mcoap.ListProgram
import Mcoap.TransmitSpan
import Mcoap.EchoService
import Mcoap.EndpointReturns
import Mcoap.AckExchange
import Mcoap.CoreTests
import Mcoap.SocketRefine
import Mcoap.McgetRequests
