import XmppProxy.Proxy.Framing
import XmppProxy.Proxy.Rejection
import XmppProxy.Proxy.Transparency
import XmppProxy.Proxy.Carryover
import XmppProxy.Stanza.Limit
import XmppProxy.Proxy.MessageSize
import XmppProxy.Proxy.HeaderSend
import XmppProxy.Srv.Provenance
import XmppProxy.Proxy.Insertion
import XmppProxy.Proxy.Classification
import XmppProxy.Proxy.Qualification
import XmppProxy.Srv.Attempts
import XmppProxy.Proxy.Identity
import XmppProxy.Stanza.Safety
import XmppProxy.Proxy.Search
import XmppProxy.Proxy.Activation
import XmppProxy.Proxy.Sniffing
import XmppProxy.Stack.Transactions
import XmppProxy.Srv.Pins
import XmppProxy.Srv.HostMeta
import XmppProxy.Proxy.StreamReply
import XmppProxy.Proxy.Marking
import XmppProxy.Proxy.Streams
import XmppProxy.Proxy.OutgoingCarriage
import XmppProxy.Proxy.Authentication
import XmppProxy.Proxy.ProxyLine
import XmppProxy.Proxy.Process
import XmppProxy.Proxy.Agreement
