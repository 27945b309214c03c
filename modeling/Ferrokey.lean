import Ferrokey.App.Agreement
import Ferrokey.App.Ownership
import Ferrokey.App.Playback
import Ferrokey.App.Router
import Ferrokey.App.Routing
import Ferrokey.App.Seat
import Ferrokey.App.TextMode
import Ferrokey.Core.Adaptive
import Ferrokey.Core.Delivery
import Ferrokey.Core.Enumeration
import Ferrokey.Core.FiniteSet
import Ferrokey.Core.Locks
import Ferrokey.Core.ReleaseAll
import Ferrokey.Core.Repeating
import Ferrokey.Core.RepeatOrder
import Ferrokey.Core.Rollover
import Ferrokey.Daemon.Atomicity
import Ferrokey.Daemon.Capacity
import Ferrokey.Daemon.Dialogue
import Ferrokey.Daemon.ErrorKinds
import Ferrokey.Daemon.Holding
import Ferrokey.Daemon.Isolation
import Ferrokey.Daemon.Kernel
import Ferrokey.Daemon.Mock
import Ferrokey.Daemon.Replies
import Ferrokey.Daemon.ReplyQueue
import Ferrokey.Daemon.SessionScope
import Ferrokey.Daemon.Stream
import Ferrokey.Daemon.Supervisor
import Ferrokey.Protocol.Fragmentation
import Ferrokey.Protocol.Indexed
import Ferrokey.Sandbox.Filter
import Ferrokey.Terminal.Aborting
import Ferrokey.Terminal.AltScreen
import Ferrokey.Terminal.Child
import Ferrokey.Terminal.Chunks
import Ferrokey.Terminal.Columns
import Ferrokey.Terminal.Composition
import Ferrokey.Terminal.Containment
import Ferrokey.Terminal.Dispatch
import Ferrokey.Terminal.Editing
import Ferrokey.Terminal.Following
import Ferrokey.Terminal.IndexedParser
import Ferrokey.Terminal.Margins
import Ferrokey.Terminal.Origin
import Ferrokey.Terminal.Palette
import Ferrokey.Terminal.ParserBounds
import Ferrokey.Terminal.Paste
import Ferrokey.Terminal.PtyOrder
import Ferrokey.Terminal.ReadBudget
import Ferrokey.Terminal.Reading
import Ferrokey.Terminal.Repaint
import Ferrokey.Terminal.Reports
import Ferrokey.Terminal.Reset
import Ferrokey.Terminal.Resizing
import Ferrokey.Terminal.ReverseIndex
import Ferrokey.Terminal.Ring
import Ferrokey.Terminal.Sizes
import Ferrokey.Terminal.Transparency
import Ferrokey.Terminal.Unbroken
import Ferrokey.Terminal.Underline
import Ferrokey.Terminal.Viewing
import Ferrokey.Uinput.Verify
