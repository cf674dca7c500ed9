import IvySync.Foundation.Machine
import IvySync.Foundation.Interleave
import IvySync.Foundation.Linked
import IvySync.Foundation.Text
import IvySync.Foundation.Handles
import IvySync.Foundation.Memory
import IvySync.Decoder.Playlist
import IvySync.Decoder.Defs
import IvySync.Decoder.Run
import IvySync.Decoder.Step
import IvySync.Decoder.Buffer
import IvySync.Decoder.Lookup
import IvySync.Decoder.Playmode
import IvySync.Decoder.Playback
import IvySync.Decoder.Movie
import IvySync.Decoder.Chunk
import IvySync.Decoder.Position
import IvySync.Decoder.Stop
import IvySync.Decoder.Quit
import IvySync.Decoder.Carry
import IvySync.Decoder.Seek
import IvySync.Decoder.Percent
import IvySync.Linklist.Defs
import IvySync.Utils
import IvySync.Linklist.WellFormed
import IvySync.Linklist.Move
import IvySync.Linklist.Insert
import IvySync.Linklist.Exchange
import IvySync.Linklist.Refinement
import IvySync.Saved.Defs
import IvySync.Saved.Roundtrip
import IvySync.Saved.Devices
import IvySync.Saved.Lines
import IvySync.Saved.Chomp
import IvySync.Saved.Today
import IvySync.Decoder.Lifecycle
import IvySync.Process.Defs
import IvySync.Process.Step
import IvySync.Process.Syncstart
import IvySync.Process.Launch
import IvySync.Process.Daemon
import IvySync.Process.Finish
import IvySync.Process.Barrier
import IvySync.Xmlrpc.Value
import IvySync.Xmlrpc.Methods
import IvySync.Xmlrpc.Offset
import IvySync.Xmlrpc.Quit
import IvySync.Cmdline.Defs
import IvySync.Cmdline.Check
import IvySync.Cmdline.Routing
import IvySync.Linklist.Select
import IvySync.Linklist.Clear
import IvySync.Linklist.Current
import IvySync.Linklist.Completion
import IvySync.Gui.Defs
import IvySync.Gui.Rows
import IvySync.Gui.Drop
import IvySync.Foundation.Search
import IvySync.Xmlrpc.Util
import IvySync.Xmlrpc.Base64
import IvySync.Xmlrpc.Xml
import IvySync.Xmlrpc.Double
import IvySync.Xmlrpc.Reader
import IvySync.Xmlrpc.Roundtrip
import IvySync.Xmlrpc.Request
import IvySync.Xmlrpc.Server
import IvySync.Xmlrpc.Http
import IvySync.Xmlrpc.Connection
import IvySync.Xmlrpc.Client
import IvySync.Xmlrpc.Network
import IvySync.Xmlrpc.Executions
import IvySync.Xmlrpc.Progress
import IvySync.Xmlrpc.Remote
import IvySync.Xmlrpc.Daemon
import IvySync.Xmlrpc.Dispatch
import IvySync.Xmlrpc.Sources
import IvySync.Xmlrpc.Rounds
import IvySync.Xmlrpc.Serving
