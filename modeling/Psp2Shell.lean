import Psp2Shell.CLib.Text
import Psp2Shell.CLib.Format
import Psp2Shell.CLib.Buffer
import Psp2Shell.CLib.Fields
import Psp2Shell.CLib.Segments
import Psp2Shell.CLib.Runs
import Psp2Shell.CLib.SlotQueue
import Psp2Shell.CLib.Strings
import Psp2Shell.CLib.Numbers
import Psp2Shell.CLib.Links
import Psp2Shell.CLib.Lines
import Psp2Shell.CLib.Words
import Psp2Shell.CLib.Hex
import Psp2Shell.Cmd.Model
import Psp2Shell.Cmd.Decode
import Psp2Shell.Cmd.Slots
import Psp2Shell.Cmd.Send
import Psp2Shell.Cmd.RoundTrip
import Psp2Shell.Cmd.Bounds
import Psp2Shell.Cmd.Grammar
import Psp2Shell.Cmd.Loop
import Psp2Shell.Cmd.Framing
import Psp2Shell.Cli.Model
import Psp2Shell.Cli.Words
import Psp2Shell.Cli.Line
import Psp2Shell.Cli.Split
import Psp2Shell.Cli.Args
import Psp2Shell.Cli.Terminal
import Psp2Shell.Upload.Model
import Psp2Shell.Upload.Receive
import Psp2Shell.Upload.Handshake
import Psp2Shell.Upload.Exact
import Psp2Shell.Cmd.Receive
import Psp2Shell.Upload.Accounting
import Psp2Shell.Upload.Send
import Psp2Shell.Upload.Size
import Psp2Shell.Msg.Model
import Psp2Shell.Msg.LockStep
import Psp2Shell.Msg.RoundTrip
import Psp2Shell.Msg.Senders
import Psp2Shell.Msg.Shown
import Psp2Shell.Msg.Transcript
import Psp2Shell.Session.Model
import Psp2Shell.Session.Single
import Psp2Shell.Session.Pairing
import Psp2Shell.CLib.FileTree
import Psp2Shell.CLib.Overlay
import Psp2Shell.CLib.Totals
import Psp2Shell.File.Path
import Psp2Shell.File.Model
import Psp2Shell.File.Step
import Psp2Shell.File.Visits
import Psp2Shell.File.Move
import Psp2Shell.File.Remove
import Psp2Shell.File.Copy
import Psp2Shell.File.Confined
import Psp2Shell.File.Copied
import Psp2Shell.File.CopyTree
import Psp2Shell.File.CopyPath
import Psp2Shell.File.CopyOnto
import Psp2Shell.File.Info
import Psp2Shell.File.Progress
import Psp2Shell.File.Walkers
import Psp2Shell.File.Within
import Psp2Shell.File.Report
import Psp2Shell.Kernel.Model
import Psp2Shell.Kernel.Fifo
import Psp2Shell.Kernel.Interleaved
import Psp2Shell.Kernel.Hooks
import Psp2Shell.Kernel.Log
import Psp2Shell.Kernel.Delivery
import Psp2Shell.Kernel.Dump
import Psp2Shell.Kernel.DumpPath
import Psp2Shell.Kernel.DumpResult
import Psp2Shell.Kernel.Chunks
import Psp2Shell.Server.Model
import Psp2Shell.Server.Dispatch
import Psp2Shell.Session.Lifetime
import Psp2Shell.Listen.Model
import Psp2Shell.Listen.Sockets
import Psp2Shell.Listen.Accept
import Psp2Shell.Listen.Exit
import Psp2Shell.Listen.Network
import Psp2Shell.Dialog.Model
import Psp2Shell.Dialog.Serve
import Psp2Shell.Dialog.Paced
import Psp2Shell.Dialog.Settle
import Psp2Shell.Loader.Modules
import Psp2Shell.Client.Model
import Psp2Shell.Client.Spec
import Psp2Shell.Client.Bounds
import Psp2Shell.Client.Named
import Psp2Shell.Client.Cd
import Psp2Shell.Client.Navigate
import Psp2Shell.Client.Defaults
import Psp2Shell.Client.Confined
import Psp2Shell.Listing.Model
import Psp2Shell.Listing.Chain
import Psp2Shell.Listing.Entries
import Psp2Shell.Listing.Sorted
import Psp2Shell.Listing.Ls
import Psp2Shell.Listing.Independent
import Psp2Shell.Listing.Fits
import Psp2Shell.Memory.Model
import Psp2Shell.Memory.Read
import Psp2Shell.Memory.Hex
import Psp2Shell.Memory.Write
import Psp2Shell.Memory.Shown
