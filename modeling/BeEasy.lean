import BeEasy.CVerif.EventLoop
import BeEasy.CVerif.Bytes
import BeEasy.CVerif.Memory
import BeEasy.CVerif.Stdio
import BeEasy.CVerif.FileSystem
import BeEasy.CVerif.DirectoryTree
import BeEasy.CVerif.EdgeTriggered
import BeEasy.CVerif.Arena
import BeEasy.CVerif.ShiftRegister
import BeEasy.CVerif.PolynomialRegister
import BeEasy.CVerif.StopAndWait
import BeEasy.Crc.Crc32
import BeEasy.Curl.StaticPool
import BeEasy.CVerif.Overlays
import BeEasy.Curl.Realloc
import BeEasy.Curl.Alignment
import BeEasy.Curl.WriteCallback
import BeEasy.Curl.Accumulator
import BeEasy.FileTransmit.Ethernet
import BeEasy.FileTransmit.Wire
import BeEasy.FileTransmit.Receiver
import BeEasy.FileTransmit.ReceiverPass
import BeEasy.FileTransmit.ReceiverAcks
import BeEasy.FileTransmit.ReceiverStreams
import BeEasy.FileTransmit.ReceiverResult
import BeEasy.FileTransmit.Sender
import BeEasy.FileTransmit.SenderTurn
import BeEasy.FileTransmit.SenderResult
import BeEasy.FileTransmit.Peers
import BeEasy.FileTransmit.Transfer
import BeEasy.Walkthrough.DeleteFileAndDir
import BeEasy.Walkthrough.DeleteFrame
import BeEasy.Walkthrough.DirSize
import BeEasy.Walkthrough.DirSizeResult
import BeEasy.Crc.Crc32Mpeg2
import BeEasy.CVerif.BurstErrors
import BeEasy.Crc.Bursts
import BeEasy.Epoll.Server
import BeEasy.Epoll.Descriptors
import BeEasy.Epoll.Echo
import BeEasy.CVerif.AppendStreams
import BeEasy.Epoll.Stranded
import BeEasy.Log.Logger
import BeEasy.EthernetDemo.SendEther
import BeEasy.EthernetDemo.RecvEther
import BeEasy.CVerif.PipeEnds
import BeEasy.PipeOpen.MyPopen
import BeEasy.PipeOpen.MyPopenDeadlock
import BeEasy.CVerif.Calendar
import BeEasy.Walkthrough.DeleteMaxFile
import BeEasy.Walkthrough.DeleteFile
import BeEasy.CVerif.Pages
import BeEasy.MemPhy2Virt.MemPhy2Virt
import BeEasy.Str2Hex.StrToHex
import BeEasy.FileTransmit.Corruption
import BeEasy.FileTransmit.PacketCount
import BeEasy.FileOperation.CopyFile
import BeEasy.FileTransmit.ReadErrors
import BeEasy.FileTransmit.DestinationName
import BeEasy.CVerif.Scanf
import BeEasy.CVerif.Lines
import BeEasy.FileTransmit.Arp
import BeEasy.CVerif.Disk
import BeEasy.FileOperation.CopyOnDisk
import BeEasy.FileOperation.WriteFile
import BeEasy.FileOperation.CopyResult
import BeEasy.Walkthrough.DeleteRoot
import BeEasy.CVerif.Mapping
import BeEasy.ElfRead.Elf64
import BeEasy.CVerif.Residue
import BeEasy.Crc.Residue
import BeEasy.Crc.Main
import BeEasy.ElfRead.Elf32
import BeEasy.Epoll.Client
import BeEasy.Epoll.ClientShows
import BeEasy.Epoll.ClientSends
import BeEasy.FileTransmit.FileSize
import BeEasy.Str2Hex.Accesses
import BeEasy.CVerif.Json
import BeEasy.CVerif.Matching
import BeEasy.CVerif.DoublyLinked
import BeEasy.CVerif.Forest
import BeEasy.JsonRead.Item
import BeEasy.JsonRead.Utf16
import BeEasy.JsonRead.ParseString
import BeEasy.JsonRead.Parse
import BeEasy.JsonRead.ParseSafe
import BeEasy.JsonRead.ParseText
import BeEasy.JsonRead.Print
import BeEasy.JsonRead.PrintSteps
import BeEasy.JsonRead.PrintText
import BeEasy.JsonRead.RoundTrip
import BeEasy.JsonRead.Minify
import BeEasy.JsonRead.Compare
import BeEasy.JsonRead.Nodes
import BeEasy.JsonRead.Lists
import BeEasy.JsonRead.ListEdits
import BeEasy.JsonRead.Edits
import BeEasy.JsonRead.Calls
import BeEasy.JsonRead.CreateArray
import BeEasy.JsonRead.Trees
import BeEasy.JsonRead.Main
import BeEasy.JsonRead.Equality
