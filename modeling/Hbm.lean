import Hbm.Registration
import Hbm.Batch
import Hbm.Fairness
import Hbm.Influence
import Hbm.SelfErase
import Hbm.Construct
import Hbm.InterestSet
import Hbm.Erasure
import Hbm.Descriptors
import Hbm.Refused
import Hbm.Stopping
import Hbm.Disconnect
import Hbm.Callbacks
import Hbm.BufferedReader
import Hbm.Stream
import Hbm.Blocks
import Hbm.SendBlocks
import Hbm.SendBlock
import Hbm.CallersArray
import Hbm.Gather
import Hbm.Complete
import Hbm.Pieces
import Hbm.Timeout
import Hbm.Connections
import Hbm.Notifier
import Hbm.Timer
import Hbm.TimerCallback
import Hbm.OneShot
import Hbm.Armed
import Hbm.TimerLaw
import Hbm.WindowsTimer
import Hbm.Bytes
import Hbm.EdgeContract
import Hbm.Multicast
import Hbm.Netlink
import Hbm.Datagram
import Hbm.NetlinkDecode
import Hbm.WindowsBlock
import Hbm.WindowsReader
import Hbm.WindowsComplete
import Hbm.Shutdown
import Hbm.WindowsSend
import Hbm.Owners
import Hbm.StartStop
import Hbm.Lifetime
import Hbm.EmptyCallback
import Hbm.EarlyCallback
import Hbm.Overlap
import Hbm.Overtaken
import Hbm.Rearm
import Hbm.Descriptions
import Hbm.Stale
import Hbm.Accepting
import Hbm.BoundPath
import Hbm.WindowsExecute
import Hbm.UnknownInterface
import Hbm.Loop
import Hbm.Split
import Hbm.Replace
import Hbm.Dotted
import Hbm.Inet
import Hbm.Subnet
import Hbm.AddressCheck
import Hbm.Netmask
import Hbm.Readings
import Hbm.InetPton
import Hbm.MappedAddress
import Hbm.HardwareInfo
import Hbm.NetadapterList
import Hbm.Trim
import Hbm.CheckSubnet
import Hbm.CheckSockAddr
import Hbm.ExecuteCommand
import Hbm.DefaultGateway
import Hbm.RouteTable
import Hbm.Conversation
import Hbm.Draining
import Hbm.Freshness
import Hbm.WindowsNotifier
import Hbm.WindowsDraining
import Hbm.Membership
import Hbm.LeadingBits
import Hbm.SubnetRange
import Hbm.SendAll
import Hbm.PidFile
import Hbm.NetadapterQueries
import Hbm.LongestRun
import Hbm.InetNtop
import Hbm.AddressTexts
import Hbm.WindowsNetlink
