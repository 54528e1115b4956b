import Nix.Ip.TcpLimboRuns
import Nix.Ip.IpReassembly
import Nix.Ip.ArpRuns
import Nix.Libc.DirDecode
import Nix.Libc.FcallRoundtrip
import Nix.Creepy.Ix
import Nix.Creepy.BlkAllocSafety
import Nix.Creepy.MblkLists
import Nix.Creepy.RefsCopies
import Nix.Lib.Snapshot
import Nix.Creepy.FblkContents
import Nix.Creepy.FblkReach
import Nix.Creepy.NinePRuns
import Nix.Creepy.ReaddirRuns
import Nix.Creepy.Access
import Nix.Creepy.Attr
import Nix.Creepy.WstatWhole
import Nix.Creepy.FscheckWhole
import Nix.Creepy.Cfg
import Nix.Port.SyssemQuiescent
import Nix.Port.SyssemAlt
import Nix.Port.QioBlocks
import Nix.Port.QioMessages
import Nix.Port.TubeDelivery
import Nix.Port.Syszio
import Nix.Port.SyssegSpace
import Nix.Port.QlockRuns
import Nix.Port.SleepWakeup
import Nix.Port.SemreadyOnce
import Nix.Port.RunqReady
import Nix.Port.PgallocRuns
import Nix.Port.PortclockTimers
import Nix.Port.EdfAdmit
import Nix.Port.EdfOrder
import Nix.Port.MntrpcreadRuns
import Nix.Port.NixcallRuns
import Nix.K10.PhysallocSafety
import Nix.Libavl.AvlWalkers
import Nix.Port.RendezRuns
import Nix.Port.SemaCounting
import Nix.K10.MmuRuns
import Nix.K10.TcoreRuns
import Nix.Ip.TcpHeaderRoundtrip
import Nix.Ip.TcpCongestion
import Nix.Ip.TcpBackoff
import Nix.Ip.TcpLimboRexmit
import Nix.Ip.Ipht
import Nix.Port.Sysfile
import Nix.Port.TaltRuns
import Nix.Port.ChanRuns
import Nix.Libavl.Avlsearch
import Nix.Port.Updatecpu
import Nix.Port.Ziorw
import Nix.Port.Dupseg
import Nix.Port.Segflush
import Nix.Port.QioLists
import Nix.Port.ProcalarmRuns
import Nix.Port.PwaitRuns
import Nix.Port.TodRuns
import Nix.Port.RmapRuns
import Nix.K10.AsmRuns
import Nix.Port.FaultValid
import Nix.Libmp.Strtomp
import Nix.Libmp.Mpexp
import Nix.Ip.IprouteRuns
