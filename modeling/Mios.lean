import Mios.Block.Verifier
import Mios.BinToOta
import Mios.Vcon
import Mios.Splice
import Mios.Telnet
import Mios.Pmem
import Mios.Pbuf.Access
import Mios.Net.Cksum
import Mios.Net.Dsig
import Mios.Net.Mdns
import Mios.Net.InputSafe
import Mios.Net.Options
import Mios.Net.PushpullRead
import Mios.Net.PushpullWrite
import Mios.Net.Ptp
import Mios.Tcp.Handshake
import Mios.Tcp.Diagram
import Mios.Tcp.Teardown
import Mios.Tcp.Emit
import Mios.Tcp.Read
import Mios.Tcp.Lifetime
import Mios.Vllp.Link
import Mios.Vllp.Bridge
import Mios.Vllp.HostFlow
import Mios.Malloc.Word
import Mios.Ble.SecLevel
import Mios.Ble.Bonding
import Mios.Kernel.ThreadSound
import Mios.Kernel.MutexSound
import Mios.Kernel.WaitOrder
import Mios.Kernel.EventWire
import Mios.Http.Response
import Mios.Glob
import Mios.Net.Dhcp
import Mios.ClockServo
import Mios.Unwind
