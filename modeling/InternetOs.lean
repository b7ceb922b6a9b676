import InternetOs.Dev.Console
import InternetOs.Dev.DiskProtocol
import InternetOs.Fs.LogCrash
import InternetOs.Fs.Refcnt
import InternetOs.Fs.Reserve
import InternetOs.Net.ArpQueue
import InternetOs.Net.CloseAck
import InternetOs.Net.EndToEnd
import InternetOs.Net.MbufBounds
import InternetOs.Net.PortSet
import InternetOs.Net.RecvCall
import InternetOs.Net.Resets
import InternetOs.Net.RxBounds
import InternetOs.Net.Segments
import InternetOs.Net.TcpReads
import InternetOs.Net.Transmit
import InternetOs.Net.UdpReads
import InternetOs.Net.Wakeup
import InternetOs.Net.Window
import InternetOs.P9.Compose
import InternetOs.P9.Recv
import InternetOs.P9.Robust
import InternetOs.P9.Seek
import InternetOs.Proc.Memory
import InternetOs.Sys.Lifetime
import InternetOs.Sys.Recycle
import InternetOs.User.Intmap
import InternetOs.User.ShParse
