import RmiiEthernet.RxPacketBuffer
import RmiiEthernet.Afifo.Order
import RmiiEthernet.Driver.MdioComp
import RmiiEthernet.Afifo.Reset
import RmiiEthernet.PacketAfifo.Circuit
import RmiiEthernet.PacketAfifo.Rounds
import RmiiEthernet.Udp.Checksum
import RmiiEthernet.Udp.Input
import RmiiEthernet.Udp.Delivery
import RmiiEthernet.Udp.Lengths
import RmiiEthernet.Ethernet.Framer
import RmiiEthernet.Ethernet.Deframer
import RmiiEthernet.Ethernet.Restart
import RmiiEthernet.Rmii.Link
import RmiiEthernet.Rmii.Multiplex
import RmiiEthernet.Arp.Merge
import RmiiEthernet.Arp.Readdress
import RmiiEthernet.Arp.Pending
import RmiiEthernet.Arp.Requests
import RmiiEthernet.Arp.Addressing
import RmiiEthernet.Stack
import RmiiEthernet.Ethernet.Bursts
import RmiiEthernet.Arp.Insertions
import RmiiEthernet.Rmii.Frames
import RmiiEthernet.Rmii.Preamble
import RmiiEthernet.Apb.Transactions
import RmiiEthernet.Cdc.PulseTransfer
import RmiiEthernet.Cdc.WordTransfer
import RmiiEthernet.Sync.Divider
import RmiiEthernet.Mdio.Circuit
import RmiiEthernet.Mdio.Frames
import RmiiEthernet.Mdio.Preamble
import RmiiEthernet.Dividers
import RmiiEthernet.Prbs.Generator
import RmiiEthernet.Prbs.Verifier
import RmiiEthernet.Prbs.Recovery
import RmiiEthernet.Apb.Confinement
import RmiiEthernet.Mdio.Pulses
import RmiiEthernet.Uart.Loopback
import RmiiEthernet.Ethernet.Headers
import RmiiEthernet.Apb.Writes
import RmiiEthernet.Mac.Addresses
import RmiiEthernet.Mac.Operations
import RmiiEthernet.Driver.RmiiMacComp
import RmiiEthernet.Sync.Clocks
import RmiiEthernet.Afifo.Delay
import RmiiEthernet.PacketAfifo.Whole
import RmiiEthernet.Mac.Datapath
import RmiiEthernet.Rmii.Spacing
import RmiiEthernet.RxPacketBuffer.Lengths
import RmiiEthernet.Mac.Transmit
import RmiiEthernet.Mac.Counters
import RmiiEthernet.Driver.Session
import RmiiEthernet.Udp.Echo
