import Mathlib.Data.Nat.Notation

/-! # Addresses and interfaces

The address checks of `ip_addr.h` and `ip_addr.c`. Addresses are in the order of the host, and interfaces have the
fields that the checks read. -/

namespace BareMetal.Ip

/-- `IPADDR_ANY`. -/
def ipaddrAny : UInt32 := 0

/-- `IPADDR_BROADCAST`. -/
def ipaddrBroadcast : UInt32 := 0xffffffff

/-- `NETIF_FLAG_UP`. -/
def netifFlagUp : UInt8 := 0x01

/-- `NETIF_FLAG_BROADCAST`. -/
def netifFlagBroadcast : UInt8 := 0x02

/-- `struct netif`. -/
structure Netif where
  next : ℕ
  ipAddr : UInt32
  netmask : UInt32
  flags : UInt8

/-- `netif_is_up(netif)`. -/
def netifIsUp (netif : Netif) : Bool := netif.flags &&& netifFlagUp != 0

/-- `ip_addr_isany(addr)` of an address that is there. -/
def ipAddrIsany (addr : UInt32) : Bool := addr == ipaddrAny

/-- `ip_addr_ismulticast(addr)`. -/
def ipAddrIsmulticast (addr : UInt32) : Bool := addr &&& 0xf0000000 == 0xe0000000

/-- `ip_addr_netcmp(addr1, addr2, mask)`. -/
def ipAddrNetcmp (addr1 addr2 mask : UInt32) : Bool := addr1 &&& mask == addr2 &&& mask

/-- `ip4_addr_isbroadcast(addr, netif)`. -/
def ip4AddrIsbroadcast (addr : UInt32) (netif : Netif) : Bool :=
  -- all ones, or all zeroes
  if ~~~addr == ipaddrAny || addr == ipaddrAny then true
  else if netif.flags &&& netifFlagBroadcast == 0 then false
  else if addr == netif.ipAddr then false
  else ipAddrNetcmp addr netif.ipAddr netif.netmask &&
    addr &&& ~~~netif.netmask == ipaddrBroadcast &&& ~~~netif.netmask

/-- The interface is up and configured, and `dest` is its address or a broadcast on it. -/
def netifTakes (dest : UInt32) (netif : Netif) : Bool :=
  (netifIsUp netif && !ipAddrIsany netif.ipAddr) && (dest == netif.ipAddr || ip4AddrIsbroadcast dest netif)

end BareMetal.Ip
