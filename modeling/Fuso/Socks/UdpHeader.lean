import Fuso.Async.Copy
import Fuso.Protocol.Packet
import Fuso.Socks.Address

/-!
# The header of a relayed datagram

A SOCKS5 datagram carries the address of the other side in front of its data.
`packedUdpForward` builds one, and `parse_and_forward_data` takes one apart: it sends the address as
`Poto::Forward` and the data as a packet of its own (`ForwardData.step`).
-/

namespace Fuso
open Turn

/-- The datagram of `send_packed_udp_forward_message`. -/
def packedUdpForward (origin : Addr) (data : Bytes) : Bytes :=
  let address : Bytes := match origin with
    | .socket (.v4 ip port) => 0x01 :: (ip.toList ++ toBeBytes port)
    | .socket (.v6 ip port) => 0x04 :: (ip.toList ++ toBeBytes port)
    | .domain host port =>
      let domain := host.toUTF8.data.toList
      0x03 :: .ofNat domain.length :: (domain ++ toBeBytes port)
  [0x00, 0x00, 0x00] ++ address ++ data

/-- The length of the address, or of the name in it, and the bytes from the address on. -/
def splitHeader (atype : UInt8) (data : Bytes) (h : ¬ data.length < 6) : Option (Nat × Bytes) :=
  if atype = 0x03 then some (data[4].toNat, data.drop 5)
  else if atype = 0x01 then some (6, data.drop 4)
  else if atype = 0x04 then some (18, data.drop 4)
  else none

/-- What `parse_and_forward_data` does before it sends: the address, the length and the bytes that
the data is cut out of. -/
def parseHeader (data : Bytes) : Exit (Addr × Nat × Bytes) :=
  if h : data.length < 6 then .ret (.error .badForward)
  else
    let frag := data[2]
    let atype := data[3]
    if frag ≠ 0 then .ret (.error (.socks .socks5Frg))
    else match splitHeader atype data h with
    | none => .ret (.error (.socks .invalidAddress))
    | some (size, data) =>
      match parseAddress 0x03 0 atype data with
      | .ret (.ok socket) => .ret (.ok (socket.target, size, data))
      | .ret (.error e) => .ret (.error e)
      | .panic => .panic
      | .undefined => .undefined

/-- Where control is in `parse_and_forward_data`: in front of the first `write_all`, in that one or
in the second one. -/
inductive ForwardData where
  | start (data : Bytes)
  | message (addr : Addr) (size : Nat) (data : Bytes) (write : Bytes × Nat)
  | payload (addr : Addr) (write : Bytes × Nat)
  deriving DecidableEq

namespace ForwardData

/-- `serialize` is what `bincode` makes of `Poto::Forward`. -/
def step [AsyncWrite W] (serialize : Addr → Bytes) :
    ForwardData × W → Turn (ForwardData × W) (Exit Addr)
  | (.start data, s1) =>
    match parseHeader data with
    | .ret (.ok (addr, size, data)) =>
      .again (.message addr size data ((makePacket (serialize addr)).encode, 0), s1)
    | .ret (.error e) => .ready (.start data, s1) (.ret (.error e))
    | .panic => .ready (.start data, s1) .panic
    | .undefined => .ready (.start data, s1) .undefined
  | (.message addr size data write, s1) =>
    match WriteAll.step (write, s1) with
    | .again (write, s1) => .again (.message addr size data write, s1)
    | .pending (write, s1) => .pending (.message addr size data write, s1)
    | .ready (write, s1) (.error e) => .ready (.message addr size data write, s1) (.ret (.error e))
    | .ready (write, s1) (.ok ()) =>
      -- `data[size..]`
      if size ≤ data.length then
        .again (.payload addr ((makePacket (data.drop size)).encode, 0), s1)
      else .ready (.message addr size data write, s1) .panic
  | (.payload addr write, s1) =>
    match WriteAll.step (write, s1) with
    | .again (write, s1) => .again (.payload addr write, s1)
    | .pending (write, s1) => .pending (.payload addr write, s1)
    | .ready (write, s1) (.error e) => .ready (.payload addr write, s1) (.ret (.error e))
    | .ready (write, s1) (.ok ()) => .ready (.payload addr write, s1) (.ret (.ok addr))

end ForwardData
end Fuso
