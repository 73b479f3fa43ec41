import ResourceServer.Core.ByteOrder

/-!
# Shared constants and conversions

The constants and enumerations of `global.hpp`, and the four byte-order
conversions of `socket_ops` that the session and its nodes apply to memory.
-/

namespace ResourceServer

open ByteOrder

abbrev Byte := UInt8

/-- A C++ byte string, or the contents of a block of memory. -/
abbrev Bytes := List Byte

/-- `HEAD_TOTAL_LEN`. -/
def headTotalLen : Nat := 6

/-- `HEAD_ID_LEN`. -/
def headIdLen : Nat := 2

/-- `HEAD_DATA_LEN`. -/
def headDataLen : Nat := 4

/-- `MAX_SENDQUE`. -/
def maxSendQue : Nat := 20000000

/-- `BUFFER_TOTAL_LEN`. -/
def bufferTotalLen : Nat := 1024 * 2

/-- `ReqId` has a fixed 16-bit underlying type, so every 16-bit value is one;
the enumerators below are the named ones. -/
structure ReqId where
  /-- The underlying `uint16_t`. -/
  raw : BitVec 16
  deriving DecidableEq, Repr

namespace ReqId

/-- `E_ID_TEST_MSG_REQ`. -/
def idTestMsgReq : ReqId := ⟨1001⟩

/-- `E_ID_TEST_MSG_RSP`. -/
def idTestMsgRsp : ReqId := ⟨1002⟩

/-- `E_ID_UPLOAD_FILE_REQ`. -/
def idUploadFileReq : ReqId := ⟨1003⟩

/-- `E_ID_UPLOAD_FILE_RSP`. -/
def idUploadFileRsp : ReqId := ⟨1004⟩

/-- `enum_to_int`. -/
def enumToInt (id : ReqId) : BitVec 16 := id.raw

end ReqId

/-- `ResStaus`. -/
inductive ResStaus
  | sucess
  | invalidId
  | invalidJson
  deriving DecidableEq, Repr

/-- `enum_to_int`. -/
def ResStaus.enumToInt : ResStaus → BitVec 16
  | .sucess => 0
  | .invalidId => 1
  | .invalidJson => 3

/-- `host_to_network_short`, as the bytes it leaves in memory. -/
def hostToNetworkShort (x : BitVec 16) : Bytes := toBigEndian headIdLen x.toNat

/-- `host_to_network_long`, as the bytes it leaves in memory. -/
def hostToNetworkLong (x : BitVec 32) : Bytes := toBigEndian headDataLen x.toNat

/-- `network_to_host_short` of the bytes copied from memory. -/
def networkToHostShort (bs : Bytes) : BitVec 16 := BitVec.ofNat 16 (ofBigEndian bs)

/-- `network_to_host_long` of the bytes copied from memory. -/
def networkToHostLong (bs : Bytes) : BitVec 32 := BitVec.ofNat 32 (ofBigEndian bs)

@[simp] theorem length_hostToNetworkShort (x : BitVec 16) :
    (hostToNetworkShort x).length = headIdLen := length_toBigEndian _ _

@[simp] theorem length_hostToNetworkLong (x : BitVec 32) :
    (hostToNetworkLong x).length = headDataLen := length_toBigEndian _ _

/-- Two bytes of network order survive the conversion to host order and back. -/
theorem hostToNetworkShort_networkToHostShort {bs : Bytes} (h : bs.length = headIdLen) :
    hostToNetworkShort (networkToHostShort bs) = bs := by
  have hlt : ofBigEndian bs < 2 ^ 16 := by simpa [h, headIdLen] using ofBigEndian_lt bs
  rw [hostToNetworkShort, networkToHostShort, BitVec.toNat_ofNat, Nat.mod_eq_of_lt hlt, ← h]
  exact toBigEndian_ofBigEndian bs

/-- Four bytes of network order survive the conversion to host order and back. -/
theorem hostToNetworkLong_networkToHostLong {bs : Bytes} (h : bs.length = headDataLen) :
    hostToNetworkLong (networkToHostLong bs) = bs := by
  have hlt : ofBigEndian bs < 2 ^ 32 := by simpa [h, headDataLen] using ofBigEndian_lt bs
  rw [hostToNetworkLong, networkToHostLong, BitVec.toNat_ofNat, Nat.mod_eq_of_lt hlt, ← h]
  exact toBigEndian_ofBigEndian bs

/-- A written 16-bit value is read back. -/
@[simp] theorem networkToHostShort_hostToNetworkShort (x : BitVec 16) :
    networkToHostShort (hostToNetworkShort x) = x := by
  apply BitVec.eq_of_toNat_eq
  rw [networkToHostShort, hostToNetworkShort, ofBigEndian_toBigEndian, BitVec.toNat_ofNat]
  exact (Nat.mod_mod _ _).trans (Nat.mod_eq_of_lt x.isLt)

/-- A written 32-bit value is read back. -/
@[simp] theorem networkToHostLong_hostToNetworkLong (x : BitVec 32) :
    networkToHostLong (hostToNetworkLong x) = x := by
  apply BitVec.eq_of_toNat_eq
  rw [networkToHostLong, hostToNetworkLong, ofBigEndian_toBigEndian, BitVec.toNat_ofNat]
  exact (Nat.mod_mod _ _).trans (Nat.mod_eq_of_lt x.isLt)

end ResourceServer
