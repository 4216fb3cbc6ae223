import Nachos.Lib.Bytes

/-!
# Packets and letters

A message has two headers.  `PostOffice::Send` puts the `MailHeader` before the
data, and `Network::Send` puts the `PacketHeader` before both.  The two classes
have the same three fields.  Their names `to` and `from` are `receiver` and
`sender` here.

A `Letter` is what a message says, apart from its place in memory: the two
machines, the mail header, and as many bytes as the mail header counts.
`Letter.ofPacket` reads it from a packet header and the data behind it.

A packet is `Proper` if the two lengths fit.  Of a proper packet only the bytes
that its header counts matter (`ofPacket_congr`), so a letter survives a copy
into a buffer with other contents.  `ofPacket_mail` and `Wire.letter_send` say what
letter the two encoders write.
-/

namespace Nachos.Network

open Function Lib

abbrev NetworkAddress := BitVec 32

abbrev MailBoxAddress := BitVec 32

/-- `PacketHeader` and `MailHeader`. -/
structure Header where
  /-- The field `to`. -/
  receiver : BitVec 32
  /-- The field `from`. -/
  sender : BitVec 32
  length : BitVec 32
  deriving DecidableEq

abbrev PacketHeader := Header

abbrev MailHeader := Header

/-- `sizeof(PacketHeader)` and `sizeof(MailHeader)`. -/
def headerSize : Nat := 12

def MaxWireSize : Nat := 64

def MaxPacketSize : Nat := MaxWireSize - headerSize

def MaxMailSize : Nat := MaxPacketSize - headerSize

namespace Header

/-- `*(PacketHeader *)buffer`. -/
def load (buffer : Bytes) : Header := ⟨buffer.word 0, buffer.word 4, buffer.word 8⟩

/-- `*(PacketHeader *)buffer = hdr`. -/
def store (hdr : Header) (buffer : Bytes) : Bytes :=
  ((buffer.store 0 hdr.receiver 4).store 4 hdr.sender 4).store 8 hdr.length 4

variable {f g : Bytes}

theorem load_congr (h : ∀ k, k < headerSize → f k = g k) : load f = load g := by
  unfold headerSize at h
  unfold load
  rw [Bytes.word_congr fun j hj => h (0 + j) (by omega),
    Bytes.word_congr fun j hj => h (4 + j) (by omega),
    Bytes.word_congr fun j hj => h (8 + j) (by omega)]

theorem load_store (hdr : Header) (f : Bytes) : load (hdr.store f) = hdr := by
  have hto : (hdr.store f).word 0 = hdr.receiver := by
    apply Bytes.word_of_bytes
    intro j hj
    simp only [store, Bytes.store_apply]
    rw [if_neg (by omega), if_neg (by omega), if_pos (by omega), Nat.zero_add, Nat.sub_zero]
  have hsender : (hdr.store f).word 4 = hdr.sender := by
    apply Bytes.word_of_bytes
    intro j hj
    simp only [store, Bytes.store_apply]
    rw [if_neg (by omega), if_pos (by omega), Nat.add_sub_cancel_left]
  have hlength : (hdr.store f).word 8 = hdr.length := by
    apply Bytes.word_of_bytes
    intro j hj
    simp only [store, Bytes.store_apply]
    rw [if_pos (by omega), Nat.add_sub_cancel_left]
  rw [load, hto, hsender, hlength]

end Header

/-! ## Letters -/

/-- What a message says. -/
@[ext] structure Letter where
  receiver : NetworkAddress
  sender : NetworkAddress
  mailHdr : MailHeader
  payload : List Byte
  deriving DecidableEq

/-- The message that a mail header and the bytes at `data` make. -/
def Letter.ofMail (receiver sender : NetworkAddress) (mailHdr : MailHeader) (data : Bytes) :
    Letter :=
  ⟨receiver, sender, mailHdr, (List.range mailHdr.length.toNat).map data⟩

/-- The bytes behind a header. -/
def body (buffer : Bytes) : Bytes := fun k => buffer (headerSize + k)

/-- The letter in a packet, of which `data` are the bytes behind the header. -/
def Letter.ofPacket (hdr : PacketHeader) (data : Bytes) : Letter :=
  .ofMail hdr.receiver hdr.sender (Header.load data) (body data)

/-- The packet header counts the mail header and the bytes behind it. -/
def Proper (hdr : PacketHeader) (data : Bytes) : Prop :=
  hdr.length.toNat = headerSize + (Header.load data).length.toNat

section Copies

variable {hdr : PacketHeader} {data data' : Bytes}

theorem Letter.ofMail_congr {receiver sender : NetworkAddress} {mailHdr : MailHeader}
    (h : ∀ k, k < mailHdr.length.toNat → data k = data' k) :
    ofMail receiver sender mailHdr data = ofMail receiver sender mailHdr data' := by
  unfold ofMail
  congr 1
  apply List.map_congr_left
  intro k hk
  exact h k (List.mem_range.mp hk)

theorem Proper.load_congr (h : Proper hdr data)
    (hdata : ∀ k, k < hdr.length.toNat → data' k = data k) :
    Header.load data' = Header.load data := by
  unfold Proper at h
  exact Header.load_congr fun k hk => hdata k (by omega)

theorem Proper.congr (h : Proper hdr data)
    (hdata : ∀ k, k < hdr.length.toNat → data' k = data k) : Proper hdr data' := by
  unfold Proper
  rw [h.load_congr hdata]
  exact h

theorem Proper.ofPacket_congr (h : Proper hdr data)
    (hdata : ∀ k, k < hdr.length.toNat → data' k = data k) :
    Letter.ofPacket hdr data' = Letter.ofPacket hdr data := by
  unfold Letter.ofPacket
  rw [h.load_congr hdata]
  apply Letter.ofMail_congr
  intro k hk
  unfold Proper at h
  exact hdata (headerSize + k) (by omega)

theorem Proper.length_ne_zero (h : Proper hdr data) : hdr.length ≠ 0 := by
  intro hzero
  unfold Proper headerSize at h
  rw [hzero] at h
  have hnat : (0 : BitVec 32).toNat = 0 := rfl
  omega

end Copies

/-! ## The two encoders -/

/-- The buffer of `PostOffice::Send`, which `junk` was in. -/
def mailBuffer (junk : Bytes) (mailHdr : MailHeader) (data : Bytes) : Bytes :=
  (mailHdr.store junk).copy headerSize data 0 mailHdr.length.toNat

/-- The buffer of `Network::Send`. -/
def wireBuffer (junk : Bytes) (hdr : PacketHeader) (data : Bytes) : Bytes :=
  (hdr.store junk).copy headerSize data 0 hdr.length.toNat

theorem load_copy (hdr : Header) (junk data : Bytes) (n : Nat) :
    Header.load ((hdr.store junk).copy headerSize data 0 n) = hdr := by
  rw [← hdr.load_store junk]
  apply Header.load_congr
  intro k hk
  rw [Bytes.copy_apply, if_neg (by omega), hdr.load_store]

theorem body_copy {n k : Nat} (f data : Bytes) (hk : k < n) :
    body (f.copy headerSize data 0 n) k = data k := by
  rw [body, Bytes.copy_apply, if_pos (by omega), Nat.add_sub_cancel_left, Nat.zero_add]

/-- `pktHdr.length = mailHdr.length + sizeof(MailHeader)` does not overflow. -/
theorem toNat_length {length : BitVec 32} (h : length.toNat ≤ MaxMailSize) :
    (length + 12).toNat = headerSize + length.toNat := by
  have hmax : MaxMailSize = 40 := rfl
  rw [BitVec.toNat_add]
  show (length.toNat + 12) % 2 ^ 32 = 12 + length.toNat
  omega

theorem proper_mail {receiver sender : NetworkAddress} {mailHdr : MailHeader} (junk data : Bytes)
    (h : mailHdr.length.toNat ≤ MaxMailSize) :
    Proper ⟨receiver, sender, mailHdr.length + 12⟩ (mailBuffer junk mailHdr data) := by
  unfold Proper mailBuffer
  rw [load_copy]
  exact toNat_length h

/-- The letter that `PostOffice::Send` writes. -/
theorem ofPacket_mail (receiver sender : NetworkAddress) (mailHdr : MailHeader) (length : BitVec 32)
    (junk data : Bytes) :
    Letter.ofPacket ⟨receiver, sender, length⟩ (mailBuffer junk mailHdr data) =
      Letter.ofMail receiver sender mailHdr data := by
  unfold Letter.ofPacket mailBuffer
  rw [load_copy]
  apply Letter.ofMail_congr
  intro k hk
  exact body_copy _ data hk

namespace Wire

/-- The letter of a packet on the wire. -/
def letter (packet : Bytes) : Letter := .ofPacket (Header.load packet) (body packet)

theorem load_send (junk : Bytes) (hdr : PacketHeader) (data : Bytes) :
    Header.load (wireBuffer junk hdr data) = hdr :=
  load_copy hdr junk data _

theorem proper_send {hdr : PacketHeader} {data : Bytes} (junk : Bytes) (h : Proper hdr data) :
    Proper hdr (body (wireBuffer junk hdr data)) :=
  h.congr fun _ hk => body_copy _ data hk

/-- The letter that `Network::Send` writes. -/
theorem letter_send {hdr : PacketHeader} {data : Bytes} (junk : Bytes) (h : Proper hdr data) :
    letter (wireBuffer junk hdr data) = .ofPacket hdr data := by
  unfold letter
  rw [load_send]
  exact h.ofPacket_congr fun _ hk => body_copy _ data hk

end Wire

end Nachos.Network
