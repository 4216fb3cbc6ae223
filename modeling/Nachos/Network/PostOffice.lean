import Nachos.Network.Wire
import Nachos.Lib.Occupancy
import Nachos.Threads.Protocol

/-!
# The post office of one machine: `network/post.cc` over `machine/network.cc`

`postOffice` is the code of `PostOffice`, `MailBox` and `Network` on the machine
with address `netAddr`, together with any program that uses `Send` and
`Receive`.  A mailbox is a synchronized list; the pieces of its routines between
kernel calls are instructions here, as in `threads/synchlist.cc`.

What the code leaves open is in `PostOffice`: which packets `Network::Send` drops,
and what is in the memory that `new` returns.  The interrupt `readPoll` comes with
the answer of the socket.

The history tells which letters were sent, which packets went to a socket or came
from one, what the postal worker has put into the mailboxes, and which thread has
taken what out of them.  `PostFacts` is about these data alone.  `PostInv` adds the
threads: there is one postal worker, and the semaphore `messageAvailable` has a
unit, or one is on its way, exactly if a packet waits in `inbox`.
-/

namespace Nachos.Network

open Function Lib Threads

variable {ι σ η : Type}

/-! ## The data -/

/-- `class Mail`. -/
structure Mail where
  pktHdr : PacketHeader
  mailHdr : MailHeader
  data : Bytes

/-- What the message says. -/
def Mail.letter (mail : Mail) : Letter :=
  .ofMail mail.pktHdr.receiver mail.pktHdr.sender mail.mailHdr mail.data

/-- A thread has got a message from a mailbox. -/
abbrev Receipt : Type := ThreadPtr × MailBoxAddress × Mail

/-- The data of `Network` and `PostOffice`, those of the program, and the history. -/
structure PostData (σ : Type) where
  sendBusy : Bool
  inHdr : PacketHeader
  inbox : Bytes
  /-- The `NetworkSendDone` interrupts that are scheduled. -/
  scheduled : Nat
  /-- How often `Network::Send` has asked for a random number. -/
  randoms : Nat
  /-- How many buffers `new` has made. -/
  buffers : Nat
  /-- The buffer of the postal worker. -/
  buffer : Bytes
  /-- The lists of the mailboxes. -/
  boxes : MailBoxAddress → NachosList Mail
  user : σ
  /-- The letters in the order in which `Network::Send` was called for them. -/
  sent : List Letter
  /-- The packets that went to a socket, with its name. -/
  wired : List (NetworkAddress × Bytes)
  /-- The packets that came from the socket. -/
  arrived : List Bytes
  /-- The mail that was put into the mailboxes. -/
  put : List Mail
  /-- The mail that was taken out of the mailboxes. -/
  taken : List Receipt
  /-- The mail with which `Receive` has returned. -/
  received : List Receipt

/-- The objects of a post office, and what its code does not determine. -/
structure PostOffice where
  numBoxes : Int
  messageAvailable : Nat
  messageSent : Nat
  sendLock : Nat
  /-- The lock of the list in a mailbox. -/
  lock : MailBoxAddress → Nat
  /-- The condition of the list in a mailbox. -/
  listEmpty : MailBoxAddress → Nat
  /-- `Random() % 100 >= chanceToWork * 100`. -/
  lost : Nat → Bool
  /-- What is in a buffer that `new` has made. -/
  junk : Nat → Bytes
  /-- The semaphores are two objects. -/
  available_ne_sent : messageAvailable ≠ messageSent

/-- The code of the post office, and of a program that uses it. -/
inductive PostCode (ι : Type) where
  /-- The loop of `PostalDelivery`. -/
  | postalDelivery
  /-- The loop after its `P`, up to the call of `Put`. -/
  | deliver
  /-- `list->Append(item)` of the list in a mailbox. -/
  | append (mail : Mail)
  | send (pktHdr : PacketHeader) (mailHdr : MailHeader) (data : Bytes)
  /-- `network->Send(pktHdr, buffer)`.  The letter is for the history. -/
  | networkSend (hdr : PacketHeader) (data : Bytes) (letter : Letter)
  | receive (box : MailBoxAddress)
  /-- `while (list->IsEmpty())` of the list in a mailbox, and the code after it. -/
  | removeLoop (box : MailBoxAddress)
  /-- `Get` after `Remove`, and the return of `Receive`. -/
  | got (box : MailBoxAddress) (mail : Mail)
  | user (i : ι)

/-- A program that uses the post office.  `message` stores what `Receive` returns
in the variables of the caller. -/
structure PostUser (ι σ η : Type) where
  exec : Sched → ι → σ → Option (σ × List (Call (PostCode ι)))
  message : Sched → MailBoxAddress → PacketHeader → MailHeader → List Byte → σ → σ
  handler : η → σ → Option (σ × List Nat)

/-- The interrupts: a poll with what the socket has, the end of a send, and those
of the program. -/
inductive PostInterrupt (η : Type) where
  | readPoll (packet : Option Bytes)
  | sendDone
  | user (d : η)

/-! ## The network device -/

namespace PostData

variable (netAddr : NetworkAddress) (o : PostOffice) (x : PostData σ)

/-- `Network::CheckPktAvail`. -/
def checkPktAvail (packet : Option Bytes) : Option (PostData σ × List Nat) :=
  if x.inHdr.length ≠ 0 then some (x, [])
  else
    match packet with
    | none => some (x, [])
    | some packet =>
        let inHdr := Header.load packet
        if inHdr.receiver = netAddr ∧ inHdr.length.toNat ≤ MaxPacketSize then
          some
            ({ x with
               inHdr := inHdr
               inbox := x.inbox.copy 0 packet headerSize inHdr.length.toNat
               arrived := x.arrived ++ [packet] },
              [o.messageAvailable])
        else none

/-- `Network::SendDone`, when it is scheduled. -/
def sendDone : Option (PostData σ × List Nat) :=
  if x.scheduled = 0 then none
  else some ({ x with sendBusy := false, scheduled := x.scheduled - 1 }, [o.messageSent])

/-- `Network::Send`. -/
def networkSend (hdr : PacketHeader) (data : Bytes) (letter : Letter) : Option (PostData σ) :=
  if x.sendBusy = false ∧ 0 < hdr.length.toNat ∧ hdr.length.toNat ≤ MaxPacketSize ∧
      hdr.sender = netAddr then
    let y := { x with
      scheduled := x.scheduled + 1
      randoms := x.randoms + 1
      sent := x.sent ++ [letter] }
    if o.lost x.randoms then some y
    else
      some { y with
        buffers := y.buffers + 1
        wired := y.wired ++ [(hdr.receiver, wireBuffer (o.junk y.buffers) hdr data)] }
  else none

variable {netAddr o x} in
/-- What `Network::Send` changes. -/
theorem networkSend_eq_some {hdr : PacketHeader} {data : Bytes} {letter : Letter}
    {y : PostData σ} (h : x.networkSend netAddr o hdr data letter = some y) :
    hdr.sender = netAddr ∧ ∃ buffers packets,
      y = { x with
        scheduled := x.scheduled + 1
        randoms := x.randoms + 1
        buffers := buffers
        sent := x.sent ++ [letter]
        wired := x.wired ++ packets } ∧
      (packets = [] ∨ packets = [(hdr.receiver, wireBuffer (o.junk x.buffers) hdr data)]) := by
  unfold networkSend at h
  split at h
  case isFalse => cases h
  case isTrue hok =>
    refine ⟨hok.2.2.2, ?_⟩
    by_cases hlost : o.lost x.randoms = true
    · simp only [if_pos hlost, Option.some.injEq] at h
      refine ⟨x.buffers, [], ?_, Or.inl rfl⟩
      rw [← h, List.append_nil]
    · simp only [if_neg hlost, Option.some.injEq] at h
      exact ⟨x.buffers + 1, _, h.symm, Or.inr rfl⟩

/-- `Network::Receive` into the buffer of the postal worker. -/
def networkReceive : PacketHeader × PostData σ :=
  let hdr := x.inHdr
  (hdr,
    { x with
      inHdr := { x.inHdr with length := 0 }
      buffer := if hdr.length ≠ 0 then x.buffer.copy 0 x.inbox 0 hdr.length.toNat else x.buffer })

end PostData

/-! ## The post office -/

/-- `Mail::Mail`, with the message at an offset of a buffer. -/
def Mail.new (junk : Bytes) (pktH : PacketHeader) (mailH : MailHeader) (buffer : Bytes)
    (offset : Nat) : Option Mail :=
  if mailH.length.toNat ≤ MaxMailSize then
    some ⟨pktH, mailH, junk.copy 0 buffer offset mailH.length.toNat⟩
  else none

/-- The message is copied. -/
theorem Mail.letter_new {junk buffer : Bytes} {pktH : PacketHeader} {mailH : MailHeader}
    {mail : Mail} (h : Mail.new junk pktH mailH buffer headerSize = some mail) :
    mail.letter = .ofMail pktH.receiver pktH.sender mailH (body buffer) := by
  unfold Mail.new at h
  split at h
  · cases h
    apply Letter.ofMail_congr
    intro k hk
    have hlt : k < mailH.length.toNat := hk
    show junk.copy 0 buffer headerSize mailH.length.toNat k = body buffer k
    rw [Bytes.copy_apply, if_pos (by omega), Nat.sub_zero]
    rfl
  · cases h

namespace PostOffice

variable (netAddr : NetworkAddress) (o : PostOffice)

/-- `0 <= box && box < numBoxes`. -/
def HasBox (box : MailBoxAddress) : Prop := 0 ≤ box.toInt ∧ box.toInt < o.numBoxes

instance (box : MailBoxAddress) : Decidable (o.HasBox box) :=
  inferInstanceAs (Decidable (_ ∧ _))

/-- `MailBox::Put` after the construction of the message: `SynchList::Append`. -/
def putCalls (mail : Mail) : List (Call (PostCode ι)) :=
  let box := mail.mailHdr.receiver
  [.acquire (o.lock box), .client (.append mail), .signal (o.listEmpty box) (o.lock box),
    .release (o.lock box)]

/-- `PostOffice::PostalDelivery` after the `P`. -/
def deliver (x : PostData σ) : Option (PostData σ × List (Call (PostCode ι))) :=
  let (pktHdr, y) := x.networkReceive
  let mailHdr := Header.load y.buffer
  if o.HasBox mailHdr.receiver ∧ mailHdr.length.toNat ≤ MaxMailSize then
    (Mail.new (o.junk y.buffers) pktHdr mailHdr y.buffer headerSize).map fun mail =>
      ({ y with buffers := y.buffers + 1 }, o.putCalls mail ++ [.client .postalDelivery])
  else none

variable {o} in
/-- The postal worker goes on with a message that it has made from its buffer. -/
theorem deliver_eq_some {x : PostData σ} {r : PostData σ × List (Call (PostCode ι))}
    (h : o.deliver x = some r) :
    ∃ mail junk, Mail.new junk x.inHdr (Header.load x.networkReceive.2.buffer)
        x.networkReceive.2.buffer headerSize = some mail ∧
      r = ({ x.networkReceive.2 with buffers := x.networkReceive.2.buffers + 1 },
        o.putCalls mail ++ [.client .postalDelivery]) := by
  unfold deliver at h
  dsimp only at h
  split at h
  case isFalse => cases h
  case isTrue =>
    obtain ⟨mail, hmail, rfl⟩ := Option.map_eq_some_iff.mp h
    exact ⟨mail, _, hmail, rfl⟩

/-- `PostOffice::Send`. -/
def send (pktHdr : PacketHeader) (mailHdr : MailHeader) (data : Bytes) (x : PostData σ) :
    Option (PostData σ × List (Call (PostCode ι))) :=
  if mailHdr.length.toNat ≤ MaxMailSize ∧ o.HasBox mailHdr.receiver then
    let pktHdr : PacketHeader := ⟨pktHdr.receiver, netAddr, mailHdr.length + 12⟩
    let buffer := mailBuffer (o.junk x.buffers) mailHdr data
    some ({ x with buffers := x.buffers + 1 },
      [.acquire o.sendLock,
        .client (.networkSend pktHdr buffer (.ofMail pktHdr.receiver netAddr mailHdr data)),
        .p o.messageSent, .release o.sendLock])
  else none

/-- `SynchList::Remove` of a mailbox from the test of its loop on.  A message is never
`NULL`. -/
def removeLoop (t : ThreadPtr) (box : MailBoxAddress) (x : PostData σ) :
    Option (PostData σ × List (Call (PostCode ι))) :=
  if (x.boxes box).isEmpty then
    some (x, [.wait (o.listEmpty box) (o.lock box), .client (.removeLoop box)])
  else
    match (x.boxes box).remove with
    | (some mail, rest) =>
        some
          ({ x with
             boxes := update x.boxes box rest
             taken := x.taken ++ [(t, box, mail)] },
            [.release (o.lock box), .client (.got box mail)])
    | (none, _) => none

end PostOffice

/-- The code of the machine with address `netAddr`. -/
def postOffice (netAddr : NetworkAddress) (o : PostOffice) (user : PostUser ι σ η) :
    Program (PostCode ι) (PostData σ) (PostInterrupt η) where
  exec s i x :=
    match i with
    | .postalDelivery => some (x, [.p o.messageAvailable, .client .deliver])
    | .deliver => o.deliver x
    | .append mail =>
        let box := mail.mailHdr.receiver
        some ({ x with
          boxes := update x.boxes box ((x.boxes box).append mail)
          put := x.put ++ [mail] }, [])
    | .send pktHdr mailHdr data => o.send netAddr pktHdr mailHdr data x
    | .networkSend hdr data letter => (x.networkSend netAddr o hdr data letter).map (·, [])
    | .receive box =>
        if o.HasBox box then some (x, [.acquire (o.lock box), .client (.removeLoop box)])
        else none
    | .removeLoop box => o.removeLoop s.currentThread box x
    | .got box mail =>
        if mail.mailHdr.length.toNat ≤ MaxMailSize then
          some ({ x with
            user := user.message s box mail.pktHdr mail.mailHdr mail.letter.payload x.user
            received := x.received ++ [(s.currentThread, box, mail)] }, [])
        else none
    | .user i => (user.exec s i x.user).map fun r => ({ x with user := r.1 }, r.2)
  handler d x :=
    match d with
    | .readPoll packet => x.checkPktAvail netAddr o packet
    | .sendDone => x.sendDone o
    | .user d => (user.handler d x.user).map fun r => ({ x with user := r.1 }, r.2)

/-- The semaphore `messageAvailable` and the inner code belong to the post office. -/
def postReserved (o : PostOffice) : Reserved (PostCode ι) where
  sem s := s == .sem o.messageAvailable
  cond _ := false
  entry
    | .send _ _ _ => true
    | .receive _ => true
    | .user _ => true
    | _ => false

/-- The program leaves `messageAvailable` and the inner code alone. -/
structure PostUser.Polite (user : PostUser ι σ η) (o : PostOffice) : Prop where
  exec : ∀ s i x r, user.exec s i x = some r →
    ∀ c ∈ r.2, (postReserved o).outsideCall c = true
  handler : ∀ d x r, user.handler d x = some r → o.messageAvailable ∉ r.2

/-! ## The way of a letter through the data -/

/-- The messages that were taken out of a mailbox. -/
def fromBox (box : MailBoxAddress) (rs : List Receipt) : List Mail :=
  (rs.filter (·.2.1 == box)).map (·.2.2)

/-- The messages that a thread has got, with their mailboxes. -/
def byThread (t : ThreadPtr) (rs : List Receipt) : List (MailBoxAddress × Mail) :=
  (rs.filter (·.1 == t)).map (·.2)

/-- The letter that waits in `inbox`. -/
def PostData.buffered (x : PostData σ) : List Letter :=
  if x.inHdr.length = 0 then [] else [.ofPacket x.inHdr x.inbox]

/-- The data differ only where no letter is. -/
def PostData.SameMail (x y : PostData σ) : Prop :=
  ∃ user buffers sendBusy scheduled, y = { x with
    user := user, buffers := buffers, sendBusy := sendBusy, scheduled := scheduled }

theorem PostData.SameMail.eq {x y : PostData σ} (h : x.SameMail y) :
    y.inHdr = x.inHdr ∧ y.taken = x.taken ∧ y.received = x.received := by
  obtain ⟨_, _, _, _, rfl⟩ := h
  exact ⟨rfl, rfl, rfl⟩

/-- What the history says about the data.  `hand` is the message that the postal
worker is about to put into a mailbox. -/
structure PostFacts (netAddr : NetworkAddress) (x : PostData σ) (hand : List Mail) : Prop where
  letters : x.arrived.map Wire.letter = (x.put ++ hand).map Mail.letter ++ x.buffered
  proper : x.inHdr.length ≠ 0 → Proper x.inHdr x.inbox
  boxes : ∀ box, x.put.filter (·.mailHdr.receiver == box) =
    fromBox box x.taken ++ (x.boxes box).items
  wired : ∀ p ∈ x.wired, (Header.load p.2).receiver = p.1 ∧ (Header.load p.2).sender = netAddr ∧
    Proper (Header.load p.2) (body p.2)
  sent : (x.wired.map fun p => Wire.letter p.2).Sublist x.sent

theorem fromBox_append (box : MailBoxAddress) (rs : List Receipt) (t : ThreadPtr)
    (box' : MailBoxAddress) (mail : Mail) :
    fromBox box (rs ++ [(t, box', mail)]) =
      fromBox box rs ++ if box' = box then [mail] else [] := by
  by_cases hbox : box' = box <;> simp [fromBox, hbox]

theorem byThread_append (t : ThreadPtr) (rs : List Receipt) (u : ThreadPtr)
    (m : MailBoxAddress × Mail) :
    byThread t (rs ++ [(u, m)]) = byThread t rs ++ if u = t then [m] else [] := by
  by_cases hu : u = t <;> simp [byThread, hu]

namespace PostFacts

variable {netAddr : NetworkAddress} {o : PostOffice} {x : PostData σ} {hand : List Mail}

theorem congr {y : PostData σ} (h : PostFacts netAddr x hand) (hsame : x.SameMail y) :
    PostFacts netAddr y hand := by
  obtain ⟨user, buffers, sendBusy, scheduled, rfl⟩ := hsame
  exact
    { letters := h.letters
      proper := h.proper
      boxes := h.boxes
      wired := h.wired
      sent := h.sent }

/-- A packet comes from the socket. -/
theorem arrive {packet : Bytes} (h : PostFacts netAddr x hand) (hempty : x.inHdr.length = 0)
    (hproper : Proper (Header.load packet) (body packet)) :
    PostFacts netAddr
      { x with
        inHdr := Header.load packet
        inbox := x.inbox.copy 0 packet headerSize (Header.load packet).length.toNat
        arrived := x.arrived ++ [packet] } hand := by
  have hinbox : ∀ k, k < (Header.load packet).length.toNat →
      x.inbox.copy 0 packet headerSize (Header.load packet).length.toNat k = body packet k := by
    intro k hk
    rw [Bytes.copy_apply, if_pos (by omega), Nat.sub_zero]
    rfl
  have hbuffered : x.buffered = [] := if_pos hempty
  have hletters := h.letters
  rw [hbuffered, List.append_nil] at hletters
  exact
    { letters := by
        rw [PostData.buffered, if_neg hproper.length_ne_zero, hproper.ofPacket_congr hinbox,
          List.map_append, hletters]
        rfl
      proper := fun _ => hproper.congr hinbox
      boxes := h.boxes
      wired := h.wired
      sent := h.sent }

/-- The postal worker takes the packet out of `inbox`. -/
theorem fetch {r : PostData σ × List (Call (PostCode ι))} (h : PostFacts netAddr x [])
    (hfull : x.inHdr.length ≠ 0) (hdeliver : o.deliver x = some r) :
    ∃ mail, r.2 = o.putCalls mail ++ [.client .postalDelivery] ∧ r.1.inHdr.length = 0 ∧
      r.1.taken = x.taken ∧ r.1.received = x.received ∧ PostFacts netAddr r.1 [mail] := by
  have hproper := h.proper hfull
  have hbuffer : ∀ k, k < x.inHdr.length.toNat →
      x.buffer.copy 0 x.inbox 0 x.inHdr.length.toNat k = x.inbox k := by
    intro k hk
    rw [Bytes.copy_apply, if_pos (by omega), Nat.sub_zero, Nat.zero_add]
  have hreceive : x.networkReceive.2.buffer = x.buffer.copy 0 x.inbox 0 x.inHdr.length.toNat :=
    if_pos hfull
  obtain ⟨mail, junk, hmail, rfl⟩ := PostOffice.deliver_eq_some hdeliver
  have hletter : mail.letter = .ofPacket x.inHdr x.inbox := by
    rw [Mail.letter_new hmail, hreceive]
    exact hproper.ofPacket_congr hbuffer
  have hletters := h.letters
  rw [PostData.buffered, if_neg hfull, List.append_nil] at hletters
  refine ⟨mail, rfl, rfl, rfl, rfl, ?_⟩
  exact
    { letters := by
        show x.arrived.map Wire.letter = (x.put ++ [mail]).map Mail.letter ++ []
        rw [hletters, List.map_append, List.map_singleton, hletter, List.append_nil]
      proper := fun hne => absurd rfl hne
      boxes := h.boxes
      wired := h.wired
      sent := h.sent }

/-- The postal worker appends the message to its list. -/
theorem append {mail : Mail} (h : PostFacts netAddr x [mail]) :
    PostFacts netAddr
      { x with
        boxes := update x.boxes mail.mailHdr.receiver
          ((x.boxes mail.mailHdr.receiver).append mail)
        put := x.put ++ [mail] } [] :=
  { h with
    letters := by
      rw [List.append_nil]
      exact h.letters
    boxes box := by
      show (x.put ++ [mail]).filter (·.mailHdr.receiver == box) = fromBox box x.taken ++
        (update x.boxes mail.mailHdr.receiver ((x.boxes mail.mailHdr.receiver).append mail)
          box).items
      rw [List.filter_append, h.boxes box, List.append_assoc]
      by_cases hbox : box = mail.mailHdr.receiver
      · subst hbox
        simp [NachosList.append, NachosList.items]
      · rw [update_of_ne hbox]
        simp [Ne.symm hbox] }

/-- A thread takes a message out of a mailbox. -/
theorem take {box : MailBoxAddress} {e : ListElement Mail} {es : NachosList Mail}
    (h : PostFacts netAddr x hand) (hbox : x.boxes box = e :: es) (t : ThreadPtr) :
    PostFacts netAddr
      { x with
        boxes := update x.boxes box es
        taken := x.taken ++ [(t, box, e.item)] } hand :=
  { h with
    boxes box' := by
      show x.put.filter (·.mailHdr.receiver == box') =
        fromBox box' (x.taken ++ [(t, box, e.item)]) ++ (update x.boxes box es box').items
      rw [h.boxes box', fromBox_append]
      by_cases heq : box = box'
      · subst heq
        rw [if_pos rfl, update_self, hbox, List.append_assoc]
        rfl
      · rw [if_neg heq, update_of_ne (Ne.symm heq), List.append_nil] }

/-- A packet goes to a socket, or is dropped. -/
theorem send {y : PostData σ} {hdr : PacketHeader} {data : Bytes} {letter : Letter}
    (h : PostFacts netAddr x hand) (hproper : Proper hdr data)
    (hletter : Letter.ofPacket hdr data = letter)
    (hsend : x.networkSend netAddr o hdr data letter = some y) :
    y.inHdr = x.inHdr ∧ y.taken = x.taken ∧ y.received = x.received ∧
      PostFacts netAddr y hand := by
  obtain ⟨hsender, buffers, packets, rfl, hpackets⟩ := PostData.networkSend_eq_some hsend
  refine ⟨rfl, rfl, rfl,
    { letters := h.letters
      proper := h.proper
      boxes := h.boxes
      wired := ?_
      sent := ?_ }⟩
  · intro p hp
    rcases List.mem_append.mp hp with hold | hnew
    · exact h.wired p hold
    · rcases hpackets with rfl | rfl
      · cases hnew
      · rw [List.mem_singleton.mp hnew, Wire.load_send]
        exact ⟨rfl, hsender, Wire.proper_send _ hproper⟩
  · rw [List.map_append]
    refine h.sent.append ?_
    rcases hpackets with rfl | rfl
    · exact List.nil_sublist _
    · rw [List.map_singleton, Wire.letter_send _ hproper, hletter]

end PostFacts

end Nachos.Network
