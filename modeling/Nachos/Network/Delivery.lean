import Nachos.Network.PostalWorker

/-!
# Delivery between machines

A `World` is a kernel for every network address.  Machines act one at a time, in
any order.  They share nothing but the sockets: a packet that one machine has put
on the wire may arrive at the machine to which it was sent, whenever that machine
polls.  The packets from one machine to another arrive intact, in order and at
most once, and any of them may get lost.  Between different senders there is no
order.

`WorldInv` says that every machine keeps its own invariant, and that what has
arrived from a machine is part of what that machine has put on the wire.
`post_office_delivery` follows a letter from `Send` to `Receive`.
-/

namespace Nachos.Network

open Function Lib Threads

variable {ι σ η : Type}

/-- A machine: its post office, its program and what its memory holds at the start. -/
structure Machine (ι σ η : Type) where
  office : PostOffice
  user : PostUser ι σ η
  polite : user.Polite office
  initialValue : Nat → Int
  holding : Nat → Option ThreadPtr
  inHdr : PacketHeader
  inbox : Bytes
  buffer : Bytes
  data : σ

/-- The machines with their kernels, and the sockets: the packets from `a` with a
number below `next a b` arrive at `b` no more. -/
structure World (ι σ : Type) where
  kernel : NetworkAddress → Kernel (PostCode ι) (PostData σ)
  next : NetworkAddress → NetworkAddress → Nat

/-- Machine `b` takes a step, or it polls its socket and gets packet number `n` of
machine `a`. -/
inductive NetAction (ι η : Type) where
  | act (b : NetworkAddress) (x : Action (PostCode ι) (PostInterrupt η))
  | arrive (a b : NetworkAddress) (n : Nat)

/-- The action reads a packet from the socket. -/
def readsPacket : Action (PostCode ι) (PostInterrupt η) → Bool
  | .interrupt (.readPoll (some _)) => true
  | _ => false

namespace World

variable (ms : NetworkAddress → Machine ι σ η)

/-- The code of a machine. -/
def program (b : NetworkAddress) : Program (PostCode ι) (PostData σ) (PostInterrupt η) :=
  postOffice b (ms b).office (ms b).user

def init : World ι σ where
  kernel b := (ms b).office.start (ms b).initialValue (ms b).holding
    (.init (ms b).inHdr (ms b).inbox (ms b).buffer (ms b).data)
  next _ _ := 0

/-- One step of the machines. -/
def step (w : World ι σ) : NetAction ι η → Option (World ι σ)
  | .act b x =>
      if readsPacket x then none
      else ((w.kernel b).step (program ms b) x).map fun k =>
        { w with kernel := update w.kernel b k }
  | .arrive a b n =>
      match (w.kernel a).shared.wired[n]? with
      | none => none
      | some (dest, packet) =>
          if dest = b ∧ w.next a b ≤ n ∧ (w.kernel b).shared.inHdr.length = 0 then
            ((w.kernel b).step (program ms b) (.interrupt (.readPoll (some packet)))).map fun k =>
              { kernel := update w.kernel b k
                next := update w.next a (update (w.next a) b (n + 1)) }
          else none

/-- The side conditions of a step: threads are forked once, and the main thread
leaves the inner code of the post office alone. -/
def Ok (w : World ι σ) : NetAction ι η → Prop
  | .act b x => (w.kernel b).ForkOnce x ∧ Kernel.OutsideStart (postReserved (ms b).office) x
  | .arrive _ _ _ => True

instance (w : World ι σ) (a : NetAction ι η) : Decidable (w.Ok ms a) :=
  match a with
  | .act _ _ => inferInstanceAs (Decidable (_ ∧ _))
  | .arrive _ _ _ => inferInstanceAs (Decidable True)

end World

/-! ## The history of one machine -/

section History

variable {netAddr : NetworkAddress} {o : PostOffice} {user : PostUser ι σ η}
  {x : PostData σ}

/-- Code of a thread reads nothing from the socket. -/
theorem history_exec {s : Sched} {i : PostCode ι} {r : PostData σ × List (Call (PostCode ι))}
    (h : (postOffice netAddr o user).exec s i x = some r) :
    r.1.arrived = x.arrived ∧ x.wired <+: r.1.wired := by
  cases i with
  | postalDelivery | append mail =>
      cases h
      exact ⟨rfl, List.prefix_refl _⟩
  | deliver =>
      obtain ⟨mail, _, _, rfl⟩ := PostOffice.deliver_eq_some h
      exact ⟨rfl, List.prefix_refl _⟩
  | send pktHdr mailHdr data =>
      simp only [postOffice, PostOffice.send] at h
      split at h
      case isFalse => cases h
      case isTrue =>
        cases h
        exact ⟨rfl, List.prefix_refl _⟩
  | networkSend hdr data letter =>
      obtain ⟨y, hy, rfl⟩ := Option.map_eq_some_iff.mp h
      obtain ⟨_, buffers, packets, rfl, _⟩ := PostData.networkSend_eq_some hy
      exact ⟨rfl, List.prefix_append _ _⟩
  | receive box | got box mail =>
      simp only [postOffice] at h
      split at h
      case isFalse => cases h
      case isTrue =>
        cases h
        exact ⟨rfl, List.prefix_refl _⟩
  | removeLoop box =>
      simp only [postOffice, PostOffice.removeLoop] at h
      split at h
      case isTrue =>
        cases h
        exact ⟨rfl, List.prefix_refl _⟩
      case isFalse =>
        split at h
        · cases h
          exact ⟨rfl, List.prefix_refl _⟩
        · cases h
  | user i =>
      obtain ⟨r', _, rfl⟩ := Option.map_eq_some_iff.mp h
      exact ⟨rfl, List.prefix_refl _⟩

theorem history_handler {d : PostInterrupt η} {r : PostData σ × List Nat}
    (hd : readsPacket (.interrupt d : Action (PostCode ι) (PostInterrupt η)) = false)
    (h : (postOffice netAddr o user).handler d x = some r) :
    r.1.arrived = x.arrived ∧ x.wired <+: r.1.wired := by
  cases d with
  | readPoll packet =>
      cases packet with
      | none =>
          simp only [postOffice, PostData.checkPktAvail, ite_self, Option.some.injEq] at h
          subst h
          exact ⟨rfl, List.prefix_refl _⟩
      | some packet => cases hd
  | sendDone =>
      simp only [postOffice, PostData.sendDone] at h
      split at h
      case isTrue => cases h
      case isFalse =>
        cases h
        exact ⟨rfl, List.prefix_refl _⟩
  | user d =>
      obtain ⟨r', _, rfl⟩ := Option.map_eq_some_iff.mp h
      exact ⟨rfl, List.prefix_refl _⟩

theorem history_arrive {packet : Bytes} {r : PostData σ × List Nat}
    (hempty : x.inHdr.length = 0)
    (h : (postOffice netAddr o user).handler (.readPoll (some packet)) x = some r) :
    r.1.arrived = x.arrived ++ [packet] ∧ r.1.wired = x.wired := by
  simp only [postOffice, PostData.checkPktAvail, hempty, ne_eq, not_true_eq_false,
    if_false] at h
  split at h
  case isFalse => cases h
  case isTrue =>
    cases h
    exact ⟨rfl, rfl⟩

/-- A step in which nothing is read from the socket. -/
theorem history_step {k k' : Kernel (PostCode ι) (PostData σ)}
    {a : Action (PostCode ι) (PostInterrupt η)} (ha : readsPacket a = false)
    (hstep : k.step (postOffice netAddr o user) a = some k') :
    k'.shared.arrived = k.shared.arrived ∧ k.shared.wired <+: k'.shared.wired := by
  rcases Kernel.step_shared hstep with
    heq | ⟨_, _, i, _, r, _, hexec, heq⟩ | ⟨d, r, rfl, hexec, heq⟩
  · rw [heq]
    exact ⟨rfl, List.prefix_refl _⟩
  · rw [heq]
    exact history_exec hexec
  · rw [heq]
    exact history_handler ha hexec

/-- A step in which a packet is read from the socket. -/
theorem history_step_arrive {k k' : Kernel (PostCode ι) (PostData σ)} {packet : Bytes}
    (hempty : k.shared.inHdr.length = 0)
    (hstep : k.step (postOffice netAddr o user) (.interrupt (.readPoll (some packet))) =
      some k') :
    k'.shared.arrived = k.shared.arrived ++ [packet] ∧ k'.shared.wired = k.shared.wired := by
  simp only [Kernel.step] at hstep
  split at hstep
  case isFalse => cases hstep
  case isTrue =>
    obtain ⟨r, hr, rfl⟩ := Option.map_eq_some_iff.mp hstep
    exact history_arrive hempty hr

end History

/-! ## The invariant of the world -/

/-- The packets of a list that machine `a` has sent. -/
def packetsFrom (a : NetworkAddress) (packets : List Bytes) : List Bytes :=
  packets.filter fun packet => (Header.load packet).sender == a

/-- The packets of a list that were sent to machine `b`. -/
def packetsTo (b : NetworkAddress) (wired : List (NetworkAddress × Bytes)) : List Bytes :=
  (wired.filter (·.1 == b)).map (·.2)

theorem packetsTo_sublist {b : NetworkAddress} {xs ys : List (NetworkAddress × Bytes)}
    (h : xs.Sublist ys) : (packetsTo b xs).Sublist (packetsTo b ys) :=
  (h.filter _).map _

/-- The invariant of the machines and the sockets. -/
structure WorldInv (ms : NetworkAddress → Machine ι σ η) (w : World ι σ) : Prop where
  control : ∀ b, (w.kernel b).Control
  machine : ∀ b, ∃ g, PostInv b (ms b).office g
    ((w.kernel b).config (postReserved (ms b).office))
  arrived : ∀ a b, (packetsFrom a (w.kernel b).shared.arrived).Sublist
    (packetsTo b ((w.kernel a).shared.wired.take (w.next a b)))

namespace WorldInv

variable {ms : NetworkAddress → Machine ι σ η} {w : World ι σ} {b : NetworkAddress}
  {k : Kernel (PostCode ι) (PostData σ)}

theorem facts (h : WorldInv ms w) (b : NetworkAddress) :
    ∃ hand, PostFacts b (w.kernel b).shared hand := by
  obtain ⟨g, hg⟩ := h.machine b
  exact ⟨g.hand, hg.facts⟩

/-- A packet on the wire is a proper one. -/
theorem proper_wired (h : WorldInv ms w) {a : NetworkAddress} {p : NetworkAddress × Bytes}
    (hp : p ∈ (w.kernel a).shared.wired) : (Header.load p.2).receiver = p.1 ∧
      (Header.load p.2).sender = a ∧ Proper (Header.load p.2) (body p.2) := by
  obtain ⟨hand, hfacts⟩ := h.facts a
  exact hfacts.wired p hp

theorem proper_arrived (h : WorldInv ms w) (b : NetworkAddress) :
    ∀ packet ∈ (w.kernel b).shared.arrived, Proper (Header.load packet) (body packet) := by
  intro packet hpacket
  have hfrom : packet ∈ packetsFrom (Header.load packet).sender (w.kernel b).shared.arrived :=
    List.mem_filter.mpr ⟨hpacket, by simp⟩
  obtain ⟨p, hp, rfl⟩ := List.mem_map.mp ((h.arrived _ b).subset hfrom)
  exact (h.proper_wired (List.mem_of_mem_take (List.mem_of_mem_filter hp))).2.2

/-- One machine takes a step. -/
theorem replace {next : NetworkAddress → NetworkAddress → Nat} (h : WorldInv ms w)
    {x : Action (PostCode ι) (PostInterrupt η)}
    (hok : (w.kernel b).ForkOnce x ∧ Kernel.OutsideStart (postReserved (ms b).office) x)
    (hstep : (w.kernel b).step (World.program ms b) x = some k)
    (hproper : ∀ packet ∈ k.shared.arrived, Proper (Header.load packet) (body packet))
    (harrived : ∀ a c, (packetsFrom a (update w.kernel b k c).shared.arrived).Sublist
      (packetsTo c ((update w.kernel b k a).shared.wired.take (next a c)))) :
    WorldInv ms { kernel := update w.kernel b k, next := next } := by
  obtain ⟨hcontrol, hconfig⟩ := Kernel.step_config (h.control b) hok hstep
  obtain ⟨g, hg⟩ := h.machine b
  have hmachine := hg.step (ms b).polite hproper hconfig
  refine ⟨fun c => ?_, fun c => ?_, harrived⟩
  · by_cases hc : c = b
    · subst hc
      show (update w.kernel c k c).Control
      rw [update_self]
      exact hcontrol
    · show (update w.kernel b k c).Control
      rw [update_of_ne hc]
      exact h.control c
  · by_cases hc : c = b
    · subst hc
      show ∃ g, PostInv c (ms c).office g ((update w.kernel c k c).config _)
      rw [update_self]
      exact hmachine
    · show ∃ g, PostInv c (ms c).office g ((update w.kernel b k c).config _)
      rw [update_of_ne hc]
      exact h.machine c

/-- A machine acts by itself. -/
theorem act (h : WorldInv ms w) {x : Action (PostCode ι) (PostInterrupt η)}
    (hok : (w.kernel b).ForkOnce x ∧ Kernel.OutsideStart (postReserved (ms b).office) x)
    (hread : readsPacket x = false)
    (hstep : (w.kernel b).step (World.program ms b) x = some k) :
    WorldInv ms { w with kernel := update w.kernel b k } := by
  obtain ⟨harrived, hwired⟩ := history_step hread hstep
  have hhistory : ∀ c, (update w.kernel b k c).shared.arrived = (w.kernel c).shared.arrived ∧
      (w.kernel c).shared.wired <+: (update w.kernel b k c).shared.wired := by
    intro c
    by_cases hc : c = b
    · subst hc
      rw [update_self]
      exact ⟨harrived, hwired⟩
    · rw [update_of_ne hc]
      exact ⟨rfl, List.prefix_refl _⟩
  refine h.replace hok hstep ?_ fun a c => ?_
  · rw [harrived]
    exact h.proper_arrived b
  · rw [(hhistory c).1]
    exact (h.arrived a c).trans (packetsTo_sublist ((hhistory a).2.take _).sublist)

/-- A packet arrives. -/
theorem arrive (h : WorldInv ms w) {a : NetworkAddress} {n : Nat} {packet : Bytes}
    (hget : (w.kernel a).shared.wired[n]? = some (b, packet)) (hnext : w.next a b ≤ n)
    (hempty : (w.kernel b).shared.inHdr.length = 0)
    (hstep : (w.kernel b).step (World.program ms b) (.interrupt (.readPoll (some packet))) =
      some k) :
    WorldInv ms
      { kernel := update w.kernel b k
        next := update w.next a (update (w.next a) b (n + 1)) } := by
  obtain ⟨harrived, hwired⟩ := history_step_arrive hempty hstep
  obtain ⟨_, hsender, hproper⟩ := h.proper_wired (List.mem_of_getElem? hget)
  have hsame : ∀ c, (update w.kernel b k c).shared.wired = (w.kernel c).shared.wired := by
    intro c
    by_cases hc : c = b
    · subst hc
      rw [update_self, hwired]
    · rw [update_of_ne hc]
  have hok : (w.kernel b).ForkOnce (.interrupt (.readPoll (some packet)) :
      Action (PostCode ι) (PostInterrupt η)) ∧
      Kernel.OutsideStart (postReserved (ms b).office)
        (.interrupt (.readPoll (some packet)) : Action (PostCode ι) (PostInterrupt η)) :=
    ⟨trivial, trivial⟩
  refine h.replace hok hstep ?_ fun a' c => ?_
  · rw [harrived]
    intro packet' hmem
    rcases List.mem_append.mp hmem with hold | hnew
    · exact h.proper_arrived b packet' hold
    · rw [List.mem_singleton.mp hnew]
      exact hproper
  · rw [hsame a']
    by_cases hc : c = b
    · subst hc
      rw [update_self, harrived, packetsFrom, List.filter_append, ← packetsFrom]
      by_cases ha : a' = a
      · -- The new packet is the last one of those that count as delivered.
        subst ha
        rw [update_self, update_self, List.take_add_one, hget, packetsTo, List.filter_append,
          List.map_append, ← packetsTo]
        refine List.Sublist.append ((h.arrived a' c).trans (packetsTo_sublist ?_)) ?_
        · exact (List.take_prefix_take_left hnext).sublist
        · simp [hsender]
      · have hother : [packet].filter (fun p => (Header.load p).sender == a') = [] := by
          simp [hsender, Ne.symm ha]
        rw [hother, List.append_nil, update_of_ne ha]
        exact h.arrived a' c
    · have hnext' : update w.next a (update (w.next a) b (n + 1)) a' c = w.next a' c := by
        by_cases ha : a' = a
        · rw [ha, update_self, update_of_ne hc]
        · rw [update_of_ne ha]
      rw [update_of_ne hc, hnext']
      exact h.arrived a' c

theorem init (ms : NetworkAddress → Machine ι σ η) : WorldInv ms (World.init ms) where
  control _ := control_start _ _ _ _
  machine b := postInv_start _ _ _ b _ _ _ _
  arrived _ _ := List.Sublist.refl _

/-- Every step keeps the invariant. -/
theorem step (h : WorldInv ms w) {a : NetAction ι η} {w' : World ι σ} (hok : w.Ok ms a)
    (hstep : w.step ms a = some w') : WorldInv ms w' := by
  cases a with
  | act b x =>
      simp only [World.step] at hstep
      split at hstep
      case isTrue => cases hstep
      case isFalse hread =>
        obtain ⟨k, hk, rfl⟩ := Option.map_eq_some_iff.mp hstep
        exact h.act hok (eq_false_of_ne_true hread) hk
  | arrive a b n =>
      simp only [World.step] at hstep
      split at hstep
      · cases hstep
      · rename_i dest packet hget
        split at hstep
        case isFalse => cases hstep
        case isTrue hguard =>
          obtain ⟨k, hk, rfl⟩ := Option.map_eq_some_iff.mp hstep
          rw [hguard.1] at hget
          exact h.arrive hget hguard.2.1 hguard.2.2 hk

end WorldInv

/-! ## Delivery -/

/-- The letters to a mailbox. -/
def lettersTo (b : NetworkAddress) (box : MailBoxAddress) (letters : List Letter) : List Letter :=
  letters.filter fun l => l.receiver = b ∧ l.mailHdr.receiver = box

/-- Messages are delivered as they were sent. -/
structure Delivered (w : World ι σ) : Prop where
  /-- What was taken out of a mailbox and came from one machine is part of what that
  machine has sent to the mailbox, in the same order. -/
  order : ∀ a b box,
    (((fromBox box (w.kernel b).shared.taken).map Mail.letter).filter (·.sender = a)).Sublist
      (lettersTo b box (w.kernel a).shared.sent)
  /-- The calls of `Receive` in a thread return what the thread has taken out, one
  message each and in the same order. -/
  returned : ∀ b t, byThread t (w.kernel b).shared.received <+:
    byThread t (w.kernel b).shared.taken
  /-- What `Receive` returns was sent to the mailbox by the machine that the header
  names. -/
  origin : ∀ b t box mail, (t, box, mail) ∈ (w.kernel b).shared.received →
    mail.letter ∈ lettersTo b box (w.kernel mail.pktHdr.sender).shared.sent

namespace WorldInv

variable {ms : NetworkAddress → Machine ι σ η} {w : World ι σ}

/-- The letters of the packets to one machine. -/
theorem wired_letters (h : WorldInv ms w) (a b : NetworkAddress) :
    ((packetsTo b (w.kernel a).shared.wired).map Wire.letter).Sublist
      ((w.kernel a).shared.sent.filter (·.receiver = b)) := by
  obtain ⟨hand, hfacts⟩ := h.facts a
  have hmap : (packetsTo b (w.kernel a).shared.wired).map Wire.letter =
      ((w.kernel a).shared.wired.map fun p => Wire.letter p.2).filter (·.receiver = b) := by
    rw [packetsTo, List.map_map, List.filter_map]
    congr 1
    apply List.filter_congr
    intro p hp
    show (p.1 == b) = decide ((Header.load p.2).receiver = b)
    rw [(hfacts.wired p hp).1]
    rfl
  rw [hmap]
  exact hfacts.sent.filter _

/-- The letters that have arrived from one machine. -/
theorem arrived_letters (h : WorldInv ms w) (a b : NetworkAddress) :
    (((w.kernel b).shared.arrived.map Wire.letter).filter (·.sender = a)).Sublist
      ((w.kernel a).shared.sent.filter (·.receiver = b)) := by
  rw [List.filter_map]
  have hwired := packetsTo_sublist (b := b)
    (List.take_sublist (w.next a b) (w.kernel a).shared.wired)
  exact (((h.arrived a b).trans hwired).map _).trans (h.wired_letters a b)

/-- The letters that were taken out of a mailbox. -/
theorem taken_letters {b : NetworkAddress} {x : PostData σ} {hand : List Mail}
    (h : PostFacts b x hand) (box : MailBoxAddress) :
    ((fromBox box x.taken).map Mail.letter).Sublist
      ((x.arrived.map Wire.letter).filter (·.mailHdr.receiver = box)) := by
  have htaken : (fromBox box x.taken).Sublist (x.put.filter (·.mailHdr.receiver == box)) := by
    rw [h.boxes box]
    exact List.sublist_append_left _ _
  have hput : (x.put.map Mail.letter).Sublist (x.arrived.map Wire.letter) := by
    rw [h.letters, List.map_append, List.append_assoc]
    exact List.sublist_append_left _ _
  refine (htaken.map _).trans ?_
  have hmap : (x.put.filter (·.mailHdr.receiver == box)).map Mail.letter =
      (x.put.map Mail.letter).filter (·.mailHdr.receiver = box) := by
    rw [List.filter_map]
    rfl
  rw [hmap]
  exact hput.filter _

theorem order (h : WorldInv ms w) (a b : NetworkAddress) (box : MailBoxAddress) :
    (((fromBox box (w.kernel b).shared.taken).map Mail.letter).filter (·.sender = a)).Sublist
      (lettersTo b box (w.kernel a).shared.sent) := by
  obtain ⟨hand, hfacts⟩ := h.facts b
  have hfilter : lettersTo b box (w.kernel a).shared.sent =
      ((w.kernel a).shared.sent.filter (·.receiver = b)).filter (·.mailHdr.receiver = box) := by
    rw [lettersTo, List.filter_filter]
    apply List.filter_congr
    intro l _
    rw [Bool.and_comm, Bool.decide_and]
  rw [hfilter]
  refine ((taken_letters hfacts box).filter _).trans ?_
  rw [List.filter_comm]
  exact (h.arrived_letters a b).filter _

theorem delivered (h : WorldInv ms w) : Delivered w where
  order := h.order
  returned b t := by
    obtain ⟨g, hg⟩ := h.machine b
    exact ⟨_, (hg.got t).symm⟩
  origin b t box mail hmem := by
    obtain ⟨g, hg⟩ := h.machine b
    have hreceived : (box, mail) ∈ byThread t (w.kernel b).shared.received :=
      List.mem_map.mpr ⟨_, List.mem_filter.mpr ⟨hmem, by simp⟩, rfl⟩
    have htaken : (box, mail) ∈ byThread t (w.kernel b).shared.taken := by
      have hgot : byThread t (w.kernel b).shared.taken = _ := hg.got t
      rw [hgot]
      exact List.mem_append_left _ hreceived
    obtain ⟨⟨u, box', mail'⟩, hfilter, heq⟩ := List.mem_map.mp htaken
    cases heq
    have hbox : mail ∈ fromBox box (w.kernel b).shared.taken :=
      List.mem_map.mpr ⟨_, List.mem_filter.mpr ⟨List.mem_of_mem_filter hfilter, by simp⟩, rfl⟩
    refine (h.order mail.pktHdr.sender b box).subset (List.mem_filter.mpr ⟨?_, ?_⟩)
    · exact List.mem_map_of_mem hbox
    · exact decide_eq_true rfl

end WorldInv

/-- In every run of the machines, messages are delivered as they were sent. -/
theorem post_office_delivery (ms : NetworkAddress → Machine ι σ η) (as : List (NetAction ι η))
    (w : World ι σ) (hok : Along (World.step ms) (World.Ok ms) (World.init ms) as)
    (hrun : run (World.step ms) (World.init ms) as = some w) : Delivered w := by
  have hinv : WorldInv ms w :=
    run_invariant (fun _ _ _ h hok hstep => h.step hok hstep) (WorldInv.init ms) hok hrun
  exact hinv.delivered

/-! ## A message between two machines -/

/-- A post office with two mailboxes, on a network that drops nothing. -/
def twoBoxes : PostOffice where
  numBoxes := 2
  messageAvailable := 0
  messageSent := 1
  sendLock := 0
  lock box := box.toNat + 1
  listEmpty box := box.toNat
  lost _ := false
  junk _ _ := 0
  available_ne_sent := by decide

/-- A machine whose threads only call `Send` and `Receive`. -/
def mailMachine : Machine Empty Unit Empty where
  office := twoBoxes
  user := ⟨fun _ i _ => i.elim, fun _ _ _ _ _ x => x, fun d _ => d.elim⟩
  polite := ⟨fun _ i => i.elim, fun d => d.elim⟩
  initialValue _ := 0
  holding _ := none
  inHdr := ⟨0, 0, 0⟩
  inbox _ := 0
  buffer _ := 0
  data := ()

/-- Machine 7 sends two bytes to mailbox 1 of machine 3, where a thread waits for
them. -/
def oneMessage : List (NetAction Empty Empty) :=
  List.replicate 4 (.act 7 .exec) ++
    .act 7 (.start [.client (.send ⟨3, 0, 0⟩ ⟨1, 0, 2⟩ fun k => BitVec.ofNat 8 (k + 5))]) ::
      List.replicate 6 (.act 7 .exec) ++
    List.replicate 3 (.act 3 .exec) ++ .arrive 7 3 0 :: List.replicate 3 (.act 3 .exec) ++
    .act 3 (.start [.client (.receive 1)]) :: List.replicate 43 (.act 3 .exec)

/-- What machine 3 has received at the end of a run. -/
def receivedBy (w : World Empty Unit) : List Letter :=
  (w.kernel 3).shared.received.map fun r => r.2.2.letter

/-- The message arrives. -/
theorem post_office_delivery_one : ∃ w : World Empty Unit,
    run (World.step fun _ => mailMachine) (World.init fun _ => mailMachine) oneMessage = some w ∧
      receivedBy w = [⟨3, 7, ⟨1, 0, 2⟩, [5, 6]⟩] ∧ Delivered w := by
  have hrun : (run (World.step fun _ => mailMachine) (World.init fun _ => mailMachine)
      oneMessage).map receivedBy = some [⟨3, 7, ⟨1, 0, 2⟩, [5, 6]⟩] := by
    decide +kernel
  obtain ⟨w, hw, hreceived⟩ := Option.map_eq_some_iff.mp hrun
  exact ⟨w, hw, hreceived,
    post_office_delivery (fun _ => mailMachine) oneMessage w (by decide +kernel) hw⟩

end Nachos.Network
