import Nachos.Network.PostOffice

/-!
# The threads of a post office

`PostPlace` are the places of a thread in the code of the post office.  The main
thread starts in the constructor, which forks the postal worker.

`PostInv` is the invariant of one machine.  A packet in `inbox` is in one of three
phases: the interrupt handler has still to do the `V` on `messageAvailable`, the
`V` is done, or the postal worker has passed its `P` and will fetch the packet.  So
the handler never overwrites a packet, and the worker never fetches one twice.
-/

namespace Nachos.Network

open Function Lib Threads

variable {ι σ η : Type}

/-! ## The places -/

/-- The places of a thread in the code of the post office. -/
inductive PostPlace where
  | out
  /-- The constructor, before it forks the postal worker. -/
  | building
  | starting
  | polling
  | fetching
  | storing (mail : Mail)
  | appending (mail : Mail)
  | signalling (box : MailBoxAddress)
  | releasing (box : MailBoxAddress)
  | sending (hdr : PacketHeader) (data : Bytes) (letter : Letter)
  | wiring (hdr : PacketHeader) (data : Bytes) (letter : Letter)
  | removing (box : MailBoxAddress)
  | testing (box : MailBoxAddress)
  | waiting (box : MailBoxAddress)
  | queueing (box : MailBoxAddress)
  | leaving (box : MailBoxAddress) (mail : Mail)
  | returning (box : MailBoxAddress) (mail : Mail)

namespace PostPlace

/-- What the thread still has to do in the post office. -/
def code (o : PostOffice) : PostPlace → List (Instr (PostCode ι))
  | .out => []
  | .building => [.call (.fork 1 .postalDelivery)]
  | .starting => [.call (.client .postalDelivery)]
  | .polling => [.call (.p o.messageAvailable), .call (.client .deliver)]
  | .fetching => [.call (.client .deliver)]
  | .storing mail =>
      let box := mail.mailHdr.receiver
      [.call (.acquire (o.lock box)), .call (.client (.append mail)),
        .call (.signal (o.listEmpty box) (o.lock box)), .call (.release (o.lock box)),
        .call (.client .postalDelivery)]
  | .appending mail =>
      let box := mail.mailHdr.receiver
      [.call (.client (.append mail)), .call (.signal (o.listEmpty box) (o.lock box)),
        .call (.release (o.lock box)), .call (.client .postalDelivery)]
  | .signalling box =>
      [.call (.signal (o.listEmpty box) (o.lock box)), .call (.release (o.lock box)),
        .call (.client .postalDelivery)]
  | .releasing box => [.call (.release (o.lock box)), .call (.client .postalDelivery)]
  | .sending hdr data letter =>
      [.call (.acquire o.sendLock), .call (.client (.networkSend hdr data letter))]
  | .wiring hdr data letter => [.call (.client (.networkSend hdr data letter))]
  | .removing box => [.call (.acquire (o.lock box)), .call (.client (.removeLoop box))]
  | .testing box => [.call (.client (.removeLoop box))]
  | .waiting box =>
      [.call (.wait (o.listEmpty box) (o.lock box)), .call (.client (.removeLoop box))]
  | .queueing box =>
      [.waitAppend (o.listEmpty box), .call (.acquire (o.lock box)),
        .call (.client (.removeLoop box))]
  | .leaving box mail => [.call (.release (o.lock box)), .call (.client (.got box mail))]
  | .returning box mail => [.call (.client (.got box mail))]

/-- The thread is the postal worker, or is about to fork it. -/
def isWorker : PostPlace → Bool
  | .building | .starting | .polling | .fetching | .storing _ | .appending _ | .signalling _
  | .releasing _ => true
  | _ => false

def isFetching : PostPlace → Bool
  | .fetching => true
  | _ => false

/-- The message that the postal worker is about to put into a mailbox. -/
def hand : PostPlace → List Mail
  | .storing mail | .appending mail => [mail]
  | _ => []

/-- The message that the thread has taken and not returned yet. -/
def got : PostPlace → List (MailBoxAddress × Mail)
  | .leaving box mail | .returning box mail => [(box, mail)]
  | _ => []

/-- The buffer of a thread that sends holds its letter. -/
def SendOk : PostPlace → Prop
  | .sending hdr data letter | .wiring hdr data letter =>
      Proper hdr data ∧ Letter.ofPacket hdr data = letter
  | _ => True

/-- Everything about a place but the letter. -/
def marks (p : PostPlace) : Bool × Bool × List Mail × List (MailBoxAddress × Mail) :=
  (p.isWorker, p.isFetching, p.hand, p.got)

theorem marks_eq {p q : PostPlace} (h : p.marks = q.marks) : p.isWorker = q.isWorker ∧
    p.isFetching = q.isFetching ∧ p.hand = q.hand ∧ p.got = q.got := by
  simpa [marks] using h

theorem eq_out_of_code {o : PostOffice} {p : PostPlace}
    (h : (p.code o : List (Instr (PostCode ι))) = []) : p = .out := by
  cases p <;> first | rfl | cases h

end PostPlace

/-! ## The invariant -/

/-- What is in `inbox`: nothing; a packet whose `V` thread `t` has still to do; one
whose `V` is done; one that thread `t` is about to fetch. -/
inductive PacketPhase where
  | none
  | undone (t : ThreadPtr)
  | ready
  | fetching (t : ThreadPtr)
  deriving DecidableEq

theorem undone_injective : Injective PacketPhase.undone := fun _ _ => PacketPhase.undone.inj

/-- Where the threads are, and what is in `inbox`. -/
structure PostGhost where
  place : ThreadPtr → PostPlace
  /-- The `V` operations of handlers that a thread still has to do. -/
  vs : ThreadPtr → List Nat
  worker : Option ThreadPtr
  /-- The message in the hand of the postal worker. -/
  hand : List Mail
  phase : PacketPhase

/-- The invariant of a post office. -/
structure PostInv (netAddr : NetworkAddress) (o : PostOffice) (g : PostGhost)
    (c : Config (PostCode ι) (PostData σ)) : Prop where
  own : ∀ t, c.own t = handled (g.vs t) ((g.place t).code o)
  worker : Sole (fun p => p.isWorker = true) g.place g.worker
  hand : ∀ t, (g.place t).isWorker = true → (g.place t).hand = g.hand
  full : c.shared.inHdr.length = 0 ↔ g.phase = .none
  value : c.value (.sem o.messageAvailable) = if g.phase = .ready then 1 else 0
  undone : ∀ t, (g.vs t).count o.messageAvailable = if g.phase = .undone t then 1 else 0
  fetching : ∀ t, (g.place t).isFetching = true ↔ g.phase = .fetching t
  sending : ∀ t, (g.place t).SendOk
  got : ∀ t, byThread t c.shared.taken = byThread t c.shared.received ++ (g.place t).got
  facts : PostFacts netAddr c.shared g.hand

namespace PostInv

variable {netAddr : NetworkAddress} {o : PostOffice} {g : PostGhost}
  {c c' : Config (PostCode ι) (PostData σ)} {t : ThreadPtr} {p : PostPlace}
  {user : PostUser ι σ η} {r : PostData σ × List (Call (PostCode ι))} {ns : List Nat} {s : Sched}

theorem own_move (h : PostInv netAddr o g c) (hvs : g.vs t = [])
    (hown : c'.own = update c.own t (p.code o)) (u : ThreadPtr) :
    c'.own u = handled (g.vs u) ((update g.place t p u).code o) := by
  rw [hown]
  exact handled_move h.own hvs p u

theorem own_handled (h : PostInv netAddr o g c)
    (hown : c'.own = update c.own t (handled ns ((g.place t).code o))) (u : ThreadPtr) :
    c'.own u = handled (update g.vs t ns u) ((g.place u).code o) := by
  rw [hown]
  exact handled_update h.own ns u

theorem sending_move (h : PostInv netAddr o g c) (hp : p.SendOk) :
    ∀ u, (update g.place t p u).SendOk :=
  (forall_update_iff g.place fun _ q => q.SendOk).mpr ⟨hp, fun u _ => h.sending u⟩

theorem fetching_move (h : PostInv netAddr o g c)
    (hp : p.isFetching = (g.place t).isFetching) :
    ∀ u, (update g.place t p u).isFetching = true ↔ g.phase = .fetching u := by
  refine (forall_update_iff g.place fun u q => q.isFetching = true ↔ g.phase = .fetching u).mpr
    ⟨?_, fun u _ => h.fetching u⟩
  rw [hp, h.fetching t]

theorem got_move (h : PostInv netAddr o g c) (hp : p.got = (g.place t).got) :
    ∀ u, byThread u c.shared.taken =
      byThread u c.shared.received ++ (update g.place t p u).got := by
  refine (forall_update_iff g.place fun u q =>
    byThread u c.shared.taken = byThread u c.shared.received ++ q.got).mpr
      ⟨?_, fun u _ => h.got u⟩
  rw [hp, h.got t]

/-- The postal worker moves. -/
theorem hand_move (h : PostInv netAddr o g c) (hworker : (g.place t).isWorker = true)
    {hand : List Mail} (hp : p.hand = hand) (u : ThreadPtr)
    (hu : (update g.place t p u).isWorker = true) : (update g.place t p u).hand = hand := by
  by_cases hut : u = t
  · rw [hut, update_self]
    exact hp
  · rw [update_of_ne hut] at hu
    exact absurd (h.worker.unique hu hworker) hut

/-- A thread moves to a place with the same marks. -/
theorem glide (h : PostInv netAddr o g c) (hvs : g.vs t = [])
    (hown : c'.own = update c.own t (p.code o))
    (hvalue : c'.value (.sem o.messageAvailable) = c.value (.sem o.messageAvailable))
    (hshared : c.shared.SameMail c'.shared) (hmarks : p.marks = (g.place t).marks)
    (hsend : p.SendOk) :
    PostInv netAddr o { g with place := update g.place t p } c' := by
  obtain ⟨hworker, hfetching, hhand, hgot⟩ := PostPlace.marks_eq hmarks
  obtain ⟨hinHdr, htaken, hreceived⟩ := hshared.eq
  exact
    { h with
      own := h.own_move hvs hown
      worker := h.worker.stay (by rw [hworker])
      hand := by
        refine (forall_update_iff g.place fun _ q => q.isWorker = true → q.hand = g.hand).mpr
          ⟨?_, fun u _ => h.hand u⟩
        rw [hworker, hhand]
        exact h.hand t
      full := by rw [hinHdr, h.full]
      value := hvalue.trans h.value
      fetching := h.fetching_move hfetching
      sending := h.sending_move hsend
      got := by
        rw [htaken, hreceived]
        exact h.got_move hgot
      facts := h.facts.congr hshared }

/-- The constructor forks the postal worker. -/
theorem fork (h : PostInv netAddr o g c) (hvs : g.vs t = []) (hplace : g.place t = .building)
    (hfresh : c.own 1 = []) :
    PostInv netAddr o
      { g with place := update (update g.place t .out) 1 .starting, worker := some 1 }
      ((c.setOwn t (PostPlace.out.code o)).setOwn 1 (PostPlace.starting.code o)) := by
  have hsome : g.worker = some t := h.worker.holder_eq (by rw [hplace]; rfl)
  obtain ⟨hvs1, hcode1⟩ := List.append_eq_nil_iff.mp ((h.own 1).symm.trans hfresh)
  rw [List.map_eq_nil_iff] at hvs1
  have hplace1 : g.place 1 = .out := PostPlace.eq_out_of_code hcode1
  have hworker := h.worker
  rw [hsome] at hworker
  have hhand : g.hand = [] := by
    rw [← h.hand t (by rw [hplace]; rfl), hplace]
    rfl
  have hmove : ∀ Q : ThreadPtr → PostPlace → Prop, (∀ u, Q u (g.place u)) → Q t .out →
      Q 1 .starting → ∀ u, Q u (update (update g.place t .out) 1 .starting u) := by
    intro Q hQ ht h1
    have hout : ∀ u, Q u (update g.place t .out u) :=
      (forall_update_iff g.place Q).mpr ⟨ht, fun u _ => hQ u⟩
    exact (forall_update_iff _ Q).mpr ⟨h1, fun u _ => hout u⟩
  exact
    { own := by
        intro u
        show update (update c.own t _) 1 _ u =
          handled (g.vs u) ((update (update g.place t .out) 1 .starting u).code o)
        by_cases hu : u = 1
        · rw [hu, update_self, update_self, hvs1]
          rfl
        · have hmain : (c.setOwn t (PostPlace.out.code o)).own = update c.own t _ := rfl
          rw [update_of_ne hu, update_of_ne hu]
          exact h.own_move hvs hmain u
      worker := (hworker.leave (p := .out) (by simp [PostPlace.isWorker])).enter rfl
      hand := hmove (fun _ q => q.isWorker = true → q.hand = g.hand) h.hand
        (fun hout => by cases hout) (fun _ => hhand.symm)
      full := h.full
      value := h.value
      undone := h.undone
      fetching := by
        refine hmove (fun u q => q.isFetching = true ↔ g.phase = .fetching u) h.fetching ?_ ?_
        · rw [← h.fetching t, hplace]
          rfl
        · rw [← h.fetching 1, hplace1]
          rfl
      sending := hmove (fun _ q => q.SendOk) h.sending trivial trivial
      got := by
        refine hmove (fun u q => byThread u c.shared.taken =
          byThread u c.shared.received ++ q.got) h.got ?_ ?_
        · rw [h.got t, hplace]
          rfl
        · rw [h.got 1, hplace1]
          rfl
      facts := h.facts }

/-- The postal worker passes the `P` of `messageAvailable`. -/
theorem pass (h : PostInv netAddr o g c) (hvs : g.vs t = []) (hplace : g.place t = .polling)
    (hvalue : c.value (.sem o.messageAvailable) ≠ 0) :
    PostInv netAddr o { g with place := update g.place t .fetching, phase := .fetching t }
      ((c.take (.sem o.messageAvailable)).setOwn t (PostPlace.fetching.code o)) := by
  have hphase : g.phase = .ready := by
    by_contra hnot
    rw [h.value, if_neg hnot] at hvalue
    exact hvalue rfl
  have hworker : (g.place t).isWorker = true := by
    rw [hplace]
    rfl
  have hunit := h.value
  rw [hphase] at hunit
  exact
    { own := h.own_move hvs rfl
      worker := h.worker.stay (by rw [hplace]; rfl)
      hand := h.hand_move hworker (by rw [← h.hand t hworker, hplace]; rfl)
      full := by
        refine h.full.trans ?_
        rw [hphase]
        exact ⟨nofun, nofun⟩
      value := by
        show (c.take (.sem o.messageAvailable)).value (.sem o.messageAvailable) = 0
        rw [Config.take_self, hunit]
        rfl
      undone := fun u => by
        rw [h.undone u, hphase]
        rfl
      fetching := by
        refine (forall_update_iff g.place fun u q => q.isFetching = true ↔
          PacketPhase.fetching t = .fetching u).mpr ⟨iff_of_true rfl rfl, fun u hu => ?_⟩
        rw [h.fetching u, hphase]
        exact ⟨nofun, fun e => absurd (PacketPhase.fetching.inj e).symm hu⟩
      sending := h.sending_move trivial
      got := h.got_move (by rw [hplace]; rfl)
      facts := h.facts }

/-- The postal worker fetches the packet. -/
theorem fetch (h : PostInv netAddr o g c)
    (hvs : g.vs t = []) (hplace : g.place t = .fetching) (hdeliver : o.deliver c.shared = some r)
    (hown : c'.own = update c.own t ((postReserved o).inner (synchCode (r.2.map Instr.call))))
    (hvalue : c'.value = c.value) (hshared : c'.shared = r.1) :
    ∃ g', PostInv netAddr o g' c' := by
  have hphase : g.phase = .fetching t := (h.fetching t).mp (by rw [hplace]; rfl)
  have hworker : (g.place t).isWorker = true := by
    rw [hplace]
    rfl
  have hhand : g.hand = [] := by
    rw [← h.hand t hworker, hplace]
    rfl
  have hfull : c.shared.inHdr.length ≠ 0 := by
    intro hzero
    have hnone := h.full.mp hzero
    rw [hphase] at hnone
    cases hnone
  have hfacts := h.facts
  rw [hhand] at hfacts
  obtain ⟨mail, hcalls, hzero, htaken, hreceived, hnew⟩ := hfacts.fetch hfull hdeliver
  have hunit := h.value
  rw [hphase] at hunit
  refine ⟨{ g with place := update g.place t (.storing mail), hand := [mail], phase := .none }, ?_⟩
  exact
    { own := by
        refine h.own_move hvs ?_
        rw [hown, hcalls]
        rfl
      worker := h.worker.stay (by rw [hplace]; rfl)
      hand := h.hand_move hworker rfl
      full := by
        rw [hshared]
        exact iff_of_true hzero rfl
      value := by
        rw [hvalue, hunit]
        rfl
      undone := fun u => by
        rw [h.undone u, hphase]
        rfl
      fetching := by
        refine (forall_update_iff g.place fun u q => q.isFetching = true ↔
          PacketPhase.none = .fetching u).mpr ⟨⟨nofun, nofun⟩, fun u hu => ?_⟩
        rw [h.fetching u, hphase]
        exact ⟨fun e => absurd (PacketPhase.fetching.inj e).symm hu, nofun⟩
      sending := h.sending_move trivial
      got := by
        rw [hshared, htaken, hreceived]
        exact h.got_move (by rw [hplace]; rfl)
      facts := by
        rw [hshared]
        exact hnew }

/-- The postal worker appends the message to its list. -/
theorem append {mail : Mail} (h : PostInv netAddr o g c) (hvs : g.vs t = [])
    (hplace : g.place t = .appending mail)
    (hown : c'.own = update c.own t ((PostPlace.signalling mail.mailHdr.receiver).code o))
    (hvalue : c'.value = c.value)
    (hshared : c'.shared = { c.shared with
      boxes := update c.shared.boxes mail.mailHdr.receiver
        ((c.shared.boxes mail.mailHdr.receiver).append mail)
      put := c.shared.put ++ [mail] }) :
    PostInv netAddr o
      { g with place := update g.place t (.signalling mail.mailHdr.receiver), hand := [] } c' := by
  have hworker : (g.place t).isWorker = true := by
    rw [hplace]
    rfl
  have hhand : g.hand = [mail] := by
    rw [← h.hand t hworker, hplace]
    rfl
  have hfacts := h.facts
  rw [hhand] at hfacts
  exact
    { h with
      own := h.own_move hvs hown
      worker := h.worker.stay (by rw [hplace]; rfl)
      hand := h.hand_move hworker rfl
      full := by
        rw [hshared]
        exact h.full
      value := by rw [hvalue, h.value]
      fetching := h.fetching_move (by rw [hplace]; rfl)
      sending := h.sending_move trivial
      got := by
        rw [hshared]
        exact h.got_move (by rw [hplace]; rfl)
      facts := by
        rw [hshared]
        exact hfacts.append }

/-- A thread that is not the postal worker moves, and a message may move with it. -/
theorem move (h : PostInv netAddr o g c) (hvs : g.vs t = [])
    (hown : c'.own = update c.own t (p.code o)) (hvalue : c'.value = c.value)
    (hinHdr : c'.shared.inHdr = c.shared.inHdr) (hfrom : (g.place t).isWorker = false)
    (hto : p.isWorker = false) (hfetching : p.isFetching = (g.place t).isFetching)
    (hsend : p.SendOk)
    (hgot : ∀ u, u ≠ t → byThread u c'.shared.taken = byThread u c.shared.taken ∧
      byThread u c'.shared.received = byThread u c.shared.received)
    (hgot' : byThread t c'.shared.taken = byThread t c'.shared.received ++ p.got)
    (hfacts : PostFacts netAddr c'.shared g.hand) :
    PostInv netAddr o { g with place := update g.place t p } c' where
  own := h.own_move hvs hown
  worker := h.worker.stay (by rw [hfrom, hto])
  hand := by
    refine (forall_update_iff g.place fun _ q => q.isWorker = true → q.hand = g.hand).mpr
      ⟨?_, fun u _ => h.hand u⟩
    rw [hto]
    exact nofun
  full := by rw [hinHdr, h.full]
  value := by rw [hvalue, h.value]
  undone := h.undone
  fetching := h.fetching_move hfetching
  sending := h.sending_move hsend
  got := by
    refine (forall_update_iff g.place fun u q => byThread u c'.shared.taken =
      byThread u c'.shared.received ++ q.got).mpr ⟨hgot', fun u hu => ?_⟩
    rw [(hgot u hu).1, (hgot u hu).2, h.got u]
  facts := hfacts

/-- A handler does a `V` on another semaphore, or has some to do. -/
theorem handle (h : PostInv netAddr o g c)
    (hcount : ns.count o.messageAvailable = (g.vs t).count o.messageAvailable)
    (hown : c'.own = update c.own t (handled ns ((g.place t).code o)))
    (hvalue : c'.value (.sem o.messageAvailable) = c.value (.sem o.messageAvailable))
    (hshared : c.shared.SameMail c'.shared) :
    PostInv netAddr o { g with vs := update g.vs t ns } c' := by
  obtain ⟨hinHdr, htaken, hreceived⟩ := hshared.eq
  exact
    { h with
      own := h.own_handled hown
      full := by rw [hinHdr, h.full]
      value := hvalue.trans h.value
      undone := undone_stay h.undone hcount
      got := by
        rw [htaken, hreceived]
        exact h.got
      facts := h.facts.congr hshared }

/-- A packet comes from the socket, and the handler has a `V` to do. -/
theorem arrive {packet : Bytes} (h : PostInv netAddr o g c)
    (hempty : c.shared.inHdr.length = 0) (hproper : Proper (Header.load packet) (body packet))
    (hcount : ns.count o.messageAvailable = 1 + (g.vs t).count o.messageAvailable)
    (hown : c'.own = update c.own t (handled ns ((g.place t).code o)))
    (hvalue : c'.value = c.value)
    (hshared : c'.shared = { c.shared with
      inHdr := Header.load packet
      inbox := c.shared.inbox.copy 0 packet headerSize (Header.load packet).length.toNat
      arrived := c.shared.arrived ++ [packet] }) :
    PostInv netAddr o { g with vs := update g.vs t ns, phase := .undone t } c' := by
  have hphase : g.phase = .none := h.full.mp hempty
  have hunit := h.value
  rw [hphase] at hunit
  exact
    { h with
      own := h.own_handled hown
      full := by
        rw [hshared]
        exact iff_of_false hproper.length_ne_zero nofun
      value := by
        rw [hvalue, hunit]
        rfl
      undone := undone_raise undone_injective h.undone (by rw [hphase]; exact fun _ => nofun) hcount
      fetching := fun u => by
        rw [h.fetching u, hphase]
        exact ⟨nofun, nofun⟩
      got := by
        rw [hshared]
        exact h.got
      facts := by
        rw [hshared]
        exact h.facts.arrive hempty hproper }

/-- The handler does the `V` on `messageAvailable`. -/
theorem post (h : PostInv netAddr o g c) (hvs : g.vs t = o.messageAvailable :: ns) :
    PostInv netAddr o { g with vs := update g.vs t ns, phase := .ready }
      ((c.post (.sem o.messageAvailable)).setOwn t (handled ns ((g.place t).code o))) := by
  have hphase : g.phase = .undone t := by
    by_contra hnot
    have hcount := h.undone t
    rw [hvs, List.count_cons_self, if_neg hnot] at hcount
    cases hcount
  have hundone := h.undone
  have hunit := h.value
  rw [hphase] at hundone hunit
  exact
    { h with
      own := h.own_handled rfl
      full := by
        refine h.full.trans ?_
        rw [hphase]
        exact ⟨nofun, nofun⟩
      value := by
        show (c.post (.sem o.messageAvailable)).value (.sem o.messageAvailable) = 1
        rw [Config.post_self, hunit]
        rfl
      undone := undone_lower undone_injective hundone hvs
      fetching := fun u => by
        rw [h.fetching u, hphase]
        exact ⟨nofun, nofun⟩ }

/-- The step leaves the post office alone. -/
theorem outside (h : PostInv netAddr o g c) (hown : c'.own = c.own)
    (hvalue : c'.value (.sem o.messageAvailable) = c.value (.sem o.messageAvailable))
    (hshared : c'.shared = c.shared) : ∃ g', PostInv netAddr o g' c' := by
  have hcount : (g.vs 0).count o.messageAvailable = (g.vs 0).count o.messageAvailable := rfl
  refine ⟨_, h.handle (t := 0) hcount ?_ hvalue ?_⟩
  · rw [hown, ← h.own 0, update_eq_self]
  · rw [hshared]
    exact ⟨_, _, _, _, rfl⟩

/-- The calls of `Send`.  Behind the call of `Network::Send` the thread is out. -/
theorem inner_send (hdr : PacketHeader) (data : Bytes) (letter : Letter) :
    (postReserved o).inner (synchCode ([.acquire o.sendLock,
      .client (.networkSend hdr data letter), .p o.messageSent, .release o.sendLock].map
        Instr.call)) =
      ((PostPlace.sending hdr data letter).code o : List (Instr (PostCode ι))) := by
  have hrest : (postReserved o : Reserved (PostCode ι)).inner
      [.call (.p o.messageSent), .call (.release o.sendLock)] = [] := by
    refine Reserved.inner_eq_nil fun i hi => ?_
    simp only [List.mem_cons, List.not_mem_nil, or_false] at hi
    rcases hi with rfl | rfl
    · simp [Reserved.outside, Reserved.outsideCall, postReserved, o.available_ne_sent.symm]
    · simp [Reserved.outside, Reserved.outsideCall, postReserved]
  show (postReserved o).inner ([.call (.acquire o.sendLock),
    .call (.client (.networkSend hdr data letter))] ++
      [.call (.p o.messageSent), .call (.release o.sendLock)]) = _
  rw [Reserved.inner_append, hrest]
  rfl

/-- A thread outside calls `Send` or `Receive`, or executes other code of the
program. -/
theorem call {i : PostCode ι} (h : PostInv netAddr o g c) (hpolite : user.Polite o)
    (hown : c.own t = []) (hi : (postReserved o : Reserved (PostCode ι)).entry i = true)
    (hexec : (postOffice netAddr o user).exec s i c.shared = some r) :
    ∃ g', PostInv netAddr o g' ({ c with shared := r.1 }.setOwn t
      ((postReserved o).inner (synchCode (r.2.map Instr.call)))) := by
  obtain ⟨hvs, hcode⟩ := List.append_eq_nil_iff.mp ((h.own t).symm.trans hown)
  rw [List.map_eq_nil_iff] at hvs
  have hplace : g.place t = .out := PostPlace.eq_out_of_code hcode
  cases i with
  | send pktHdr mailHdr data =>
      simp only [postOffice, PostOffice.send] at hexec
      split at hexec
      case isFalse => cases hexec
      case isTrue hok =>
        cases hexec
        rw [inner_send]
        refine ⟨_, h.glide hvs rfl rfl ⟨_, _, _, _, rfl⟩ (by rw [hplace]; rfl) ?_⟩
        exact ⟨proper_mail _ data hok.1, ofPacket_mail _ _ mailHdr _ _ data⟩
  | receive box =>
      simp only [postOffice] at hexec
      split at hexec
      case isFalse => cases hexec
      case isTrue hok =>
        cases hexec
        exact ⟨_, h.glide (p := .removing box) hvs rfl rfl ⟨_, _, _, _, rfl⟩
          (by rw [hplace]; rfl) trivial⟩
  | user i =>
      obtain ⟨r', hr', rfl⟩ := Option.map_eq_some_iff.mp hexec
      rw [own_calls_outside (hpolite.exec s i _ r' hr')]
      exact ⟨_, h.glide (p := .out) hvs rfl rfl ⟨_, _, _, _, rfl⟩ (by rw [hplace]) trivial⟩
  | _ => cases hi

/-- A thread tests whether its mailbox is empty. -/
theorem test {box : MailBoxAddress} (h : PostInv netAddr o g c) (hvs : g.vs t = [])
    (hplace : g.place t = .testing box) (hs : s.currentThread = t)
    (hexec : (postOffice netAddr o user).exec s (.removeLoop box) c.shared = some r) :
    ∃ g', PostInv netAddr o g' ({ c with shared := r.1 }.setOwn t
      ((postReserved o).inner (synchCode (r.2.map Instr.call)))) := by
  cases hbox : c.shared.boxes box with
  | nil =>
      simp only [postOffice, PostOffice.removeLoop, hbox, NachosList.isEmpty, List.isEmpty_nil,
        if_true, Option.some.injEq] at hexec
      subst hexec
      exact ⟨_, h.glide (p := .waiting box) hvs rfl rfl ⟨_, _, _, _, rfl⟩ (by rw [hplace]; rfl)
        trivial⟩
  | cons e es =>
      have hloop : o.removeLoop (ι := ι) s.currentThread box c.shared = some
          ({ c.shared with
             boxes := update c.shared.boxes box es
             taken := c.shared.taken ++ [(s.currentThread, box, e.item)] },
            [.release (o.lock box), .client (.got box e.item)]) := by
        simp [PostOffice.removeLoop, hbox, NachosList.isEmpty]
      have hr := Option.some.inj (hloop.symm.trans hexec)
      rw [hs] at hr
      subst hr
      refine ⟨_, h.move (p := .leaving box e.item) hvs rfl rfl rfl (by rw [hplace]; rfl) rfl
        (by rw [hplace]; rfl) trivial (fun u hu => ⟨?_, rfl⟩) ?_ (h.facts.take hbox t)⟩
      · show byThread u (c.shared.taken ++ [(t, box, e.item)]) = _
        rw [byThread_append, if_neg (Ne.symm hu), List.append_nil]
      · show byThread t (c.shared.taken ++ [(t, box, e.item)]) =
          byThread t c.shared.received ++ [(box, e.item)]
        rw [byThread_append, if_pos rfl, h.got t, hplace]
        simp [PostPlace.got]

/-- A thread hands a packet to the network. -/
theorem networkSend {hdr : PacketHeader} {data : Bytes} {letter : Letter}
    (h : PostInv netAddr o g c) (hvs : g.vs t = []) (hplace : g.place t = .wiring hdr data letter)
    (hexec : (postOffice netAddr o user).exec s (.networkSend hdr data letter) c.shared = some r) :
    ∃ g', PostInv netAddr o g' ({ c with shared := r.1 }.setOwn t
      ((postReserved o).inner (synchCode (r.2.map Instr.call)))) := by
  have hsend := h.sending t
  rw [hplace] at hsend
  obtain ⟨y, hy, rfl⟩ := Option.map_eq_some_iff.mp hexec
  obtain ⟨hinHdr, htaken, hreceived, hfacts⟩ := h.facts.send hsend.1 hsend.2 hy
  refine ⟨_, h.move (p := .out) hvs rfl rfl hinHdr (by rw [hplace]; rfl) rfl
    (by rw [hplace]; rfl) trivial (fun u _ => ?_) ?_ hfacts⟩
  · show byThread u y.taken = _ ∧ byThread u y.received = _
    rw [htaken, hreceived]
    exact ⟨rfl, rfl⟩
  · show byThread t y.taken = byThread t y.received ++ _
    rw [htaken, hreceived, h.got t, hplace]
    rfl

/-- `Receive` returns the message that the thread has taken out of its mailbox. -/
theorem receiveReturn {box : MailBoxAddress} {mail : Mail} (h : PostInv netAddr o g c)
    (hvs : g.vs t = []) (hplace : g.place t = .returning box mail) (hs : s.currentThread = t)
    (hexec : (postOffice netAddr o user).exec s (.got box mail) c.shared = some r) :
    ∃ g', PostInv netAddr o g' ({ c with shared := r.1 }.setOwn t
      ((postReserved o).inner (synchCode (r.2.map Instr.call)))) := by
  have hgot := h.got t
  rw [hplace] at hgot
  simp only [postOffice] at hexec
  split at hexec
  case isFalse => cases hexec
  case isTrue =>
    cases hexec
    refine ⟨_, h.move (p := .out) hvs rfl rfl rfl (by rw [hplace]; rfl) rfl
      (by rw [hplace]; rfl) trivial (fun u hu => ⟨rfl, ?_⟩) ?_ ?_⟩
    · show byThread u (c.shared.received ++ [(s.currentThread, box, mail)]) = _
      rw [byThread_append, hs, if_neg (Ne.symm hu), List.append_nil]
    · show byThread t c.shared.taken =
        byThread t (c.shared.received ++ [(s.currentThread, box, mail)]) ++ _
      rw [byThread_append, hs, if_pos rfl, hgot]
      simp [PostPlace.got]
    · exact
        { letters := h.facts.letters
          proper := h.facts.proper
          boxes := h.facts.boxes
          wired := h.facts.wired
          sent := h.facts.sent }

/-- A thread executes code of the post office, with no handler before it. -/
theorem executeCode {i : Instr (PostCode ι)} {own : List (Instr (PostCode ι))}
    (h : PostInv netAddr o g c) (hvs : g.vs t = []) (hcode : (g.place t).code o = i :: own)
    (hexec : Config.Executes (postReserved o) (postOffice netAddr o user) t c own c' i) :
    ∃ g', PostInv netAddr o g' c' := by
  have hlock : ∀ l, SemId.sem o.messageAvailable ≠ .lock l := fun _ => nofun
  cases hplace : g.place t with
  | out =>
      rw [hplace] at hcode
      cases hcode
  | building =>
      rw [hplace] at hcode
      cases hcode
      obtain ⟨_, hfresh, rfl⟩ := hexec
      exact ⟨_, h.fork hvs hplace hfresh⟩
  | starting =>
      rw [hplace] at hcode
      cases hcode
      obtain ⟨s, r, _, hr, rfl⟩ := hexec
      cases hr
      exact ⟨_, h.glide (p := .polling) hvs rfl rfl ⟨_, _, _, _, rfl⟩ (by rw [hplace]; rfl) trivial⟩
  | polling =>
      rw [hplace] at hcode
      cases hcode
      obtain ⟨hvalue, rfl⟩ := hexec
      exact ⟨_, h.pass hvs hplace hvalue⟩
  | fetching =>
      rw [hplace] at hcode
      cases hcode
      obtain ⟨s, r, _, hr, rfl⟩ := hexec
      exact h.fetch hvs hplace hr rfl rfl rfl
  | storing mail =>
      rw [hplace] at hcode
      cases hcode
      obtain ⟨_, rfl⟩ := hexec
      exact ⟨_, h.glide (p := .appending mail) hvs rfl
        (Config.take_of_ne (hlock (o.lock mail.mailHdr.receiver)) c) ⟨_, _, _, _, rfl⟩
        (by rw [hplace]; rfl) trivial⟩
  | appending mail =>
      rw [hplace] at hcode
      cases hcode
      obtain ⟨s, r, _, hr, rfl⟩ := hexec
      cases hr
      exact ⟨_, h.append hvs hplace rfl rfl rfl⟩
  | signalling box =>
      rw [hplace] at hcode
      cases hcode
      rcases hexec with rfl | rfl
      all_goals
        exact ⟨_, h.glide (p := .releasing box) hvs rfl rfl ⟨_, _, _, _, rfl⟩
          (by rw [hplace]; rfl) trivial⟩
  | releasing box =>
      rw [hplace] at hcode
      cases hcode
      cases hexec
      exact ⟨_, h.glide (p := .starting) hvs rfl (Config.post_of_ne (hlock (o.lock box)) c)
        ⟨_, _, _, _, rfl⟩ (by rw [hplace]; rfl) trivial⟩
  | sending hdr data letter =>
      have hsend := h.sending t
      rw [hplace] at hcode hsend
      cases hcode
      obtain ⟨_, rfl⟩ := hexec
      exact ⟨_, h.glide (p := .wiring hdr data letter) hvs rfl
        (Config.take_of_ne (hlock o.sendLock) c) ⟨_, _, _, _, rfl⟩ (by rw [hplace]; rfl) hsend⟩
  | wiring hdr data letter =>
      rw [hplace] at hcode
      cases hcode
      obtain ⟨s, r, _, hr, rfl⟩ := hexec
      exact h.networkSend hvs hplace hr
  | removing box =>
      rw [hplace] at hcode
      cases hcode
      obtain ⟨_, rfl⟩ := hexec
      exact ⟨_, h.glide (p := .testing box) hvs rfl (Config.take_of_ne (hlock (o.lock box)) c)
        ⟨_, _, _, _, rfl⟩ (by rw [hplace]; rfl) trivial⟩
  | testing box =>
      rw [hplace] at hcode
      cases hcode
      obtain ⟨s, r, hs, hr, rfl⟩ := hexec
      exact h.test hvs hplace hs hr
  | waiting box =>
      rw [hplace] at hcode
      cases hcode
      cases hexec
      exact ⟨_, h.glide (p := .queueing box) hvs rfl (Config.post_of_ne (hlock (o.lock box)) c)
        ⟨_, _, _, _, rfl⟩ (by rw [hplace]; rfl) trivial⟩
  | queueing box =>
      rw [hplace] at hcode
      cases hcode
      cases hexec
      exact ⟨_, h.glide (p := .removing box) hvs rfl rfl ⟨_, _, _, _, rfl⟩ (by rw [hplace]; rfl)
        trivial⟩
  | leaving box mail =>
      rw [hplace] at hcode
      cases hcode
      cases hexec
      exact ⟨_, h.glide (p := .returning box mail) hvs rfl
        (Config.post_of_ne (hlock (o.lock box)) c) ⟨_, _, _, _, rfl⟩ (by rw [hplace]; rfl) trivial⟩
  | returning box mail =>
      rw [hplace] at hcode
      cases hcode
      obtain ⟨s, r, hs, hr, rfl⟩ := hexec
      exact h.receiveReturn hvs hplace hs hr

/-- A thread executes code of the post office or of a handler. -/
theorem execute {i : Instr (PostCode ι)}
    {own : List (Instr (PostCode ι))} (h : PostInv netAddr o g c) (hown : c.own t = i :: own)
    (hexec : Config.Executes (postReserved o) (postOffice netAddr o user) t c own c' i) :
    ∃ g', PostInv netAddr o g' c' := by
  rcases handled_eq_cons ((h.own t).symm.trans hown) with ⟨n, ns, hvs, rfl, rfl⟩ | ⟨hvs, hcode⟩
  · cases hexec
    by_cases hn : n = o.messageAvailable
    · rw [hn] at hvs ⊢
      exact ⟨_, h.post hvs⟩
    · refine ⟨_, h.handle ?_ rfl (Config.post_of_ne ?_ c) ⟨_, _, _, _, rfl⟩⟩
      · rw [hvs, List.count_cons_of_ne hn]
      · intro heq
        exact hn (SemId.sem.inj heq).symm
  · exact h.executeCode hvs hcode hexec

/-- A device acts.  A packet that it reads from the socket is a proper one. -/
theorem device {d : PostInterrupt η} {r : PostData σ × List Nat}
    (h : PostInv netAddr o g c) (hpolite : user.Polite o)
    (hproper : ∀ packet ∈ r.1.arrived, Proper (Header.load packet) (body packet))
    (hexec : (postOffice netAddr o user).handler d c.shared = some r) :
    ∃ g', PostInv netAddr o g' ({ c with shared := r.1 }.setOwn t
      ((postReserved o).join (handled r.2 []) (c.own t))) := by
  obtain ⟨vs, hjoin, hcount⟩ := (postReserved o).join_handled r.2 (g.vs t)
    ((g.place t).code o : List (Instr (PostCode ι)))
  have hcount := hcount o.messageAvailable (by simp [postReserved])
  rw [h.own t, hjoin]
  -- A handler without a `V` on `messageAvailable` leaves the letters where they are.
  have hother : o.messageAvailable ∉ r.2 → c.shared.SameMail r.1 →
      ∃ g', PostInv netAddr o g' ({ c with shared := r.1 }.setOwn t
        (handled vs ((g.place t).code o))) := by
    intro hnot hsame
    rw [List.count_eq_zero.mpr hnot, Nat.zero_add] at hcount
    exact ⟨_, h.handle hcount rfl rfl hsame⟩
  cases d with
  | readPoll packet =>
      simp only [postOffice, PostData.checkPktAvail] at hexec
      split at hexec
      case isTrue =>
        cases hexec
        exact hother nofun ⟨_, _, _, _, rfl⟩
      case isFalse hempty =>
        cases packet with
        | none =>
            cases hexec
            exact hother nofun ⟨_, _, _, _, rfl⟩
        | some packet =>
            simp only at hexec
            split at hexec
            case isFalse => cases hexec
            case isTrue =>
              cases hexec
              rw [List.count_singleton_self] at hcount
              refine ⟨_, h.arrive (not_not.mp hempty) (hproper packet ?_) hcount rfl rfl rfl⟩
              exact List.mem_append_right _ (List.mem_singleton_self packet)
  | sendDone =>
      simp only [postOffice, PostData.sendDone] at hexec
      split at hexec
      case isTrue => cases hexec
      case isFalse =>
        cases hexec
        refine hother ?_ ⟨_, _, _, _, rfl⟩
        rw [List.mem_singleton]
        exact o.available_ne_sent
  | user d =>
      obtain ⟨r', hr', rfl⟩ := Option.map_eq_some_iff.mp hexec
      exact hother (hpolite.handler d _ r' hr') ⟨_, _, _, _, rfl⟩

/-- Every step keeps the invariant, if only proper packets come from the socket. -/
theorem step (h : PostInv netAddr o g c) (hpolite : user.Polite o)
    (hproper : ∀ packet ∈ c'.shared.arrived, Proper (Header.load packet) (body packet))
    (hstep : Config.Step (postReserved o) (postOffice netAddr o user) t c c') :
    ∃ g', PostInv netAddr o g' c' := by
  cases hstep with
  | outside hown hvalue hqueue hshared =>
      exact h.outside hown (hvalue _ (by simp [postReserved])) hshared
  | enter s hown hi hs hexec => exact h.call hpolite hown hi hexec
  | exec hown hexec => exact h.execute hown hexec
  | device hexec => exact h.device hpolite hproper hexec

end PostInv

/-! ## The constructor -/

/-- The data after the constructors of `Network` and `PostOffice`.  The constructors
leave the rest of `inHdr`, `inbox` and the buffer of the worker open. -/
def PostData.init (inHdr : PacketHeader) (inbox buffer : Bytes) (user : σ) : PostData σ where
  sendBusy := false
  inHdr := { inHdr with length := 0 }
  inbox := inbox
  scheduled := 0
  randoms := 0
  buffers := 0
  buffer := buffer
  boxes _ := []
  user := user
  sent := []
  wired := []
  arrived := []
  put := []
  taken := []
  received := []

/-- The machine with a new post office.  Its main thread goes on to fork the postal
worker. -/
def PostOffice.start (o : PostOffice) (initialValue : Nat → Int)
    (holding : Nat → Option ThreadPtr) (x : PostData σ) : Kernel (PostCode ι) (PostData σ) :=
  (Kernel.init
    (fun n => if n = o.messageAvailable ∨ n = o.messageSent then 0 else initialValue n)
    holding x).setCode [.call (.newThread 255), .call (.fork 1 .postalDelivery)]

section Start

variable (o : PostOffice) (initialValue : Nat → Int) (holding : Nat → Option ThreadPtr)

theorem control_start (x : PostData σ) :
    (o.start initialValue holding x : Kernel (PostCode ι) (PostData σ)).Control := by
  have hstep : (Kernel.init
      (fun n => if n = o.messageAvailable ∨ n = o.messageSent then 0 else initialValue n)
      holding x).step (⟨fun _ _ _ => none, fun d _ => d.elim⟩ : Program (PostCode ι) _ Empty)
        (.start [.newThread 255, .fork 1 .postalDelivery]) =
      some (o.start initialValue holding x) := rfl
  exact Kernel.control_step (Kernel.control_init _ _ _) (by exact trivial) hstep

theorem postInv_start (netAddr : NetworkAddress) (inHdr : PacketHeader) (inbox buffer : Bytes)
    (user : σ) : ∃ g, PostInv netAddr o g
      ((o.start initialValue holding (.init inHdr inbox buffer user) :
        Kernel (PostCode ι) (PostData σ)).config (postReserved o)) := by
  refine ⟨⟨update (fun _ => .out) 0 .building, fun _ => [], some 0, [], .none⟩, ?_⟩
  have hout : Sole (fun p : PostPlace => p.isWorker = true) (fun _ : ThreadPtr => .out) none :=
    fun _ => ⟨nofun, nofun⟩
  exact
    { own := by
        intro t
        by_cases ht : t = 0
        · subst ht
          rfl
        · show (postReserved o).own (synchCode (update (fun _ => []) 0 _ t)) =
            (update (fun _ => PostPlace.out) 0 .building t).code o
          rw [update_of_ne ht, update_of_ne ht]
          rfl
      worker := hout.enter rfl
      hand := (forall_update_iff _ fun _ (q : PostPlace) => q.isWorker = true → q.hand = []).mpr
        ⟨fun _ => rfl, fun _ _ => nofun⟩
      full := iff_of_true rfl rfl
      value := if_pos (Or.inl rfl)
      undone := fun _ => rfl
      fetching := (forall_update_iff _ fun u (q : PostPlace) => q.isFetching = true ↔
        PacketPhase.none = .fetching u).mpr ⟨⟨nofun, nofun⟩, fun _ _ => ⟨nofun, nofun⟩⟩
      sending := (forall_update_iff _ fun _ (q : PostPlace) => q.SendOk).mpr
        ⟨trivial, fun _ _ => trivial⟩
      got := (forall_update_iff _ fun _ (q : PostPlace) => [] = [] ++ q.got).mpr
        ⟨rfl, fun _ _ => rfl⟩
      facts :=
        { letters := rfl
          proper := fun hne => absurd rfl hne
          boxes := fun _ => rfl
          wired := nofun
          sent := List.Sublist.refl _ } }

end Start

end Nachos.Network
