import InternetOs.Net.Handshake

/-!
# Waiting for a connection (`tcp_acquiresleep`, `kernel/lock/sleeplock.c`)

A process in `connect` or `accept` tests the state of the block, takes the block's sleep lock
and polls until it no longer holds it; the handler that establishes the connection releases the
lock.  The three are steps of their own, and a segment may be handled between any two.  If the
connection is established between the test and the acquisition, the release comes too early and
the process polls for ever (lostWakeup_gap).

    no process waits with the lock on an established block,
      if no segment establishes it while a process is in that gap          (noLostWakeup)
-/

namespace InternetOs.Net

open SockCbState

/-! ## The sleep lock -/

structure SleepLock where
  locked : Bool
  pid : Nat
  deriving DecidableEq

/-- `acquiresleep` by the process `pid`; it sleeps while the lock is taken. -/
def acquiresleep (lk : SleepLock) (pid : Nat) : Option SleepLock :=
  if lk.locked then none else some { locked := true, pid := pid }

/-- `releasesleep`; it does not ask who holds the lock. -/
def releasesleep : SleepLock := { locked := false, pid := 0 }

def holdingsleep (lk : SleepLock) (pid : Nat) : Bool := lk.locked && lk.pid == pid

/-! ## Where `tcp_recv` releases it -/

/-- `tcp_recv_syn_sent` gets to its `releasesleep`. -/
def synSentReleases (scb : SockCb) (hdr : TcpHdr) : Bool :=
  !(tcpFlgIsset hdr.flg tcpFlgAck && (hdr.ack ≤ scb.snd.initSeq || hdr.ack > scb.snd.nxtSeq)) &&
    !tcpFlgIsset hdr.flg tcpFlgRst && (tcpFlgIsset hdr.flg tcpFlgSyn && tcpFlgIsset hdr.flg tcpFlgAck) &&
    hdr.ack > scb.snd.initSeq

/-- `tcp_recv_core` gets to the `releasesleep` of `check_ack`. -/
def coreReleases (scb : SockCb) (hdr : TcpHdr) (len : UInt16) : Bool :=
  let rst := checkRst scb hdr.flg
  isSeqValid scb.rcv.wnd scb.rcv.nxtSeq hdr.seq (tcpDataLen hdr len) &&
    (rst.2 != .closeScb && rst.2 != .err) && checkSyn rst.1 hdr.flg != .sndRst &&
    tcpFlgIsset hdr.flg tcpFlgAck && rst.1.state == .synRcvd && isValidNxtack rst.1 hdr.ack

def tcpRecvReleases (scb : SockCb) (hdr : TcpHdr) (len : UInt16) : Bool :=
  match scb.state with
  | .closed | .listen => false
  | .synSent => synSentReleases scb hdr
  | _ => coreReleases scb hdr len

/-! ## Waiting processes -/

/-- Where a process is: before `tcp_acquiresleep`, at its test, between the test and `acquiresleep`,
in the polling loop, or back with a result. -/
inductive WaitPc
  | out | called | tested | polling
  | done (ret : Int)
  deriving DecidableEq

/-- A block with the processes that wait for it, by pid.  `freed` is set when `tcp_recv` has freed
the block; `released` is a ghost, set by the handler's `releasesleep`. -/
structure Wait where
  c : Conn
  nonblockable : Bool
  slock : SleepLock
  pc : Nat → WaitPc
  freed : Bool
  released : Bool

inductive WaitEv
  | connect (pid : Nat)
  | accept (pid : Nat)
  | test (pid : Nat)
  | acquire (pid : Nat)
  | poll (pid : Nat) (killed : Bool)
  | recv (m : Mbuf) (len : UInt16) (raddr : UInt32)

namespace Wait

def init (c : Conn) (nonblockable : Bool) : Wait :=
  { c := c, nonblockable := nonblockable, slock := releasesleep, pc := fun _ => .out
    freed := false, released := false }

def setPc (s : Wait) (pid : Nat) (pc : WaitPc) : Wait := { s with pc := Function.update s.pc pid pc }

/-- No call of this process is going on. -/
def ready (s : Wait) (pid : Nat) : Bool :=
  match s.pc pid with
  | .out | .done _ => true
  | _ => false

/-- `tcp_connect` up to `tcp_acquiresleep`. -/
def connect (s : Wait) (pid : Nat) : Option Wait :=
  if s.ready pid then
    match tcpConnect s.c with
    | none => some (s.setPc pid (.done (-1)))
    | some c => some ({ s with c := c }.setPc pid .called)
  else none

/-- The first critical section of `tcp_acquiresleep`. -/
def test (s : Wait) (pid : Nat) : Option Wait :=
  if s.pc pid = .called then
    if s.c.scb.state = .estab then some (s.setPc pid (.done 0))
    else if s.nonblockable then
      if s.c.scb.state = .synRcvd then some (s.setPc pid (.done 0)) else some (s.setPc pid (.done (-1)))
    else some (s.setPc pid .tested)
  else none

def acquire (s : Wait) (pid : Nat) : Option Wait :=
  if s.pc pid = .tested then
    (acquiresleep s.slock pid).map fun lk => { s with slock := lk }.setPc pid .polling
  else none

/-- One turn of the polling loop. -/
def poll (s : Wait) (pid : Nat) (killed : Bool) : Option Wait :=
  if s.pc pid = .polling then
    if killed then some ({ s with slock := releasesleep }.setPc pid (.done (-1)))
    else if !holdingsleep s.slock pid then some (s.setPc pid (.done 0))
    else some s
  else none

/-- `tcp_recv` of a segment for this block. -/
def recv (s : Wait) (m : Mbuf) (len : UInt16) (raddr : UInt32) : Wait :=
  if wrongPeer s.c.scb m.tcphdr.sport then s
  else
    let r := tcpRecvSwitch (s.c.newMbuf m) s.c.brk len raddr m.tcphdr.sport
    let rel := tcpRecvReleases s.c.scb m.tcphdr len
    { s with
      c := r.1
      slock := if rel then releasesleep else s.slock
      freed := r.2
      released := s.released || rel }

def step (s : Wait) (e : WaitEv) : Option Wait :=
  if s.freed then none
  else
    match e with
    | .connect pid => s.connect pid
    | .accept pid => if s.ready pid then some (s.setPc pid .called) else none
    | .test pid => s.test pid
    | .acquire pid => s.acquire pid
    | .poll pid killed => s.poll pid killed
    | .recv m len raddr => some (s.recv m len raddr)

def Step (s : Wait) (e : WaitEv) (s' : Wait) : Prop := s.step e = some s'

/-- The process polls with the lock held, though the connection is established and the handler has
released the lock. -/
def Lost (s : Wait) (pid : Nat) : Prop :=
  s.c.scb.state = estab ∧ s.released = true ∧ s.pc pid = .polling ∧ holdingsleep s.slock pid = true

end Wait

/-! ## What establishes a connection -/

/-- The answer to the block's SYN, or the acknowledgement of the answer it gave to one. -/
def Establishes (scb : SockCb) (hdr : TcpHdr) (len : UInt16) : Prop :=
  tcpFlgIsset hdr.flg tcpFlgAck = true ∧ tcpFlgIsset hdr.flg tcpFlgRst = false ∧
    ((scb.state = synSent ∧ tcpFlgIsset hdr.flg tcpFlgSyn = true ∧ scb.snd.initSeq < hdr.ack ∧
        hdr.ack ≤ scb.snd.nxtSeq) ∨
      (scb.state = synRcvd ∧ tcpFlgIsset hdr.flg tcpFlgSyn = false ∧
        isSeqValid scb.rcv.wnd scb.rcv.nxtSeq hdr.seq (tcpDataLen hdr len) = true ∧
        isValidNxtack scb hdr.ack = true))

section
variable {c : Conn} {m : Nat} {scb : SockCb} {hdr : TcpHdr} {len : UInt16}

theorem checkRst_noRst (hf : tcpFlgIsset hdr.flg tcpFlgRst = false) : checkRst scb hdr.flg = (scb, .ok) := by
  unfold checkRst
  rw [hf]
  rfl

theorem Establishes.releases (h : Establishes scb hdr len) : tcpRecvReleases scb hdr len = true := by
  obtain ⟨ha, hr, ⟨hs, hsyn, hlo, hhi⟩ | ⟨hs, hsyn, hv, hack⟩⟩ := h
  · unfold tcpRecvReleases
    rw [hs]
    simp only [synSentReleases, ha, hr, hsyn, Bool.true_and, Bool.and_true, Bool.not_false,
      Bool.and_eq_true, Bool.not_eq_true', Bool.or_eq_false_iff, decide_eq_false_iff_not, decide_eq_true_eq,
      gt_iff_lt, UInt32.not_le, UInt32.not_lt]
    exact ⟨⟨hlo, hhi⟩, hlo⟩
  · unfold tcpRecvReleases
    have hnosyn : checkSyn scb hdr.flg = .ok := by
      unfold checkSyn
      rw [hs, hsyn]
      rfl
    simp only [coreReleases, checkRst_noRst hr, hv, hnosyn, ha, hs, hack]
    decide

/-- What `check_ack` makes of a block, the rest of `tcp_recv_core` only moves away from ESTAB. -/
theorem core_estab (h3 : c.scb.state ≠ synSent) (he : (tcpRecvCore c m len).1.scb.state = estab) :
    c.scb.state = estab ∨ (isSeqValid c.scb.rcv.wnd c.scb.rcv.nxtSeq (c.hdr m).seq (tcpDataLen (c.hdr m) len) = true ∧
        (c.acked m).1.state = estab) := by
  have hout := tcpRecvCore_outcome c m len
  generalize (tcpRecvCore c m len).2 = op at hout
  cases hout with
  | badSeq _ hc | syn _ hc => exact .inl (hc.scb ▸ he)
  | rst hf hc => exact absurd (hc.scb ▸ he) (checkRst_state hf h3).2
  | ackClose hv _ hc | ackStop hv _ _ hc | noText hv _ _ hc | drop hv _ _ hc => exact .inr ⟨hv, hc.scb ▸ he⟩
  | text hv ha hs ht hscb =>
    rw [hscb] at he
    exact .inr ⟨hv, he⟩
  | fin hv ha hs ht hf hc =>
    rw [hc.scb] at he
    cases he
  | finClose hv ha hs ht hf hc =>
    rw [hc.scb] at he
    exact .inr ⟨hv, he⟩

theorem core_rst_syn (hs : c.scb.state = synRcvd) (he : (tcpRecvCore c m len).1.scb.state = estab) :
    tcpFlgIsset (c.hdr m).flg tcpFlgRst = false ∧ tcpFlgIsset (c.hdr m).flg tcpFlgSyn = false := by
  have hseq : isSeqValid c.scb.rcv.wnd c.scb.rcv.nxtSeq (c.hdr m).seq (tcpDataLen (c.hdr m) len) = true := by
    rcases core_estab (by rw [hs]; decide) he with h | h
    · rw [hs] at h
      cases h
    · exact h.1
  unfold tcpRecvCore at he
  unfold Conn.hdr at hseq ⊢
  dsimp only at he
  rw [if_neg (by rw [hseq]; decide)] at he
  have hrst : tcpFlgIsset (c.mbufs m).tcphdr.flg tcpFlgRst = false := by
    by_contra hf
    rw [Bool.not_eq_false] at hf
    have hc : checkRst c.scb (c.mbufs m).tcphdr.flg = ({ c.scb with state := listen }, .closeScb) := by
      unfold checkRst
      rw [if_pos hf, hs]
    rw [hc] at he
    cases he
  refine ⟨hrst, ?_⟩
  by_contra hf
  rw [Bool.not_eq_false] at hf
  have hsyn : checkSyn c.scb (c.mbufs m).tcphdr.flg = .sndRst := by
    unfold checkSyn
    rw [hs, if_pos hf]
  rw [checkRst_noRst hrst] at he
  rw [if_pos hsyn] at he
  exact absurd (hs.symm.trans he) (by decide)

theorem synSent_establishes (hs : c.scb.state = synSent) (he : (tcpRecvSynSent c m).1.scb.state = estab) :
    Establishes c.scb (c.hdr m) len := by
  have hrst : tcpFlgIsset (c.hdr m).flg tcpFlgRst = false := by
    by_contra hf
    rw [Bool.not_eq_false] at hf
    have hsame : (tcpRecvSynSent c m).1.scb.state = c.scb.state := by
      unfold tcpRecvSynSent
      dsimp only
      split
      · rfl
      · have hf : tcpFlgIsset (c.mbufs m).tcphdr.flg tcpFlgRst = true := hf
        rw [if_pos hf]
    rw [hsame, hs] at he
    cases he
  have hout := tcpRecvSynSent_outcome c m
  cases hout with
  | stay hc =>
    rw [hc.scb, hs] at he
    cases he
  | badAck hc =>
    rw [hc.scb] at he
    exact absurd (hs.symm.trans he) (by decide)
  | synAck hf ha hlo hhi hc => exact ⟨ha, hrst, .inl ⟨hs, hf, hlo, hhi⟩⟩

theorem switch_establishes {raddr : UInt32} {dport : UInt16}
    (he : (tcpRecvSwitch c m len raddr dport).1.scb.state = estab) :
    c.scb.state = estab ∨ Establishes c.scb (c.hdr m) len := by
  by_cases h1 : c.scb.state = closed
  · unfold tcpRecvSwitch at he
    rw [h1] at he
    exact .inl he
  by_cases h2 : c.scb.state = listen
  · unfold tcpRecvSwitch at he
    rw [h2] at he
    have hout := tcpRecvListen_outcome c m raddr dport
    cases hout with
    | stay hc => exact .inl (hc.scb ▸ he)
    | syn hf hc =>
      rw [hc.scb] at he
      cases he
  by_cases h3 : c.scb.state = synSent
  · unfold tcpRecvSwitch at he
    rw [h3] at he
    exact .inr (synSent_establishes h3 he)
  rw [tcpRecvSwitch_core h1 h2 h3] at he
  rcases core_estab h3 he with h | ⟨hseq, hack⟩
  · exact .inl h
  have hout := c.acked_outcome m
  generalize (c.acked m).1.state = st at hout hack
  generalize (c.acked m).2 = op at hout
  cases hout with
  | stay => exact .inl hack
  | estab hs hf hv =>
    obtain ⟨hrst, hsyn⟩ := core_rst_syn hs he
    exact .inr ⟨hf, hrst, .inr ⟨hs, hsyn, hseq, hv⟩⟩
  | finWait2 | closing | lastAck => cases hack

end

/-! ## The invariant -/

namespace Wait

/-- No segment establishes the connection while a process is between its test and `acquiresleep`. -/
def NotInGap (s : Wait) : WaitEv → Prop
  | .recv m len _ => wrongPeer s.c.scb m.tcphdr.sport = false → Establishes s.c.scb m.tcphdr len →
      ∀ pid, s.pc pid ≠ .tested
  | _ => True

/-- A process that has seen the block not established, or that holds the lock, is right about it. -/
structure Inv (s : Wait) : Prop where
  gap : ∀ pid, s.pc pid = .tested → s.c.scb.state ≠ estab
  hold : ∀ pid, s.pc pid = .polling → holdingsleep s.slock pid = true → s.c.scb.state ≠ estab

section
variable {s s' : Wait} {pid : Nat}

theorem not_holding (pid : Nat) : ¬ holdingsleep releasesleep pid = true := by
  simp [holdingsleep, releasesleep]

/-- A process that moves to a place where it neither has tested nor polls. -/
theorem Inv.setPc (h : s.Inv) {pc : WaitPc} (h1 : pc ≠ .tested) (h2 : pc ≠ .polling) : (s.setPc pid pc).Inv := by
  have hpc : ∀ q pc', (s.setPc pid pc).pc q = pc' → pc ≠ pc' → s.pc q = pc' := by
    intro q pc' hq hne
    by_cases hqp : q = pid
    · subst hqp
      exact absurd ((Function.update_self ..).symm.trans hq) hne
    · exact (Function.update_of_ne hqp ..).symm.trans hq
  exact ⟨fun q hq => h.gap q (hpc q _ hq h1), fun q hq hl => h.hold q (hpc q _ hq h2) hl⟩

theorem Inv.release (h : s.Inv) : { s with slock := releasesleep }.Inv :=
  ⟨h.gap, fun pid _ hl => absurd hl (not_holding pid)⟩

theorem Inv.connect (h : s.Inv) (hs : s.connect pid = some s') : s'.Inv := by
  unfold Wait.connect at hs
  split_ifs at hs
  split at hs
  · cases hs
    exact h.setPc (by decide) (by decide)
  · next c hc =>
    cases hs
    have hst : c.scb.state = synSent := by
      unfold tcpConnect at hc
      split_ifs at hc
      rw [← Option.some.inj hc]
    have hi : { s with c := c }.Inv := by
      refine ⟨fun _ _ => ?_, fun _ _ _ => ?_⟩
      all_goals
        rw [hst]
        decide
    exact hi.setPc (by decide) (by decide)

theorem Inv.test (h : s.Inv) (hs : s.test pid = some s') : s'.Inv := by
  unfold Wait.test at hs
  split_ifs at hs with h1 h2 h3 h4
  · cases hs
    exact h.setPc (by decide) (by decide)
  · cases hs
    exact h.setPc (by decide) (by decide)
  · cases hs
    exact h.setPc (by decide) (by decide)
  · cases hs
    exact ⟨fun _ _ => h2, fun _ _ _ => h2⟩

theorem Inv.acquire (h : s.Inv) (hs : s.acquire pid = some s') : s'.Inv := by
  unfold Wait.acquire at hs
  split_ifs at hs with ht
  obtain ⟨lk, -, rfl⟩ := Option.map_eq_some_iff.mp hs
  exact ⟨fun _ _ => h.gap pid ht, fun _ _ _ => h.gap pid ht⟩

theorem Inv.poll (h : s.Inv) {killed : Bool} (hs : s.poll pid killed = some s') : s'.Inv := by
  unfold Wait.poll at hs
  split_ifs at hs
  · cases hs
    exact h.release.setPc (by decide) (by decide)
  · cases hs
    exact h.setPc (by decide) (by decide)
  · cases hs
    exact h

theorem Inv.recv (h : s.Inv) {m : Mbuf} {len : UInt16} {raddr : UInt32} (hg : s.NotInGap (.recv m len raddr)) :
    (s.recv m len raddr).Inv := by
  unfold Wait.recv
  split_ifs with hw
  · exact h
  rw [Bool.not_eq_true] at hw
  have hest : (tcpRecvSwitch (s.c.newMbuf m) s.c.brk len raddr m.tcphdr.sport).1.scb.state = estab →
      s.c.scb.state = estab ∨ Establishes s.c.scb m.tcphdr len := by
    intro he
    have hor := switch_establishes he
    rw [Conn.newMbuf_hdr] at hor
    exact hor
  constructor
  · intro pid hp he
    rcases hest he with hold | hnew
    · exact h.gap pid hp hold
    · exact hg hw hnew pid hp
  · intro pid hp hl he
    dsimp only at hl
    rcases hest he with hold | hnew
    · -- established before: the process did not hold the lock then
      split_ifs at hl
      · exact not_holding pid hl
      · exact h.hold pid hp hl hold
    · rw [if_pos hnew.releases] at hl
      exact not_holding pid hl

theorem Inv.step (h : s.Inv) {e : WaitEv} (hs : guard NotInGap Step s e s') : s'.Inv := by
  obtain ⟨hg, hs⟩ := hs
  unfold Step Wait.step at hs
  split_ifs at hs
  cases e with
  | connect pid => exact h.connect hs
  | accept pid =>
    dsimp only at hs
    split_ifs at hs
    cases hs
    exact h.setPc (by decide) (by decide)
  | test pid => exact h.test hs
  | acquire pid => exact h.acquire hs
  | poll pid killed => exact h.poll hs
  | recv m len raddr =>
    cases hs
    exact h.recv hg

theorem inv_init (c : Conn) (nonblockable : Bool) : (init c nonblockable).Inv :=
  ⟨fun _ h => (by cases h), fun _ h => (by cases h)⟩

end

end Wait

/-- **No lost wakeup.**  In every run from any block, with any number of processes in `connect` and `accept`, in
which no segment establishes the connection while a process is between its test and `acquiresleep`, no process
polls with the lock held on a connection that is established and whose handler has released the lock. -/
theorem noLostWakeup {c : Conn} {nonblockable : Bool} {evs : List WaitEv} {s : Wait}
    (hrun : Run (guard Wait.NotInGap Wait.Step) (.init c nonblockable) evs s) (pid : Nat) : ¬ s.Lost pid := by
  rintro ⟨hst, -, hp, hl⟩
  have h : s.Inv := hrun.inv (fun _ _ _ h hs => h.step hs) (Wait.inv_init c nonblockable)
  exact h.hold pid hp hl hst

/-- A block as `sockconnect` passes it to `tcp_connect`. -/
def connectingConn : Conn :=
  { scb := allocSockCb 1 9 20000 80 .tcp, mbufs := fun _ => emptyMbuf, brk := 1, out := [], pushed := [] }

/-- The answer comes while the process polls. -/
theorem noLostWakeup_polling : ∃ s, Run (guard Wait.NotInGap Wait.Step) (.init connectingConn false)
      [.connect 1, .test 1, .acquire 1, .recv sampleSynAck 20 9] s ∧
    s.c.scb.state = estab ∧ s.released = true ∧ ¬ s.Lost 1 := by
  let c := (tcpConnect connectingConn).getD connectingConn
  let s1 : Wait := { Wait.init connectingConn false with c := c }.setPc 1 .called
  let s2 : Wait := s1.setPc 1 .tested
  let s3 : Wait := { s2 with slock := ⟨true, 1⟩ }.setPc 1 .polling
  have h1 : (Wait.init connectingConn false).Step (.connect 1) s1 := rfl
  have h2 : s1.Step (.test 1) s2 := rfl
  have h3 : s2.Step (.acquire 1) s3 := rfl
  have hgap : ∀ pid, s3.pc pid ≠ .tested := by
    intro pid
    by_cases hp : pid = 1
    · subst hp
      decide
    · simp [s3, s2, s1, Wait.setPc, Wait.init, hp]
  have hrun : Run (guard Wait.NotInGap Wait.Step) (.init connectingConn false)
      [.connect 1, .test 1, .acquire 1, .recv sampleSynAck 20 9] (s3.recv sampleSynAck 20 9) :=
    .cons ⟨trivial, h1⟩ (.cons ⟨trivial, h2⟩ (.cons ⟨trivial, h3⟩ (.cons ⟨fun _ _ => hgap, rfl⟩ (.nil _))))
  exact ⟨_, hrun, by decide +kernel, by decide +kernel, noLostWakeup hrun 1⟩

/-- **The wakeup is lost.**  The answer to the SYN comes between the test and `acquiresleep`; polling then changes
nothing any more. -/
theorem lostWakeup_gap : ∃ s,
    Run Wait.Step (.init connectingConn false) [.connect 1, .test 1, .recv sampleSynAck 20 9, .acquire 1] s ∧
    s.Lost 1 ∧ s.step (.poll 1 false) = some s := by
  refine Run.find (P := fun s => s.c.scb.state = estab ∧ s.released = true ∧ s.pc 1 = .polling ∧
    s.slock = ⟨true, 1⟩ ∧ s.freed = false) (by decide +kernel) ?_
  rintro s - ⟨hst, hrel, hpc, hlk, hfree⟩
  refine ⟨⟨hst, hrel, hpc, by rw [hlk]; rfl⟩, ?_⟩
  unfold Wait.step
  rw [if_neg (by rw [hfree]; decide)]
  dsimp only
  unfold Wait.poll
  rw [if_pos hpc, if_neg (by decide), hlk]
  rfl

end InternetOs.Net
