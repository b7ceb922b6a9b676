import InternetOs.Net.TxSeq

/-!
# From one host to the other

Two hosts with an established connection.  The network loses, repeats and reorders what the sender sends; the
sender may get any segments.  What is read at the receiver is the front of what was written at the sender:

    copied <+: pushed <+: written                                              (endToEnd)
-/

namespace InternetOs.Net

open SockCbState List Sess

/-- The segment `g` as it arrives: a header of 20 bytes and the text. -/
def TcpSeg.ArrivesAs (g : TcpSeg) (m : Mbuf) (len : UInt16) : Prop :=
  m.tcphdr.off >>> 4 = 5 ∧ m.tcphdr.seq = g.seq ∧ len.toNat = 20 + g.data.length ∧ payload m g.data.length = g.data

/-- What arrives was sent before. -/
def Delivers (out : List TcpSeg) : Ev → Prop
  | .seg m len _ => ∃ g ∈ out, g.ArrivesAs m len
  | _ => True

/-- A step of the sender or of the receiver. -/
inductive HostStep : Sess × Sess → Ev ⊕ Ev → Sess × Sess → Prop
  | sender {a a' b : Sess} {e : Ev} (hs : guard LateSendEv Step a e a') : HostStep (a, b) (.inl e) (a', b)
  | receiver {a b b' : Sess} {e : Ev} (hd : Delivers a.conn.out e) (hs : b.Step e b') :
      HostStep (a, b) (.inr e) (a, b')

/-! ## The sender -/

theorem tcpFlush_initSeq (fuel : Nat) : ∀ c c' : Conn, tcpFlush fuel c = some c' →
    c'.scb.snd.initSeq = c.scb.snd.initSeq := by
  induction fuel with
  | zero =>
    intro c c' h
    cases h
  | succ fuel ih =>
    intro c c' h
    simp only [tcpFlush] at h
    split at h
    · cases h
      rfl
    · exact (ih _ _ h).trans rfl

theorem tcpSend_initSeq {c : Conn} {m : Nat} {flg : UInt8} {r : Conn × Int} (h : tcpSend c m flg = some r)
    (hl : c.scb.state ≠ listen) : r.1.scb.snd.initSeq = c.scb.snd.initSeq := by
  unfold tcpSend at h
  split at h
  · cases h
    rfl
  · split at h
    · next hs => exact absurd hs hl
    · cases h
      rfl
    · cases h
      rfl
    · obtain ⟨c1, hc, heq⟩ := Option.map_eq_some_iff.mp h
      cases heq
      exact (tcpFlush_initSeq _ _ _ hc).trans rfl
    · cases h
      rfl

variable {s s' : Sess}

/-- Once established, a connection keeps its first number, and what was written. -/
theorem Sess.Tx.late (h : s.Tx) (hne : ¬ s.conn.scb.state.early) {e : Ev} (hs : guard LateSendEv Step s e s') :
    ¬ s'.conn.scb.state.early ∧ s'.conn.scb.snd.initSeq = s.conn.scb.snd.initSeq ∧ s.written <+: s'.written := by
  obtain ⟨he, hs⟩ := hs
  cases hf : s.freed with
  | true =>
    rw [step_freed hf hs]
    exact ⟨hne, rfl, prefix_rfl⟩
  | false =>
    cases e with
    | seg m len raddr =>
      cases step_live hf hs
      rcases (s.seg_snd m len raddr).2 with ⟨hi, -, hearly, -⟩ | ⟨hearly, -⟩
      · exact ⟨fun h => hne (hearly h), hi, prefix_rfl⟩
      · exact absurd hearly hne
    | recv nb n =>
      cases step_live hf hs
      obtain ⟨hst, hsnd, -⟩ := sockrecvIter_frame s.conn nb n 0
      exact ⟨by rw [hst]; exact hne, by rw [hsnd], prefix_rfl⟩
    | send m flg =>
      have hl : s.conn.scb.state ≠ listen := fun hl => hne (.inl hl)
      obtain ⟨lr, hr⟩ := h.queues
      obtain ⟨s1, -, heq, -, -, -, -, -, -, hst⟩ := hr.send m flg hf
      obtain rfl : s1 = s' := Option.some.inj (heq.symm.trans hs)
      refine ⟨by rw [hst hl]; exact hne, ?_⟩
      obtain ⟨r, hr, rfl⟩ := step_live hf heq
      refine ⟨(tcpSend_initSeq hr hl).trans rfl, ?_⟩
      dsimp only
      split
      · exact prefix_append _ _
      · exact prefix_rfl
    | close => exact he.elim

/-- A segment of a consecutive sequence is a slice of its bytes. -/
theorem Consecutive.slice {a : UInt32} {l : List TcpSeg} (h : Consecutive a l) {g : TcpSeg} (hg : g ∈ l) :
    ∃ o, g.seq = a + UInt32.ofNat o ∧ o + g.data.length ≤ (l.map (·.data)).flatten.length ∧
      (((l.map (·.data)).flatten).drop o).take g.data.length = g.data := by
  induction l generalizing a with
  | nil => cases hg
  | cons x l ih =>
    rcases mem_cons.mp hg with rfl | hg
    · exact ⟨0, by simpa using h.1, by simp, by simp⟩
    · obtain ⟨o, hseq, hle, htake⟩ := ih h.2 hg
      refine ⟨x.data.length + o, ?_, ?_, ?_⟩
      · rw [hseq, UInt32.ofNat_add, UInt32.add_assoc]
      · rw [map_cons, flatten_cons, length_append]
        omega
      · rw [map_cons, flatten_cons, drop_append, drop_eq_nil_of_le (by omega), nil_append, Nat.add_sub_cancel_left]
        exact htake

theorem Sess.Tx.sliceEv (h : s.Tx) {e : Ev} (hd : Delivers s.conn.out e) :
    SliceEv s.written.flatten s.conn.scb.snd.initSeq e := by
  cases e with
  | seg m len raddr =>
    obtain ⟨g, hg, hoff, hseq, hlen, hpay⟩ := hd
    by_cases h0 : g.data = []
    · exact ⟨0, hoff, 0, by rw [hlen, h0]; rfl, fun h => absurd h (lt_irrefl 0)⟩
    · obtain ⟨o, ho, hle, htake⟩ := h.seqs.slice (mem_filter.mpr ⟨hg, by simpa using h0⟩)
      rw [h.sent] at hle htake
      exact ⟨o, hoff, g.data.length, hlen, fun _ => ⟨hseq.trans ho, hle, hpay.trans htake.symm⟩⟩
  | recv | send | close => trivial

/-! ## The receiver -/

/-- What was read is the front of what was queued, and this the front of `S`. -/
def Sess.Front (S : List UInt8) (s : Sess) : Prop := s.copied <+: s.conn.pushed ∧ s.conn.pushed <+: S

theorem Sess.seg_pushed (ho : s.conn.scb.state.opened) (m : Mbuf) (len : UInt16) (raddr : UInt32) :
    (s.seg m len raddr).conn.pushed = s.conn.pushed ∨
      (s.seg m len raddr).freed = false ∧ (s.seg m len raddr).conn.scb.state.opened := by
  obtain ⟨h1, h2, h3⟩ := opened_ne ho
  have hack := acked_opened (c := s.conn.newMbuf m) s.conn.brk ho
  obtain ⟨c', op, hout, hseg⟩ := s.seg_core h1 h2 h3 m len raddr
  rw [hseg]
  cases hout with
  | text hv ha hs ht hscb hm hb hp =>
    refine .inr ⟨rfl, ?_⟩
    show c'.scb.state.opened
    rw [hscb]
    exact hack.1
  | badSeq _ hc | rst _ hc | syn _ hc | ackClose _ _ hc | ackStop _ _ _ hc | noText _ _ _ hc | fin _ _ _ _ _ hc
  | finClose _ _ _ _ _ hc | drop _ _ _ hc => exact .inl hc.pushed

/-- Also a step that ends the connection leaves what was queued. -/
theorem Sess.Front.step {S : List UInt8} {irs W : UInt32} {e : Ev} (h : s.Front S) (hi : s.RxInv S irs W)
    (hi' : s'.RxInv S irs W) (hs : s.Step e s') : s'.Front S := by
  cases hf : s.freed with
  | true =>
    rw [step_freed hf hs]
    exact h
  | false =>
    have hread : (s.conn.scb.state.opened ∨ s.conn.scb.state.past) ∧ ∃ lr lt, s.Read lr lt := by
      rcases hi with hf' | ⟨ho, lr, lt, hr⟩ | ⟨hp, hr⟩
      · rw [hf] at hf'
        cases hf'
      · exact ⟨.inl ho, lr, lt, hr.toRead⟩
      · exact ⟨.inr hp, hr⟩
    obtain ⟨hst, lr, lt, hr⟩ := hread
    cases e with
    | seg m len raddr =>
      cases step_live hf hs
      have hpushed : (s.seg m len raddr).conn.pushed = s.conn.pushed ∨
          (s.seg m len raddr).freed = false ∧ (s.seg m len raddr).conn.scb.state.opened := by
        rcases hst with ho | hp
        · exact s.seg_pushed ho m len raddr
        · obtain ⟨_, hc, -⟩ := s.seg_past hp m len raddr
          exact .inl hc.pushed
      rcases hpushed with hp | ⟨hlive, ho⟩
      · rw [Front, hp]
        exact h
      · rcases hi' with hf' | ⟨-, _, _, hrx⟩ | ⟨hp, -⟩
        · rw [hlive] at hf'
          cases hf'
        · exact ⟨⟨_, hrx.read⟩, hrx.stream⟩
        · exact absurd ho (past_not_opened hp)
    | recv nb n =>
      obtain ⟨_, _, hr', -, hp, -⟩ := hr.recv nb n hs hf
      exact ⟨⟨_, hr'.read⟩, hp ▸ h.2⟩
    | send m flg =>
      obtain ⟨s1, _, heq, hr', -, hp, -⟩ := hr.send m flg hf
      obtain rfl : s1 = s' := Option.some.inj (heq.symm.trans hs)
      exact ⟨⟨_, hr'.read⟩, hp ▸ h.2⟩
    | close =>
      obtain ⟨_, hr', hp, -⟩ := hr.close hs hf
      exact ⟨⟨_, hr'.read⟩, hp ▸ h.2⟩

/-! ## Both hosts -/

theorem Sess.RxInv.mono {S S' : List UInt8} {irs W : UInt32} (h : s.RxInv S irs W) (hS : S <+: S') :
    s.RxInv S' irs W :=
  h.imp_right (.imp_left fun ⟨ho, lr, lt, h⟩ => ⟨ho, lr, lt, h.toRead, h.nxt, h.stream.trans hS, h.wnd⟩)

/-- What holds of the hosts while less was written than there are sequence numbers. -/
structure HostInv (irs : UInt32) (h : Sess × Sess) : Prop where
  tx : h.1.Tx
  late : ¬ h.1.conn.scb.state.early
  init : h.1.conn.scb.snd.initSeq = irs
  rx : h.1.written.flatten.length < 2 ^ 32 →
    h.2.RxInv h.1.written.flatten irs sockCbDefaultWndSize ∧ h.2.Front h.1.written.flatten

theorem HostInv.step {irs : UInt32} {h h' : Sess × Sess} {e : Ev ⊕ Ev} (hi : HostInv irs h) (hs : HostStep h e h') :
    HostInv irs h' := by
  cases hs with
  | sender hs =>
    obtain ⟨hne, hinit, hw⟩ := hi.tx.late hi.late hs
    refine ⟨hi.tx.step hs, hne, hinit.trans hi.init, fun hlen => ?_⟩
    have hpre := hw.flatten
    obtain ⟨hrx, hcopied, hpushed⟩ := hi.rx (hpre.length_le.trans_lt hlen)
    exact ⟨hrx.mono hpre, hcopied, hpushed.trans hpre⟩
  | receiver hd hs =>
    refine ⟨hi.tx, hi.late, hi.init, fun hlen => ?_⟩
    obtain ⟨hrx, hfront⟩ := hi.rx hlen
    have hslice := hi.tx.sliceEv hd
    rw [hi.init] at hslice
    have hrx' := hrx.step (fun hk => hslice.near hlen hk) hs
    exact ⟨hrx', hfront.step hrx hrx' hs⟩

/-- **From one host to the other.**  What was read at the receiver is the front of what has arrived there in order,
and this the front of what was written at the sender; also after the receiver has stopped taking text. -/
theorem endToEnd {a b a' b' : Sess} {evs : List (Ev ⊕ Ev)} (ha : a.TxStart) (hne : ¬ a.conn.scb.state.early)
    (hb : b.Fresh a.conn.scb.snd.initSeq sockCbDefaultWndSize) (ho : b.conn.scb.state.opened)
    (hrun : Run HostStep (a, b) evs (a', b')) (hlen : a'.written.flatten.length < 2 ^ 32) :
    b'.copied <+: b'.conn.pushed ∧ b'.conn.pushed <+: a'.written.flatten := by
  have hfront : b.Front a.written.flatten := by
    rw [Front, hb.copied, hb.pushed]
    constructor <;> exact nil_prefix
  have hi : HostInv a.conn.scb.snd.initSeq (a', b') :=
    hrun.inv (fun _ _ _ hi hs => hi.step hs) ⟨ha.tx, hne, rfl, fun _ => ⟨hb.rxInv _ ho, hfront⟩⟩
  exact (hi.rx hlen).2

/-- The other end of `sampleSess`. -/
def samplePeer : Sess := { sampleSess with conn := { sampleSess.conn with scb := { sampleSess.conn.scb with
  rcv := { initSeq := 0, nxtSeq := 1, wnd := sockCbDefaultWndSize } } } }

def sampleEvs : List (Ev ⊕ Ev) :=
  [.inl (.send (sampleText 0 0) tcpFlgAck), .inr (.seg (sampleText 1 tcpFlgAck) 23 0), .inr (.recv false 2)]

/-- Three bytes are sent, and two of them are read. -/
theorem endToEnd_two_read : ∃ a' b', Run HostStep (sampleSess, samplePeer) sampleEvs (a', b') ∧
    b'.copied = [10, 11] ∧ b'.copied <+: b'.conn.pushed ∧ b'.conn.pushed <+: a'.written.flatten := by
  have hne : ¬ sampleSess.conn.scb.state.early := by
    rintro (h | h | h) <;> cases h
  have hsend : LateSendEv sampleSess (.send (sampleText 0 0) tcpFlgAck) := ⟨by decide, by decide, hne⟩
  have hrun : Run HostStep (sampleSess, samplePeer) sampleEvs _ :=
    .cons (.sender ⟨hsend, rfl⟩) (.cons (.receiver (show Delivers _ (.seg _ _ _) from
      ⟨_, mem_singleton_self _, by decide, by decide, by decide, by decide⟩) rfl)
      (.cons (.receiver trivial rfl) (.nil _)))
  refine ⟨_, _, hrun, by decide, endToEnd sampleSess_txStart hne ⟨rfl, ⟨[], ?_⟩, by decide, rfl, rfl, rfl⟩
    (.inr (.inl rfl)) hrun (by decide)⟩
  exact ⟨.nil _, .nil _, by simp, by simp, by decide⟩

end InternetOs.Net
