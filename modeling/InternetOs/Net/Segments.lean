import InternetOs.Net.Frame
import InternetOs.Net.TxSeq

/-!
# The segments of a write (`socksend`, `tcp_send`)

`socksend` cuts the user's bytes into pieces of at most TCP_MAX_DATA bytes and sends each in a segment of
its own.  It sets PSH on a piece that is shorter than TCP_MAX_DATA, so the last segment of a write has no
PSH if its piece is a full one:

    the bytes go out whole, in order, with PSH on the last segment only
      ↔ their number is not a multiple of TCP_MAX_DATA                  (segments_iff)
-/

namespace InternetOs.Net

open SockCbState List

/-- The loop of `socksend` on a TCP socket, over the bytes still to be sent; `none` is a panic of `mbufpush`. -/
def socksendTcp : Nat → Conn → List UInt8 → Int → Option (Conn × Int)
  | 0, _, _, _ => none
  | fuel + 1, c, buf, res =>
    if buf.length = 0 then some (c, res)
    else
      let bufsize := if buf.length < tcpMaxData then buf.length else tcpMaxData
      (payloadMbuf (buf.take bufsize)).bind fun m =>
        let flg := if buf.length < tcpMaxData then tcpFlgPsh ||| tcpFlgAck else tcpFlgAck
        (tcpSend (c.newMbuf m) c.brk flg).bind fun r =>
          if r.2 = -1 then some (r.1, -1)
          else socksendTcp fuel r.1 (buf.drop bufsize) (res + bufsize)

def TcpSeg.psh (g : TcpSeg) : Bool := tcpFlgIsset g.flg tcpFlgPsh

/-- The headers of a segment with this payload fit in front of it. -/
def HeadersFit (payload : List UInt8) : Prop :=
  ∃ m, payloadMbuf payload = some m ∧ ∀ localIp arp raddr sport dport sndnxt rcvnxt rcvwnd flg len,
    (tcpSendFrame localIp arp m raddr sport dport sndnxt rcvnxt rcvwnd flg len).isSome = true

/-- The segments carry the bytes `buf` from the sequence number `seq` on. -/
structure Carries (buf : List UInt8) (seq : UInt32) (segs : List TcpSeg) : Prop where
  bytes : (segs.map (·.data)).flatten = buf
  size : ∀ g ∈ segs, 1 ≤ g.data.length ∧ g.data.length ≤ tcpMaxData ∧ g.payloadLen.toNat = g.data.length
  seqs : Consecutive seq segs
  headers : ∀ g ∈ segs, HeadersFit g.data

/-- PSH is set on the last segment and on no other. -/
def PshLast (segs : List TcpSeg) : Prop :=
  ∃ init last, segs = init ++ [last] ∧ last.psh = true ∧ ∀ g ∈ init, g.psh = false

/-- What `socksend` has to do with the bytes of the user. -/
def SendsWhole (c : Conn) (buf : List UInt8) : Prop :=
  ∃ (c' : Conn) (segs : List TcpSeg), socksendTcp (buf.length + 1) c buf 0 = some (c', (buf.length : Int)) ∧
    c'.out = c.out ++ segs ∧ Carries buf c.scb.snd.nxtSeq segs ∧ PshLast segs

section
variable {c : Conn} {buf : List UInt8}

theorem mbufpush_of_le {m : Mbuf} {k : Nat} (h : k ≤ m.head) :
    mbufpush m k = some (m.head - k, { m with head := m.head - k, len := m.len + k }) :=
  if_neg (Nat.not_lt.mpr h)

theorem headersFit_of_le (h : buf.length ≤ tcpMaxData) : HeadersFit buf := by
  have h : buf.length ≤ 3946 := h
  obtain ⟨m, hm, -, hhead⟩ := payloadMbuf_data (show buf.length ≤ ethMaxSize from le_trans h (by decide))
  have hhead : m.head + buf.length = 4000 := hhead
  refine ⟨m, hm, fun localIp arp raddr _ _ _ _ _ _ _ => ?_⟩
  unfold tcpSendFrame ipSend ethSend
  rw [mbufpush_of_le (by omega)]
  dsimp only [Option.bind_some]
  rw [mbufpush_of_le (show 20 ≤ m.head - 20 by omega)]
  dsimp only [Option.bind_some]
  rw [mbufpush_of_le (show 14 ≤ m.head - 20 - 20 by omega)]
  cases arp raddr <;> rfl

theorem tcpSend_empty (hq : c.scb.txq.head = 0) (hst : c.scb.state = estab) (hb : 0 < c.brk) (m : Mbuf) (flg : UInt8) :
    ∃ c' g, tcpSend (c.newMbuf m) c.brk flg = some (c', 0) ∧ c'.scb.txq.head = 0 ∧ c'.scb.state = estab ∧
      0 < c'.brk ∧ c'.out = c.out ++ [g] ∧ g.data = m.data ∧ g.seq = c.scb.snd.nxtSeq ∧ g.flg = flg ∧
      g.payloadLen = UInt16.ofNat m.len ∧ c'.scb.snd.nxtSeq = c.scb.snd.nxtSeq + (UInt16.ofNat m.len).toUInt32 := by
  have hb0 : c.brk ≠ 0 := ne_of_gt hb
  simp [tcpSend, Conn.newMbuf, hb0, hst, pushToScbTxq, mbufqPushtail, hq, tcpFlush, popFromScbTxq, mbufqPophead,
    setNext, tcpSendCore, Mbuf.data]

theorem Carries.eq_nil {seq : UInt32} {segs : List TcpSeg} (h : Carries [] seq segs) : segs = [] := by
  cases segs with
  | nil => rfl
  | cons g segs =>
    have hg := (h.size g mem_cons_self).1
    have hd : g.data = [] := (append_eq_nil_iff.mp h.bytes).1
    rw [hd] at hg
    cases hg

theorem socksendTcp_turn (hq : c.scb.txq.head = 0) (hst : c.scb.state = estab) (hb : 0 < c.brk) (hbuf : buf ≠ [])
    (fuel : Nat) (res : Int) {k : Nat} (hk : k = if buf.length < tcpMaxData then buf.length else tcpMaxData) :
    ∃ c' g, socksendTcp (fuel + 1) c buf res = socksendTcp fuel c' (buf.drop k) (res + k) ∧ c'.scb.txq.head = 0 ∧
      c'.scb.state = estab ∧ 0 < c'.brk ∧ c'.out = c.out ++ [g] ∧ g.data = buf.take k ∧
      g.seq = c.scb.snd.nxtSeq ∧ g.payloadLen.toNat = k ∧ c'.scb.snd.nxtSeq = c.scb.snd.nxtSeq + UInt32.ofNat k ∧
      g.psh = decide (buf.length < tcpMaxData) := by
  have hmax : tcpMaxData = 3946 := rfl
  have hkle : k ≤ buf.length ∧ k ≤ tcpMaxData := by
    rw [hk]
    split <;> omega
  have hlen : (buf.take k).length = k := length_take_of_le hkle.1
  have hfits : (buf.take k).length ≤ ethMaxSize := by
    rw [hlen]
    exact le_trans hkle.2 (by decide)
  obtain ⟨m, hm, hdata, -⟩ := payloadMbuf_data hfits
  have hmlen : m.len = k := by rw [← m.length_data, hdata, hlen]
  have hk16 : (UInt16.ofNat k).toNat = k := UInt16.toNat_ofNat_of_lt' (show k < 2 ^ 16 by omega)
  obtain ⟨c', g, hsend, hq', hst', hb', hout, hgd, hgs, hgf, hgl, hnxt⟩ := tcpSend_empty hq hst hb m
    (if buf.length < tcpMaxData then tcpFlgPsh ||| tcpFlgAck else tcpFlgAck)
  refine ⟨c', g, ?_, hq', hst', hb', hout, hgd.trans hdata, hgs, ?_, ?_, ?_⟩
  · rw [socksendTcp, if_neg (by simpa using hbuf)]
    dsimp only
    rw [← hk, hm, Option.bind_some, hsend, Option.bind_some, if_neg (show (0 : Int) ≠ -1 by decide)]
  · rw [hgl, hmlen, hk16]
  · rw [hnxt, hmlen, toUInt32_eq_ofNat, hk16]
  · rw [TcpSeg.psh, hgf]
    by_cases hlt : buf.length < tcpMaxData
    · rw [if_pos hlt, decide_eq_true hlt]
      rfl
    · rw [if_neg hlt, decide_eq_false hlt]
      rfl

theorem socksendTcp_spec {fuel : Nat} (hq : c.scb.txq.head = 0) (hst : c.scb.state = estab) (hb : 0 < c.brk)
    (hfuel : buf.length < fuel) (res : Int) : ∃ c' segs, socksendTcp fuel c buf res = some (c', res + buf.length) ∧
      c'.out = c.out ++ segs ∧ Carries buf c.scb.snd.nxtSeq segs ∧
      (buf.length % tcpMaxData = 0 → ∀ g ∈ segs, g.psh = false) ∧ (buf.length % tcpMaxData ≠ 0 → PshLast segs) := by
  have hmax : tcpMaxData = 3946 := rfl
  induction fuel generalizing c buf res with
  | zero => omega
  | succ fuel ih =>
    by_cases hbuf : buf = []
    · subst hbuf
      refine ⟨c, [], by simp [socksendTcp], (append_nil _).symm, ⟨rfl, ?_, trivial, ?_⟩, ?_, fun h => absurd rfl h⟩
      all_goals simp
    obtain ⟨k, hk⟩ : ∃ k, k = if buf.length < tcpMaxData then buf.length else tcpMaxData := ⟨_, rfl⟩
    obtain ⟨c1, g, hturn, hq1, hst1, hb1, hout, hgd, hgs, hgl, hnxt, hpsh⟩ :=
      socksendTcp_turn hq hst hb hbuf fuel res hk
    have hpos := length_pos_iff.mpr hbuf
    have hkle : 1 ≤ k ∧ k ≤ buf.length ∧ k ≤ tcpMaxData := by
      rw [hk]
      split <;> omega
    have hglen : g.data.length = k := by rw [hgd, length_take_of_le hkle.2.1]
    have hless : (buf.drop k).length < fuel := by
      rw [length_drop]
      omega
    obtain ⟨c', segs, hrun, hout', hcar, hfull, hlast⟩ := ih hq1 hst1 hb1 hless (res + k)
    rw [length_drop] at hrun hfull hlast
    refine ⟨c', g :: segs, ?_, by rw [hout', hout, append_assoc]; rfl, ⟨?_, ?_, ⟨hgs, ?_⟩, ?_⟩, ?_, ?_⟩
    · rw [hturn, hrun]
      congr 2
      omega
    · rw [map_cons, flatten_cons, hcar.bytes, hgd, take_append_drop]
    · refine forall_mem_cons.mpr ⟨?_, hcar.size⟩
      rw [hglen]
      exact ⟨hkle.1, hkle.2.2, hgl⟩
    · rw [hglen, ← hnxt]
      exact hcar.seqs
    · exact forall_mem_cons.mpr ⟨headersFit_of_le (by rw [hglen]; exact hkle.2.2), hcar.headers⟩
    · intro hmod
      have hge : ¬ buf.length < tcpMaxData := by
        intro hlt
        rw [Nat.mod_eq_of_lt hlt] at hmod
        omega
      rw [if_neg hge] at hk
      refine forall_mem_cons.mpr ⟨by rw [hpsh, decide_eq_false hge], hfull ?_⟩
      rw [hk, ← Nat.mod_eq_sub_mod (Nat.le_of_not_lt hge)]
      exact hmod
    · intro hmod
      by_cases hlt : buf.length < tcpMaxData
      · -- the last piece
        rw [if_pos hlt] at hk
        rw [hk, drop_length] at hcar
        obtain rfl := hcar.eq_nil
        exact ⟨[], g, rfl, by rw [hpsh, decide_eq_true hlt], by simp⟩
      · rw [if_neg hlt] at hk
        rw [hk, ← Nat.mod_eq_sub_mod (Nat.le_of_not_lt hlt)] at hlast
        obtain ⟨init, last, rfl, hl, hi⟩ := hlast hmod
        exact ⟨g :: init, last, rfl, hl, forall_mem_cons.mpr ⟨by rw [hpsh, decide_eq_false hlt], hi⟩⟩

end

theorem not_sendsWhole {c : Conn} {buf : List UInt8} (hq : c.scb.txq.head = 0) (hst : c.scb.state = estab)
    (hb : 0 < c.brk) (hmod : buf.length % tcpMaxData = 0) : ¬ SendsWhole c buf := by
  obtain ⟨c', segs, hrun, hout, -, hfull, -⟩ := socksendTcp_spec hq hst hb (Nat.lt_succ_self buf.length) 0
  rintro ⟨c1, segs1, hrun1, hout1, -, init, last, rfl, hl, -⟩
  obtain rfl : c' = c1 := (Prod.mk.inj (Option.some.inj (hrun.symm.trans hrun1))).1
  rw [hout, append_cancel_left_eq] at hout1
  have := hfull hmod last (by rw [hout1]; simp)
  rw [this] at hl
  cases hl

/-- **The segments of a write.**  On an established connection with nothing queued `socksend` sends all the bytes in
segments of 1 to TCP_MAX_DATA bytes at consecutive sequence numbers, with PSH on the last and on no other, and returns
their number, exactly if the number is no multiple of TCP_MAX_DATA. -/
theorem segments_iff {c : Conn} (hq : c.scb.txq.head = 0) (hst : c.scb.state = estab) (hb : 0 < c.brk)
    (buf : List UInt8) : SendsWhole c buf ↔ buf.length % tcpMaxData ≠ 0 := by
  constructor
  · intro h hmod
    exact not_sendsWhole hq hst hb hmod h
  · intro hmod
    obtain ⟨c', segs, hrun, hout, hcar, -, hlast⟩ := socksendTcp_spec hq hst hb (Nat.lt_succ_self buf.length) 0
    rw [Int.zero_add] at hrun
    exact ⟨c', segs, hrun, hout, hcar, hlast hmod⟩

/-- Three bytes. -/
theorem segments_iff_three : SendsWhole openConn [1, 2, 3] :=
  (segments_iff rfl rfl (by decide) [1, 2, 3]).mpr (by decide)

/-- A write of TCP_MAX_DATA bytes: one segment, without PSH. -/
theorem segments_full : ¬ SendsWhole openConn (List.replicate tcpMaxData 0) :=
  not_sendsWhole rfl rfl (by decide) (by rw [length_replicate, Nat.mod_self])

end InternetOs.Net
