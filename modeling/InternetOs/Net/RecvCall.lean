import InternetOs.Net.PeerFin

/-!
# Calls of `sockrecv`

A `Reader` is a connection with the `sockrecv` call that is under way on it, if any.
Between two passes of the call's loop anything else may happen.  A pass that finds
the block in SOCK_CB_CLOSE_WAIT ends the call with `-1`, whatever is still queued
and whatever the call has copied already.  So data is lost at the peer's FIN unless
the reader has kept up with the arrivals:

    no `-1` after the FIN loses data ↔ nothing was unread and the call under way
      had copied nothing, when the FIN arrived                       (closeWait_noLoss_iff)
-/

namespace InternetOs.Net

open SockCbState Option

/-- A call under way: `n` bytes are still wanted, `res` were copied. -/
structure RecvCall where
  nonblockable : Bool
  n : Nat
  res : Nat
  deriving DecidableEq, Repr

structure Reader where
  sess : Sess
  call : Option RecvCall

/-- One pass of the loop of `sockrecv`: the state after it, and what the call returns if this
pass ends it.  `get_sock_cb` does not find a freed block. -/
def Reader.pass (r : Reader) (k : RecvCall) : Reader × Option Int :=
  if r.sess.freed then ({ r with call := none }, some (-1))
  else
    let x := sockrecvIter r.sess.conn k.nonblockable k.n k.res
    let sess := { r.sess with conn := x.1, copied := r.sess.copied ++ x.2.1 }
    match x.2.2 with
    | .ret v => ({ sess := sess, call := none }, some v)
    | .again n res => ({ sess := sess, call := some { k with n := n, res := res } }, none)

inductive ReaderEv
  | seg (m : Mbuf) (len : UInt16) (raddr : UInt32)
  | send (m : Mbuf) (flg : UInt8)
  | close
  /-- The user calls `sockrecv` for `n` bytes. -/
  | call (nonblockable : Bool) (n : Nat)
  | pass

/-- One step; `none` is a call on a freed block, a second call, or a pass of no call. -/
def Reader.step (r : Reader) : ReaderEv → Option Reader
  | .seg m len raddr => (r.sess.step (.seg m len raddr)).map fun s => { r with sess := s }
  | .send m flg => (r.sess.step (.send m flg)).map fun s => { r with sess := s }
  | .close => (r.sess.step .close).map fun s => { r with sess := s }
  | .call nb n =>
    if r.sess.freed || r.call.isSome then none else some { r with call := some ⟨nb, n, 0⟩ }
  | .pass => r.call.map fun k => (r.pass k).1

def Reader.Step (r : Reader) (e : ReaderEv) (r' : Reader) : Prop := r.step e = some r'

/-- Calls ask for something. -/
def PosCall (_ : Reader) : ReaderEv → Prop
  | .call _ n => 0 < n
  | _ => True

/-- `rxq` has no unread byte. -/
def Conn.Drained (c : Conn) : Prop := ∀ lr, c.scb.rxq.Holds c.mbufs lr → bytesOf c.mbufs lr = []

/-- Whatever happens from here on, a call that returns `-1` finds nothing unread and has itself
copied nothing. -/
def Reader.NoLoss (r : Reader) : Prop :=
  ∀ evs r', Run (guard PosCall Reader.Step) r evs r' → ∀ k, r'.call = some k →
    (r'.pass k).2 = some (-1) → r'.sess.conn.Drained ∧ k.res = 0

/-- Nothing has been received or read yet, in whatever state the block is. -/
structure Reader.Start (r : Reader) : Prop where
  queues : r.sess.conn.QInv [] []
  pushed : r.sess.conn.pushed = []
  copied : r.sess.copied = []

/-! ## Passes -/

theorem sockrecvIter_again {c : Conn} {nb : Bool} {n res n' res' : Nat}
    (h : (sockrecvIter c nb n res).2.2 = .again n' res') : res' = res + (sockrecvIter c nb n res).2.1.length := by
  revert h
  unfold sockrecvIter sockrecvCopy
  dsimp only
  split
  · intro h
    cases h
  · split
    · split
      · intro h
        cases h
      · intro h
        cases h
        rfl
    · split
      · next hn =>
        split
        · intro h
          cases h
        · intro h
          cases h
          rw [List.length_take, Mbuf.length_data, Nat.min_self]
      · intro h
        cases h

section
variable {r r' : Reader} {lr lt : List Nat}

/-- A pass of a live block is a `recv` step of its connection. -/
theorem Reader.pass_read (h : r.sess.Read lr lt) (k : RecvCall) : ∃ lr' x, (r.pass k).1.sess.Read lr' lt ∧
      x ++ bytesOf (r.pass k).1.sess.conn.mbufs lr' = bytesOf r.sess.conn.mbufs lr ∧
      (r.pass k).1.sess.conn.scb.state = r.sess.conn.scb.state ∧
      ∀ k', (r.pass k).1.call = some k' → k'.res = k.res + x.length := by
  unfold Reader.pass
  split
  · exact ⟨lr, [], h, rfl, rfl, fun k' hk => by cases hk⟩
  · obtain ⟨lr', hq, hb, hscb, hp⟩ := sockrecvIter_spec h.queues k.nonblockable k.n k.res
    have hread : Sess.Read { r.sess with
        conn := (sockrecvIter r.sess.conn k.nonblockable k.n k.res).1
        copied := r.sess.copied ++ (sockrecvIter r.sess.conn k.nonblockable k.n k.res).2.1 } lr' lt := by
      refine ⟨hq, ?_⟩
      show (r.sess.copied ++ _) ++ _ = (sockrecvIter r.sess.conn k.nonblockable k.n k.res).1.pushed
      rw [List.append_assoc, hb, hp]
      exact h.read
    have hst : (sockrecvIter r.sess.conn k.nonblockable k.n k.res).1.scb.state = r.sess.conn.scb.state := by
      rw [hscb]
    dsimp only
    split
    · exact ⟨lr', _, hread, hb, hst, fun k' hk => by cases hk⟩
    · next n' res' heq =>
      refine ⟨lr', _, hread, hb, hst, fun k' hk => ?_⟩
      cases hk
      exact sockrecvIter_again heq

theorem Reader.step_read (h : r.sess.Read lr lt) {e : ReaderEv} (hs : r.Step e r') :
    ∃ lr' lt', r'.sess.Read lr' lt' := by
  cases e with
  | seg | send | close =>
    obtain ⟨s, hs', rfl⟩ := map_eq_some_iff.mp hs
    exact h.step hs'
  | call nb n =>
    simp only [Reader.Step, Reader.step] at hs
    split at hs
    · cases hs
    · cases hs
      exact ⟨lr, lt, h⟩
  | pass =>
    obtain ⟨k, -, rfl⟩ := map_eq_some_iff.mp hs
    obtain ⟨lr', x, hr, -⟩ := Reader.pass_read h k
    exact ⟨lr', lt, hr⟩

theorem Conn.QInv.drained_iff {c : Conn} (h : c.QInv lr lt) : c.Drained ↔ bytesOf c.mbufs lr = [] := by
  constructor
  · intro hd
    exact hd lr h.rx
  · intro hb l hl
    rw [hl.chain.unique h.rx.chain]
    exact hb

end

/-! ## After the FIN -/

/-- The peer has closed, nothing is unread and the call under way has copied nothing. -/
def Reader.Quiet (r : Reader) : Prop :=
  r.sess.conn.scb.state.past ∧ (∀ k, r.call = some k → k.res = 0) ∧
    ∃ lr lt, r.sess.Read lr lt ∧ bytesOf r.sess.conn.mbufs lr = []

section
variable {r r' : Reader}

/-- After the peer's FIN a step of the connection leaves what is unread. -/
theorem Sess.Read.step_past_bytes {s s' : Sess} {lr lt : List Nat} (hp : s.conn.scb.state.past)
    (h : s.Read lr lt) {e : Ev} (hne : ∀ nb n, e ≠ .recv nb n) (hs : s.step e = some s') :
    s'.conn.scb.state.past ∧ ∃ lt', s'.Read lr lt' ∧ bytesOf s'.conn.mbufs lr = bytesOf s.conn.mbufs lr := by
  cases hf : s.freed with
  | true =>
    rw [Sess.step_freed hf hs]
    exact ⟨hp, lt, h, rfl⟩
  | false =>
    cases e with
    | seg m len raddr =>
      cases Sess.step_live hf hs
      obtain ⟨scb, hc, hr, ht, hst⟩ := s.seg_past hp m len raddr
      refine ⟨by rw [hc.scb]; exact past_of_eq hp hst, lt, h.becomes hc hr ht _, ?_⟩
      rw [hc.mbufs, h.queues.bytesOf_newMbuf]
    | recv nb n => exact absurd rfl (hne nb n)
    | send m flg =>
      obtain ⟨s1, lt', heq, hr, -, -, -, -, hb, hst⟩ := h.send m flg hf
      obtain rfl : s1 = s' := some.inj (heq.symm.trans hs)
      exact ⟨by rw [hst (past_ne hp).1]; exact hp, lt', hr, hb⟩
    | close =>
      obtain ⟨lt', hr, -, -, hb, hst⟩ := h.close hs hf
      exact ⟨by rw [hst]; exact (tcpClose_state s.conn).2 hp, lt', hr, hb⟩

theorem Reader.Quiet.step (h : r.Quiet) {e : ReaderEv} (hs : r.Step e r') : r'.Quiet := by
  obtain ⟨hp, hc, lr, lt, hr, hb⟩ := h
  have hconn : ∀ {e' : Ev} {s : Sess}, (∀ nb n, e' ≠ .recv nb n) → r.sess.step e' = some s →
      Reader.Quiet { r with sess := s } := by
    intro e' s hne hs'
    obtain ⟨hp', lt', hr', hb'⟩ := hr.step_past_bytes hp hne hs'
    exact ⟨hp', hc, lr, lt', hr', hb'.trans hb⟩
  cases e with
  | seg | send | close =>
    obtain ⟨s, hs', rfl⟩ := map_eq_some_iff.mp hs
    exact hconn (by simp) hs'
  | call nb n =>
    simp only [Reader.Step, Reader.step] at hs
    split at hs
    · cases hs
    · cases hs
      refine ⟨hp, fun k hk => ?_, lr, lt, hr, hb⟩
      cases hk
      rfl
  | pass =>
    obtain ⟨k, hk, rfl⟩ := map_eq_some_iff.mp hs
    obtain ⟨lr', x, hr', hx, hst, hres⟩ := Reader.pass_read hr k
    rw [hb, List.append_eq_nil_iff] at hx
    refine ⟨by rw [hst]; exact hp, fun k' hk' => ?_, lr', lt, hr', hx.2⟩
    rw [hres k' hk', hc k hk, hx.1]
    rfl

theorem Reader.Quiet.noLoss (h : r.Quiet) : r.NoLoss := by
  intro evs r' hrun k hk _
  obtain ⟨-, hc, lr, lt, hr, hb⟩ := hrun.inv (fun _ _ _ hi hs => hi.step hs.2) h
  exact ⟨hr.queues.drained_iff.mpr hb, hc k hk⟩

theorem Reader.pass_closeWait (h : r.sess.conn.scb.state = closeWait) (k : RecvCall) : (r.pass k).2 = some (-1) := by
  unfold Reader.pass
  split
  · rfl
  · simp [sockrecvIter, h]

/-- **When no data is lost at the peer's FIN.**  In every run, after the segment that moves the
block to SOCK_CB_CLOSE_WAIT, no call of `sockrecv` returns `-1` with bytes unread or copied,
exactly if before that segment nothing was unread and the call under way had copied nothing. -/
theorem closeWait_noLoss_iff {r₀ : Reader} (h0 : r₀.Start) {evs : List ReaderEv}
    (hrun : Run (guard PosCall Reader.Step) r₀ evs r) {m : Mbuf} {len : UInt16} {raddr : UInt32}
    (hs : r.Step (.seg m len raddr) r') (hne : r.sess.conn.scb.state ≠ closeWait)
    (hcw : r'.sess.conn.scb.state = closeWait) :
    r'.NoLoss ↔ r.sess.conn.Drained ∧ ∀ k, r.call = some k → k.res = 0 := by
  have hread : ∃ lr lt, r.sess.Read lr lt := by
    refine hrun.inv (I := fun r => ∃ lr lt, r.sess.Read lr lt) ?_
      ⟨[], [], h0.queues, by rw [h0.copied, h0.pushed]; rfl⟩
    rintro r1 e r2 ⟨lr, lt, h⟩ hs
    exact Reader.step_read h hs.2
  obtain ⟨lr, lt, hr⟩ := hread
  obtain ⟨s, hs', rfl⟩ := map_eq_some_iff.mp hs
  -- the block is live: nothing happens to a freed one
  have hf : r.sess.freed = false := by
    rw [← Bool.not_eq_true]
    intro hf
    rw [Sess.step_freed hf hs'] at hcw
    exact hne hcw
  cases Sess.step_live hf hs'
  have ho := Sess.opened_of_closeWait hne hcw
  obtain ⟨-, scb, hc, -, hrx, htx, hfreed⟩ := Sess.TakesFin.step ho (.inl ⟨hne, hcw⟩)
  have hlive : (r.sess.seg m len raddr).freed = false := by
    rw [← Bool.not_eq_true]
    exact fun h => hfreed h (hc.scb ▸ hcw)
  have hr' : (r.sess.seg m len raddr).Read lr lt := hr.becomes hc hrx htx _
  have hb : bytesOf (r.sess.seg m len raddr).conn.mbufs lr = bytesOf r.sess.conn.mbufs lr := by
    rw [hc.mbufs, hr.queues.bytesOf_newMbuf]
  rw [hr.queues.drained_iff, ← hb, ← hr'.queues.drained_iff]
  constructor
  · intro hno
    cases hcall : r.call with
    | some k =>
      -- the next pass of the call under way
      obtain ⟨hd, hk⟩ := hno [] _ (.nil _) k hcall (Reader.pass_closeWait hcw k)
      exact ⟨hd, fun k' hk' => by cases hk'; exact hk⟩
    | none =>
      -- a new call, and its first pass
      have hstep : Reader.Step { r with sess := r.sess.seg m len raddr } (.call false 1)
          { sess := r.sess.seg m len raddr, call := some ⟨false, 1, 0⟩ } := by
        simp [Reader.Step, Reader.step, hlive, hcall]
      obtain ⟨hd, -⟩ := hno [.call false 1] _ (.cons ⟨Nat.one_pos, hstep⟩ (.nil _)) _ rfl
        (Reader.pass_closeWait hcw _)
      exact ⟨hd, fun k' hk' => by cases hk'⟩
  · rintro ⟨hd, hk⟩
    refine Reader.Quiet.noLoss ⟨?_, hk, lr, lt, hr', hr'.queues.drained_iff.mp hd⟩
    rw [hcw]
    exact .inl rfl

end

def sampleReader : Reader := { sess := sampleSess, call := none }

theorem sampleReader_start : sampleReader.Start where
  queues := ⟨.nil _, .nil _, by simp, by simp, by decide⟩
  pushed := rfl
  copied := rfl

/-- Three bytes arrive and a call reads them; the FIN comes while the next call waits. -/
theorem closeWait_noLoss_iff_read : ∃ r r', Run (guard PosCall Reader.Step) sampleReader
      [.call false 3, .seg (sampleText 8 tcpFlgAck) 23 0x0a000002, .pass, .call false 10, .pass] r ∧
    r.sess.copied = [10, 11, 12] ∧ r.Step (.seg (sampleFin 11) 20 0x0a000002) r' ∧
    r'.sess.conn.scb.state = closeWait ∧ r'.NoLoss := by
  have hrun : Run (guard PosCall Reader.Step) sampleReader
      [.call false 3, .seg (sampleText 8 tcpFlgAck) 23 0x0a000002, .pass, .call false 10, .pass] _ :=
    .cons ⟨Nat.succ_pos 2, rfl⟩ (.cons ⟨trivial, rfl⟩ (.cons ⟨trivial, rfl⟩
      (.cons ⟨Nat.succ_pos 9, rfl⟩ (.cons ⟨trivial, rfl⟩ (.nil _)))))
  refine ⟨_, _, hrun, by decide, rfl, by decide,
    (closeWait_noLoss_iff sampleReader_start hrun rfl (by decide) (by decide)).mpr ⟨fun lr hlr => ?_, fun k hk => ?_⟩⟩
  · rw [Chain.eq_nil hlr.chain]
    rfl
  · cases hk
    rfl

/-- **Data is lost at the FIN.**  Three bytes arrive and then the FIN; the call made after that
returns `-1` although none of them was read.  And a call that has copied them already returns
`-1` when the FIN arrives before its next pass. -/
theorem closeWait_loses : (∃ r, Run (guard PosCall Reader.Step) sampleReader
        [.seg (sampleText 8 tcpFlgAck) 23 0x0a000002, .seg (sampleFin 11) 20 0x0a000002, .call false 10] r ∧
      r.sess.conn.pushed = [10, 11, 12] ∧ r.sess.copied = [] ∧
      r.call = some ⟨false, 10, 0⟩ ∧ (r.pass ⟨false, 10, 0⟩).2 = some (-1)) ∧
    (∃ r, Run (guard PosCall Reader.Step) sampleReader
        [.call false 10, .seg (sampleText 8 tcpFlgAck) 23 0x0a000002, .pass, .seg (sampleFin 11) 20 0x0a000002] r ∧
      r.sess.copied = [10, 11, 12] ∧
      r.call = some ⟨false, 7, 3⟩ ∧ (r.pass ⟨false, 7, 3⟩).2 = some (-1)) := by
  constructor
  · refine ⟨_, .cons ⟨trivial, rfl⟩ (.cons ⟨trivial, rfl⟩ (.cons ⟨Nat.succ_pos 9, rfl⟩ (.nil _))), ?_⟩
    exact ⟨by decide, by decide, by decide, by decide⟩
  · refine ⟨_, .cons ⟨Nat.succ_pos 9, rfl⟩ (.cons ⟨trivial, rfl⟩ (.cons ⟨trivial, rfl⟩
      (.cons ⟨trivial, rfl⟩ (.nil _)))), ?_⟩
    exact ⟨by decide, by decide, by decide⟩

end InternetOs.Net
