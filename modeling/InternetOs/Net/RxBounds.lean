import InternetOs.Lib.Logged
import InternetOs.Net.RxText

/-!
# What is read of a received frame

`eth_recv`, `ip_recv`, `udp_recv` and `tcp_recv` once more, with a log of the bytes they read and of the socket the
frame is handed to; `ethRecvR_val` says that they are the functions of `Net.Receive`.  `udp_recv` compares the
lengths of the headers with that of the mbuf, `tcp_recv` does not: it sums as many bytes as the IP header says, and
the text is as long as the IP header and the data offset say.

    reads, mbuf and drops are as they should ↔ the TCP lengths are inside the frame       (framesInside)
-/

namespace InternetOs.Net

open SockCbState Option Stack Mbuf

/-! ## The layers, with a log -/

/-- A byte of the buffer is read, or the frame is handed to the block at `p`. -/
inductive RxEv
  | read (i : Nat)
  | hand (p : Nat)
  deriving DecidableEq, Repr

abbrev Rd (α : Type) := Logged RxEv α

def rd8 (buf : Nat → UInt8) (i : Nat) : Rd UInt8 := ⟨buf i, [.read i]⟩

def rd16 (buf : Nat → UInt8) (i : Nat) : Rd UInt16 := ⟨be16 buf i, [.read i, .read (i + 1)]⟩

def rd32 (buf : Nat → UInt8) (i : Nat) : Rd UInt32 :=
  ⟨be32 buf i, [.read i, .read (i + 1), .read (i + 2), .read (i + 3)]⟩

def cksumSumR (buf : Nat → UInt8) : Nat → Nat → UInt32 → Rd UInt32
  | 0, _, sum => pure sum
  | 1, i, sum => do
    let hi ← rd8 buf i
    pure (sum + hi.toUInt32 <<< 8)
  | size + 2, i, sum => do
    let hi ← rd8 buf i
    let lo ← rd8 buf (i + 1)
    cksumSumR buf size (i + 2) (sum + hi.toUInt32 <<< 8 + lo.toUInt32)

def cksum16R (buf : Nat → UInt8) (i size : Nat) (init : UInt32) : Rd UInt16 := do
  let sum ← cksumSumR buf size i init
  let sum : UInt32 := (sum &&& (0xffff : UInt32)) + (sum >>> (16 : UInt32))
  let sum : UInt32 := (sum &&& (0xffff : UInt32)) + (sum >>> (16 : UInt32))
  pure (~~~ sum.toUInt16)

def tcpChecksumR (buf : Nat → UInt8) (ip tcp : Nat) (len : UInt16) : Rd UInt16 := do
  let srcHi ← rd16 buf (ip + 12)
  let srcLo ← rd16 buf (ip + 14)
  let dstHi ← rd16 buf (ip + 16)
  let dstLo ← rd16 buf (ip + 18)
  let p ← rd8 buf (ip + 9)
  cksum16R buf tcp len.toNat (srcLo.toUInt32 + srcHi.toUInt32 + dstLo.toUInt32 + dstHi.toUInt32 + p.toUInt32 +
    len.toUInt32)

/-- The fields that are read through `m->tcphdr`, which points to `tcp`. -/
def tcpHdrReads (c : Conn) (a tcp : Nat) (len : UInt16) : Rd Unit := do
  let buf := (c.mbufs a).buf
  let _ ← rd32 buf (tcp + 8)
  let _ ← rd32 buf (tcp + 4)
  let _ ← rd8 buf (tcp + 13)
  if c.scb.state ≠ listen ∧ c.scb.state ≠ synSent then
    let _ ← rd8 buf (tcp + 12)
    if ReachesAck c a len then
      let _ ← rd16 buf (tcp + 14)
      if TakesText c a len then
        let _ ← rd8 buf (tcp + 13)

/-- `tcp_recv` hands the segment to the block. -/
def tcpHandR (n : Stack) (a tcp : Nat) (len : UInt16) (p : Nat) : Rd Unit := do
  if p ≠ 0 ∧ wrongPeer (n.scbs p) (n.mbufs a).tcphdr.sport = false ∧ (n.scbs p).state ≠ closed then
    Logged.emit (.hand p)
    tcpHdrReads (n.conn p) a tcp len

def tcpRecvR (n : Stack) (a ip : Nat) (len : UInt16) : Rd (Option Stack) :=
  let r := mbufpull (n.mbufs a) 20
  match r.1 with
  | none => pure (some n)
  | some tcp => do
    let n := n.setMbuf a { r.2 with tcphdr := tcpHdrAt r.2.buf tcp }
    let raddr ← rd32 r.2.buf (ip + 12)
    let sport ← rd16 r.2.buf (tcp + 2)
    let dport ← rd16 r.2.buf tcp
    let sum ← tcpChecksumR r.2.buf ip tcp len
    if sum ≠ 0 then pure (some n)
    else
      tcpHandR n a tcp len ((getSockCb n .tcp sport raddr dport).getD 0)
      pure (tcpRecvAt n a len raddr)

def udpRecvR (n : Stack) (a ip : Nat) (len : UInt16) : Rd (Option Stack) :=
  let r := mbufpull (n.mbufs a) 8
  match r.1 with
  | none => pure (some n)
  | some udp => do
    let ulen ← rd16 r.2.buf (udp + 4)
    if ulen ≠ len then pure (some (n.setMbuf a r.2))
    else if (len - 8).toNat > r.2.len then pure (some (n.setMbuf a r.2))
    else
      let n := n.setMbuf a (mbuftrim r.2 (r.2.len - (len - 8).toNat))
      let raddr ← rd32 r.2.buf (ip + 12)
      let sport ← rd16 r.2.buf (udp + 2)
      let dport ← rd16 r.2.buf udp
      let p := (getSockCb n .udp sport raddr dport).getD 0
      if p ≠ 0 then Logged.emit (.hand p)
      pure (udpRecvAt n a raddr ⟨dport, sport, ulen⟩)

def ipRecvR (localIp : UInt32) (n : Stack) (a : Nat) : Rd (Option Stack) :=
  let r := mbufpull (n.mbufs a) 20
  match r.1 with
  | none => pure (some n)
  | some ip => do
    let buf := r.2.buf
    let n := n.setMbuf a r.2
    let vhl ← rd8 buf ip
    if vhl ≠ 0x45 then pure (some n)
    else
      let sum ← cksum16R buf ip 20 0
      if sum ≠ 0 then pure (some n)
      else
        let off ← rd16 buf (ip + 6)
        if off &&& 0x1fff ≠ 0 then pure (some n)
        else
          let dst ← rd32 buf (ip + 16)
          if dst ≠ localIp then pure (some n)
          else
            let len ← rd16 buf (ip + 2)
            let p ← rd8 buf (ip + 9)
            if p = 17 then udpRecvR n a ip (len - 20)
            else if p = 6 then tcpRecvR n a ip (len - 20)
            else pure (some n)

def ethRecvR (localIp : UInt32) (n : Stack) (a : Nat) : Rd (Option Stack) :=
  let r := mbufpull (n.mbufs a) 14
  match r.1 with
  | none => pure (some n)
  | some eth => do
    let n := n.setMbuf a r.2
    let type ← rd16 r.2.buf (eth + 12)
    if type = 0x0800 then ipRecvR localIp n a else pure (some n)

/-! ## The same functions -/

section
variable (buf : Nat → UInt8) (i : Nat)

@[simp] theorem rd8_val : (rd8 buf i).val = buf i := rfl
@[simp] theorem rd16_val : (rd16 buf i).val = be16 buf i := rfl
@[simp] theorem rd32_val : (rd32 buf i).val = be32 buf i := rfl

theorem cksumSumR_val (n : Nat) (sum : UInt32) : (cksumSumR buf n i sum).val = cksumSum buf n i sum := by
  fun_induction cksumSum buf n i sum with
  | case1 => rfl
  | case2 => rfl
  | case3 n i sum ih => exact ih

@[simp] theorem cksum16R_val (n : Nat) (init : UInt32) : (cksum16R buf i n init).val = cksum16 buf i n init := by
  simp [cksum16R, cksum16, cksumSumR_val]

@[simp] theorem tcpChecksumR_val (ip : Nat) (len : UInt16) :
    (tcpChecksumR buf ip i len).val = tcpChecksum buf ip i len := by
  simp [tcpChecksumR, tcpChecksum]

end

theorem tcpRecvR_val (n : Stack) (a ip : Nat) (len : UInt16) :
    (tcpRecvR n a ip len).val = tcpRecvFrame n a ip len := by
  unfold tcpRecvR tcpRecvFrame
  dsimp only
  cases (mbufpull (n.mbufs a) 20).1 with
  | none => rfl
  | some tcp =>
    simp only [Logged.val_bind, Logged.val_ite, tcpChecksumR_val]
    rfl

theorem udpRecvR_val (n : Stack) (a ip : Nat) (len : UInt16) :
    (udpRecvR n a ip len).val = udpRecvFrame n a ip len := by
  unfold udpRecvR udpRecvFrame
  dsimp only
  cases (mbufpull (n.mbufs a) 8).1 with
  | none => rfl
  | some udp =>
    simp only [Logged.val_bind, Logged.val_ite, ite_self]
    rfl

theorem ipRecvR_val (localIp : UInt32) (n : Stack) (a : Nat) : (ipRecvR localIp n a).val = ipRecvOn localIp n a := by
  unfold ipRecvR ipRecvOn
  dsimp only
  cases (mbufpull (n.mbufs a) 20).1 with
  | none => rfl
  | some ip =>
    simp only [Logged.val_bind, Logged.val_ite, tcpRecvR_val, udpRecvR_val]
    rfl

theorem ethRecvR_val (localIp : UInt32) (n : Stack) (a : Nat) : (ethRecvR localIp n a).val = ethRecvOn localIp n a := by
  unfold ethRecvR ethRecvOn
  dsimp only
  cases (mbufpull (n.mbufs a) 14).1 with
  | none => rfl
  | some eth =>
    simp only [Logged.val_bind, Logged.val_ite, ipRecvR_val]
    rfl

/-! ## What is read -/

/-- A byte that is read lies in `[lo, hi)`. -/
def RxEv.Inside (lo hi : Nat) : RxEv → Prop
  | .read i => lo ≤ i ∧ i < hi
  | .hand _ => True

def RxEv.NoHand : RxEv → Prop
  | .read _ => True
  | .hand _ => False

section
variable {P : RxEv → Prop} (buf : Nat → UInt8) (i : Nat)

@[simp] theorem rd8_all : (rd8 buf i).All P ↔ P (.read i) := by
  simp [rd8, Logged.All]

@[simp] theorem rd16_all : (rd16 buf i).All P ↔ P (.read i) ∧ P (.read (i + 1)) := by
  simp [rd16, Logged.All]

@[simp] theorem rd32_all :
    (rd32 buf i).All P ↔ P (.read i) ∧ P (.read (i + 1)) ∧ P (.read (i + 2)) ∧ P (.read (i + 3)) := by
  simp [rd32, Logged.All]

theorem cksumSumR_all (n : Nat) (sum : UInt32) : (cksumSumR buf n i sum).All P ↔ ∀ j < n, P (.read (i + j)) := by
  fun_induction cksumSumR buf n i sum with
  | case1 => simp
  | case2 i sum =>
    simp
  | case3 n i sum ih =>
    simp only [Logged.all_bind, rd8_all, ih]
    constructor
    · rintro ⟨h0, h1, h⟩ j hj
      rcases j with _ | _ | j
      · exact h0
      · exact h1
      · have := h j (by omega)
        rwa [show i + 2 + j = i + (j + 2) by omega] at this
    · intro h
      refine ⟨h 0 (by omega), h 1 (by omega), fun j hj => ?_⟩
      have := h (j + 2) (by omega)
      rwa [show i + (j + 2) = i + 2 + j by omega] at this

@[simp] theorem cksum16R_all (n : Nat) (init : UInt32) :
    (cksum16R buf i n init).All P ↔ ∀ j < n, P (.read (i + j)) := by
  unfold cksum16R
  simp [cksumSumR_all]

end

/-- A predicate on events that holds of every byte of the mbuf. -/
def Mbuf.Reads (m : Mbuf) (P : RxEv → Prop) : Prop := ∀ i, m.head ≤ i → i < m.head + m.len → P (.read i)

theorem Mbuf.reads_inside (m : Mbuf) : m.Reads (RxEv.Inside m.head (m.head + m.len)) := fun _ h h' => ⟨h, h'⟩

theorem Mbuf.reads_noHand (m : Mbuf) : m.Reads RxEv.NoHand := fun _ _ _ => trivial

/-- An mbuf of which `k` bytes have been pulled. -/
def Mbuf.adv (m : Mbuf) (k : Nat) : Mbuf := { m with head := m.head + k, len := m.len - k }

theorem mbufpull_adv {m : Mbuf} {k : Nat} (h : k ≤ m.len) : mbufpull m k = (some m.head, m.adv k) :=
  mbufpull_of_le h

theorem mbufpull_short {m : Mbuf} {k : Nat} (h : ¬ k ≤ m.len) : (mbufpull m k).1 = none := by
  unfold mbufpull
  rw [if_pos (not_le.mp h)]

/-- The frame in `m` is an IP packet that `ip_recv` passes on. -/
structure IpForUs (localIp : UInt32) (m : Mbuf) : Prop where
  len : 34 ≤ m.len
  type : be16 m.buf (m.head + 12) = 0x0800
  vhl : m.buf (m.head + 14) = 0x45
  sum : cksum16 m.buf (m.head + 14) 20 0 = 0
  whole : be16 m.buf (m.head + 20) &&& 0x1fff = 0
  dst : be32 m.buf (m.head + 30) = localIp

/-- `ip_len`. -/
def Mbuf.ipLen (m : Mbuf) : UInt16 := be16 m.buf (m.head + 16)

/-- `ip_p`. -/
def Mbuf.ipP (m : Mbuf) : UInt8 := m.buf (m.head + 23)

/-- Up to `y`, the computation `x` reads nothing but bytes of the mbuf. -/
structure Mbuf.Passes (m : Mbuf) {α : Type} (x y : Rd α) : Prop where
  val : x.val = y.val
  all : ∀ P, m.Reads P → (x.All P ↔ y.All P)

section
variable {m : Mbuf} {α : Type} {x y z : Rd α} {i : Nat} {buf : Nat → UInt8}

theorem Mbuf.Passes.refl (m : Mbuf) (x : Rd α) : m.Passes x x := ⟨rfl, fun _ _ => Iff.rfl⟩

theorem Mbuf.Passes.trans (h : m.Passes x y) (h' : m.Passes y z) : m.Passes x z :=
  ⟨h.val.trans h'.val, fun P hP => (h.all P hP).trans (h'.all P hP)⟩

theorem Mbuf.Passes.bind {β : Type} (h : m.Passes x y) (f : α → Rd β) : m.Passes (x >>= f) (y >>= f) := by
  refine ⟨by rw [Logged.val_bind, Logged.val_bind, h.val], fun P hP => ?_⟩
  rw [Logged.all_bind, Logged.all_bind, h.all P hP, h.val]

theorem Mbuf.Passes.read8 (f : UInt8 → Rd α) (h : m.head ≤ i) (h' : i < m.head + m.len) :
    m.Passes (rd8 buf i >>= f) (f (buf i)) := by
  refine ⟨rfl, fun P hP => ?_⟩
  rw [Logged.all_bind, rd8_all]
  exact and_iff_right (hP i h h')

theorem Mbuf.Passes.read16 (f : UInt16 → Rd α) (h : m.head ≤ i) (h' : i + 1 < m.head + m.len) :
    m.Passes (rd16 buf i >>= f) (f (be16 buf i)) := by
  refine ⟨rfl, fun P hP => ?_⟩
  rw [Logged.all_bind, rd16_all]
  exact and_iff_right ⟨hP i h (by omega), hP (i + 1) (by omega) h'⟩

theorem Mbuf.Passes.read32 (f : UInt32 → Rd α) (h : m.head ≤ i) (h' : i + 3 < m.head + m.len) :
    m.Passes (rd32 buf i >>= f) (f (be32 buf i)) := by
  refine ⟨rfl, fun P hP => ?_⟩
  rw [Logged.all_bind, rd32_all]
  exact and_iff_right ⟨hP i h (by omega), hP (i + 1) (by omega) (by omega), hP (i + 2) (by omega) (by omega),
    hP (i + 3) (by omega) h'⟩

theorem Mbuf.Passes.cksum (f : UInt16 → Rd α) {n : Nat} (init : UInt32) (h : m.head ≤ i)
    (h' : i + n ≤ m.head + m.len) : m.Passes (cksum16R buf i n init >>= f) (f (cksum16 buf i n init)) := by
  refine ⟨by rw [Logged.val_bind, cksum16R_val], fun P hP => ?_⟩
  rw [Logged.all_bind, cksum16R_all, cksum16R_val]
  exact and_iff_right fun j hj => hP (i + j) (by omega) (by omega)

end

/-- How far the frame in the mbuf at `a` comes. -/
inductive EthPath (localIp : UInt32) (n : Stack) (a : Nat) : Prop
  | drop (hnot : IpForUs localIp (n.mbufs a) → (n.mbufs a).ipP ≠ 17 ∧ (n.mbufs a).ipP ≠ 6)
      (k : Nat) (hk : k ≤ (n.mbufs a).len)
      (h : (n.mbufs a).Passes (ethRecvR localIp n a) (pure (some (n.setMbuf a ((n.mbufs a).adv k)))))
  | udp (hfor : IpForUs localIp (n.mbufs a)) (hp : (n.mbufs a).ipP = 17)
      (h : (n.mbufs a).Passes (ethRecvR localIp n a) (udpRecvR (n.setMbuf a ((n.mbufs a).adv 34)) a
        ((n.mbufs a).head + 14) ((n.mbufs a).ipLen - 20)))
  | tcp (hfor : IpForUs localIp (n.mbufs a)) (hp : (n.mbufs a).ipP = 6)
      (h : (n.mbufs a).Passes (ethRecvR localIp n a) (tcpRecvR (n.setMbuf a ((n.mbufs a).adv 34)) a
        ((n.mbufs a).head + 14) ((n.mbufs a).ipLen - 20)))

section
variable {localIp : UInt32} {n : Stack} {a : Nat}

@[simp] theorem Stack.setMbuf_adv_zero (n : Stack) (a : Nat) : n.setMbuf a ((n.mbufs a).adv 0) = n := by
  unfold setMbuf adv
  simp

theorem Mbuf.adv_adv (m : Mbuf) (j k : Nat) : (m.adv j).adv k = m.adv (j + k) := by
  unfold adv
  simp [add_assoc, Nat.sub_sub]

theorem ethRecvR_path (localIp : UInt32) (n : Stack) (a : Nat) : EthPath localIp n a := by
  by_cases h14 : 14 ≤ (n.mbufs a).len
  · have heth : (n.mbufs a).Passes (ethRecvR localIp n a)
        (if be16 (n.mbufs a).buf ((n.mbufs a).head + 12) = 0x0800 then
          ipRecvR localIp (n.setMbuf a ((n.mbufs a).adv 14)) a
        else pure (some (n.setMbuf a ((n.mbufs a).adv 14)))) := by
      unfold ethRecvR
      rw [mbufpull_adv h14]
      exact .read16 _ (by omega) (by omega)
    split at heth
    · next ht =>
      by_cases h34 : 34 ≤ (n.mbufs a).len
      · have hstop : ∀ {x : Rd (Option Stack)}, (n.mbufs a).Passes (ethRecvR localIp n a) x →
            x = pure (some (n.setMbuf a ((n.mbufs a).adv 34))) →
            (IpForUs localIp (n.mbufs a) → (n.mbufs a).ipP ≠ 17 ∧ (n.mbufs a).ipP ≠ 6) → EthPath localIp n a :=
          fun h hx hnot => .drop hnot 34 h34 (hx ▸ h)
        unfold ipRecvR at heth
        rw [setMbuf_self, mbufpull_adv (show 20 ≤ (n.mbufs a).len - 14 by omega)] at heth
        dsimp only at heth
        rw [setMbuf_setMbuf, adv_adv] at heth
        replace heth := heth.trans (.read8 _ (by show _ ≤ _ + 14; omega) (by show _ + 14 < _; omega))
        split at heth
        · next hv => exact hstop heth rfl fun h => absurd h.vhl hv
        next hv =>
        replace heth := heth.trans (.cksum _ _ (by show _ ≤ _ + 14; omega) (by show _ + 14 + 20 ≤ _; omega))
        split at heth
        · next hs => exact hstop heth rfl fun h => absurd h.sum hs
        next hs =>
        replace heth := heth.trans (.read16 _ (by show _ ≤ _ + 14 + 6; omega) (by show _ + 14 + 6 + 1 < _; omega))
        split at heth
        · next hw => exact hstop heth rfl fun h => absurd h.whole hw
        next hw =>
        replace heth := heth.trans (.read32 _ (by show _ ≤ _ + 14 + 16; omega) (by show _ + 14 + 16 + 3 < _; omega))
        split at heth
        · next hd => exact hstop heth rfl fun h => absurd h.dst hd
        next hd =>
        have hfor : IpForUs localIp (n.mbufs a) :=
          ⟨h34, ht, not_not.mp hv, not_not.mp hs, not_not.mp hw, not_not.mp hd⟩
        replace heth := heth.trans (.read16 _ (by show _ ≤ _ + 14 + 2; omega) (by show _ + 14 + 2 + 1 < _; omega))
        replace heth := heth.trans (.read8 _ (by show _ ≤ _ + 14 + 9; omega) (by show _ + 14 + 9 < _; omega))
        split at heth
        · next hp => exact .udp hfor hp heth
        · next hu =>
          split at heth
          · next hp => exact .tcp hfor hp heth
          · next hp => exact hstop heth rfl fun _ => ⟨hu, hp⟩
      · refine .drop (fun h => absurd h.len h34) 14 h14 (heth.trans ?_)
        unfold ipRecvR
        dsimp only
        rw [setMbuf_self, mbufpull_short (show ¬ 20 ≤ (n.mbufs a).len - 14 by omega)]
        exact .refl _ _
    · next ht => exact .drop (fun h => absurd h.type ht) 14 h14 heth
  · refine .drop (fun h => absurd h.len (by omega)) 0 (by omega) ?_
    unfold ethRecvR
    dsimp only
    rw [mbufpull_short h14, setMbuf_adv_zero]
    exact .refl _ _

end

/-! ## What is queued -/

/-- A receive queue that has changed ends in `a`. -/
def Stack.QueuesOnly (n : Stack) (a : Nat) (n' : Stack) : Prop :=
  ∀ p, (n'.scbs p).rxq = (n.scbs p).rxq ∨ (n'.scbs p).rxq.tail = a

/-- The bytes an mbuf presents are among those `m` presented. -/
def Mbuf.Within (m m' : Mbuf) : Prop := m.head ≤ m'.head ∧ m'.head + m'.len ≤ m.head + m.len

theorem Mbuf.Within.refl (m : Mbuf) : m.Within m := ⟨Nat.le_refl _, Nat.le_refl _⟩

theorem Mbuf.Within.trans {m m' m'' : Mbuf} (h : m.Within m') (h' : m'.Within m'') : m.Within m'' :=
  ⟨h.1.trans h'.1, h'.2.trans h.2⟩

theorem Mbuf.within_adv {m : Mbuf} {k : Nat} (h : k ≤ m.len) : m.Within (m.adv k) := by
  unfold Within adv
  dsimp only
  omega

theorem Mbuf.within_trim (m : Mbuf) (k : Nat) : m.Within (mbuftrim m k) := by
  unfold Within mbuftrim
  split
  · exact Within.refl m
  · dsimp only
    omega

section
variable {n n' : Stack} {a p ip : Nat} {raddr : UInt32} {len : UInt16}

theorem mbufqPushtail_tail (h : MbufHeap) (q : Mbufq) (m : Nat) : (mbufqPushtail h q m).2.tail = m := by
  unfold mbufqPushtail
  split <;> rfl

theorem freeSockCb_rxq (hs : freeSockCb n p = some n') (q : Nat) : (n'.scbs q).rxq = (n.scbs q).rxq := by
  have hl : LinkClosed Relinked :=
    ⟨.refl, .trans, relinked_setScbNext, relinked_setScbPrev, relinked_setHead⟩
  obtain ⟨n1, h1, rfl⟩ := hl.freeSockCb hs
  show (n1.scbs q).rxq = _
  rw [h1.scbs q]
  rfl

theorem Stack.QueuesOnly.refl (n : Stack) (a : Nat) : n.QueuesOnly a n := fun _ => Or.inl rfl

theorem tcpRecvAt_queuesOnly (hs : tcpRecvAt n a len raddr = some n') : n.QueuesOnly a n' := by
  by_cases hh : ∃ p, n.Hands a raddr p
  · obtain ⟨p, hp⟩ := hh
    rw [tcpRecvAt_eq hp] at hs
    dsimp only at hs
    have hq := (tcpRecvSwitch_frame (n.conn p) a len raddr (n.mbufs a).tcphdr.sport).queue
    generalize tcpRecvSwitch (n.conn p) a len raddr (n.mbufs a).tcphdr.sport = r at hs hq
    have hput : n.QueuesOnly a (n.putConn p r.1) := by
      intro q
      by_cases hqp : q = p
      · subst hqp
        rw [show (n.putConn q r.1).scbs q = r.1.scb by simp]
        rcases hq with ⟨hr, -⟩ | ⟨-, mb, -, hr, -⟩
        · exact .inl hr
        · exact .inr (by rw [hr, mbufqPushtail_tail])
      · exact .inl (by simp [hqp])
    split at hs
    · intro q
      rw [freeSockCb_rxq hs]
      exact hput q
    · cases hs
      exact hput
  · rw [tcpRecvAt_dropped (fun p hp => hh ⟨p, hp⟩) hs]
    exact .refl _ _

theorem udpRecvAt_queuesOnly {hdr : UdpHdr} (hs : udpRecvAt n a raddr hdr = some n') : n.QueuesOnly a n' := by
  obtain ⟨p, -, rfl⟩ := map_eq_some_iff.mp hs
  split
  · exact .refl _ _
  · intro q
    by_cases hqp : q = p
    · subst hqp
      right
      simp [pushToScbRxq, mbufqPushtail_tail]
    · left
      simp [hqp]

theorem udpRecvAt_mbuf {hdr : UdpHdr} (hs : udpRecvAt n a raddr hdr = some n') :
    ∃ v, n'.mbufs a = { n.mbufs a with next := v } := by
  obtain ⟨p, -, rfl⟩ := map_eq_some_iff.mp hs
  split
  · exact ⟨_, rfl⟩
  · exact mbufqPushtail_same _ _ _ _

end

/-! ## Datagrams -/

section
variable {n n' : Stack} {a ip : Nat} {len : UInt16}

theorem udpRecvR_inside {lo hi : Nat} (hlo : lo ≤ ip) (hip : ip + 20 = (n.mbufs a).head)
    (hhi : (n.mbufs a).head + (n.mbufs a).len ≤ hi) : (udpRecvR n a ip len).All (RxEv.Inside lo hi) := by
  unfold udpRecvR
  by_cases h8 : 8 ≤ (n.mbufs a).len
  · rw [mbufpull_adv h8]
    simp only [Logged.all_bind, Logged.all_ite, Logged.all_pure, Logged.all_emit, rd16_all, rd32_all]
    simp only [RxEv.Inside, implies_true, and_true, true_and]
    refine ⟨by omega, fun _ _ => by omega⟩
  · dsimp only
    rw [mbufpull_short h8]
    simp

theorem udpRecvFrame_within (hs : udpRecvFrame n a ip len = some n') :
    (n.mbufs a).Within (n'.mbufs a) ∧ n.QueuesOnly a n' := by
  unfold udpRecvFrame at hs
  by_cases h8 : 8 ≤ (n.mbufs a).len
  · rw [mbufpull_adv h8] at hs
    dsimp only at hs
    split at hs
    · rw [← some.inj hs, setMbuf_self]
      exact ⟨within_adv h8, .refl _ _⟩
    split at hs
    · rw [← some.inj hs, setMbuf_self]
      exact ⟨within_adv h8, .refl _ _⟩
    · obtain ⟨v, hv⟩ := udpRecvAt_mbuf hs
      have hq := udpRecvAt_queuesOnly hs
      rw [hv, setMbuf_self]
      exact ⟨(within_adv h8).trans (within_trim _ _), hq⟩
  · dsimp only at hs
    rw [mbufpull_short h8] at hs
    cases hs
    exact ⟨.refl _, .refl _ _⟩

/-- A datagram that is longer than what was received is handed to nobody. -/
theorem udpRecvR_dropped (ip : Nat) {m : Mbuf} (hlo : m.head ≤ (n.mbufs a).head)
    (hhi : (n.mbufs a).head + (n.mbufs a).len ≤ m.head + m.len)
    (h : 8 ≤ (n.mbufs a).len → be16 (n.mbufs a).buf ((n.mbufs a).head + 4) = len →
      (n.mbufs a).len - 8 < (len - 8).toNat) :
    ∃ m', m.Passes (udpRecvR n a ip len) (pure (some (n.setMbuf a m'))) := by
  unfold udpRecvR
  by_cases h8 : 8 ≤ (n.mbufs a).len
  · rw [mbufpull_adv h8]
    refine ⟨(n.mbufs a).adv 8, (Passes.read16 _ (by omega) (by omega)).trans ?_⟩
    by_cases hu : be16 ((n.mbufs a).adv 8).buf ((n.mbufs a).head + 4) = len
    · have hlen : (len - 8).toNat > ((n.mbufs a).adv 8).len := h h8 hu
      rw [if_neg (not_not.mpr hu), if_pos hlen]
      exact .refl _ _
    · rw [if_pos hu]
      exact .refl _ _
  · dsimp only
    rw [mbufpull_short h8]
    exact ⟨(n.mbufs a).adv 0, by rw [setMbuf_adv_zero]; exact .refl _ _⟩

end

/-! ## Segments -/

/-- The frame in `m` carries a TCP segment for us; `tcp_recv` finds the whole header. -/
structure TcpForUs (localIp : UInt32) (m : Mbuf) : Prop extends IpForUs localIp m where
  p : m.ipP = 6
  hdr : 54 ≤ m.len

/-- The length of the segment by the IP header. -/
def Mbuf.segLen (m : Mbuf) : UInt16 := m.ipLen - 20

/-- `ip_src`. -/
def Mbuf.ipSrc (m : Mbuf) : UInt32 := be32 m.buf (m.head + 26)

/-- What `tcp_checksum` makes of the segment in the frame. -/
def Mbuf.tcpSum (m : Mbuf) : UInt16 := tcpChecksum m.buf (m.head + 14) (m.head + 34) m.segLen

/-- The frame in the mbuf at `a`, once `tcp_recv` has pulled the header. -/
def Stack.atTcp (n : Stack) (a : Nat) : Stack := (n.setMbuf a ((n.mbufs a).adv 34)).pulled a

/-- The lengths of a segment for us are inside the frame: that of the IP header, the data offset of a segment that is
handed to a block, and the length of the text that is taken. -/
def TcpInside (localIp : UInt32) (n : Stack) (a : Nat) : Prop :=
  let m := n.mbufs a
  TcpForUs localIp m → 34 + m.segLen.toNat ≤ m.len ∧ (m.tcpSum = 0 →
      (∀ p, (n.atTcp a).Hands a m.ipSrc p → 34 + 4 * (m.adv 34).dataOff ≤ m.len) ∧
      ∀ p, (n.atTcp a).HandsText a m.ipSrc m.segLen p →
        54 + (tcpDataLen (tcpHdrAt m.buf (m.head + 34)) m.segLen).toNat ≤ m.len)

section
variable {n n' : Stack} {a ip : Nat} {len : UInt16}

/-- `tcp_recv` once the header is pulled and the fields before the checksum are read. -/
def tcpSumR (n : Stack) (a ip : Nat) (len : UInt16) : Rd (Option Stack) := do
  let sum ← cksum16R (n.mbufs a).buf (n.mbufs a).head len.toNat
    ((be16 (n.mbufs a).buf (ip + 14)).toUInt32 + (be16 (n.mbufs a).buf (ip + 12)).toUInt32 +
      (be16 (n.mbufs a).buf (ip + 18)).toUInt32 + (be16 (n.mbufs a).buf (ip + 16)).toUInt32 +
      ((n.mbufs a).buf (ip + 9)).toUInt32 + len.toUInt32)
  if sum ≠ 0 then pure (some (n.pulled a))
  else
    tcpHandR (n.pulled a) a (n.mbufs a).head len ((getSockCb (n.pulled a) .tcp
      (be16 (n.mbufs a).buf ((n.mbufs a).head + 2)) (be32 (n.mbufs a).buf (ip + 12))
      (be16 (n.mbufs a).buf (n.mbufs a).head)).getD 0)
    pure (tcpRecvAt (n.pulled a) a len (be32 (n.mbufs a).buf (ip + 12)))

theorem tcpChecksumR_passes {m : Mbuf} {buf : Nat → UInt8} {tcp : Nat} (hlo : m.head ≤ ip)
    (hhi : ip + 20 ≤ m.head + m.len) : m.Passes (tcpChecksumR buf ip tcp len)
      (cksum16R buf tcp len.toNat ((be16 buf (ip + 14)).toUInt32 + (be16 buf (ip + 12)).toUInt32 +
        (be16 buf (ip + 18)).toUInt32 + (be16 buf (ip + 16)).toUInt32 + (buf (ip + 9)).toUInt32 + len.toUInt32)) := by
  refine (Passes.read16 _ (by omega) (by omega)).trans ?_
  refine (Passes.read16 _ (by omega) (by omega)).trans ?_
  refine (Passes.read16 _ (by omega) (by omega)).trans ?_
  refine (Passes.read16 _ (by omega) (by omega)).trans ?_
  exact Passes.read8 _ (by omega) (by omega)

theorem tcpRecvR_passes {m : Mbuf} (h20 : 20 ≤ (n.mbufs a).len) (hlo : m.head ≤ ip) (hip : ip + 20 = (n.mbufs a).head)
    (hhi : (n.mbufs a).head + (n.mbufs a).len ≤ m.head + m.len) :
    m.Passes (tcpRecvR n a ip len) (tcpSumR n a ip len) := by
  unfold tcpRecvR
  rw [mbufpull_adv h20]
  refine (Passes.read32 _ (by omega) (by omega)).trans ?_
  refine (Passes.read16 _ (by omega) (by omega)).trans ?_
  refine (Passes.read16 _ (by omega) (by omega)).trans ?_
  refine ((tcpChecksumR_passes hlo (by omega)).bind _).trans ?_
  exact .refl _ _

theorem Stack.pulled_tcphdr (n : Stack) (a : Nat) :
    ((n.pulled a).mbufs a).tcphdr = tcpHdrAt (n.mbufs a).buf (n.mbufs a).head :=
  congrArg tcphdr setMbuf_self

/-- The fields that are read through `m->tcphdr` are in the first 16 bytes of the header. -/
theorem tcpHandR_inside {lo hi tcp p : Nat} (hlo : lo ≤ tcp) (hhi : tcp + 16 ≤ hi) :
    (tcpHandR n a tcp len p).All (RxEv.Inside lo hi) := by
  unfold tcpHandR tcpHdrReads
  simp only [Logged.all_bind, Logged.all_ite, Logged.all_pure, Logged.all_emit, rd8_all, rd16_all, rd32_all]
  simp only [RxEv.Inside, implies_true, and_true, true_and]
  refine fun _ => ⟨by omega, by omega, by omega, fun _ => ⟨by omega, fun _ => ⟨by omega, fun _ => by omega⟩⟩⟩

theorem tcpHandR_noHand {tcp p : Nat} : (tcpHandR n a tcp len p).All RxEv.NoHand ↔
    ¬ (p ≠ 0 ∧ wrongPeer (n.scbs p) (n.mbufs a).tcphdr.sport = false ∧ (n.scbs p).state ≠ closed) := by
  unfold tcpHandR
  simp only [Logged.all_bind, Logged.all_ite, Logged.all_pure, Logged.all_emit]
  simp only [RxEv.NoHand, false_and, implies_true, and_true]

theorem Stack.hands_getD (raddr : UInt32) {sport dport : UInt16} (hs : (n.mbufs a).tcphdr.dport = sport)
    (hd : (n.mbufs a).tcphdr.sport = dport) : (((getSockCb n .tcp sport raddr dport).getD 0 ≠ 0 ∧
      wrongPeer (n.scbs ((getSockCb n .tcp sport raddr dport).getD 0)) (n.mbufs a).tcphdr.sport = false ∧
      (n.scbs ((getSockCb n .tcp sport raddr dport).getD 0)).state ≠ closed) ↔ ∃ p, n.Hands a raddr p) := by
  subst hs hd
  constructor
  · rintro ⟨h0, hw, hc⟩
    cases hg : getSockCb n .tcp (n.mbufs a).tcphdr.dport raddr (n.mbufs a).tcphdr.sport with
    | none =>
      rw [hg] at h0
      exact absurd rfl h0
    | some p =>
      rw [hg] at h0 hw hc
      exact ⟨p, hg, h0, hw, hc⟩
  · rintro ⟨p, hg, h0, hw, hc⟩
    rw [hg]
    exact ⟨h0, hw, hc⟩

theorem tcpSumR_inside {lo hi : Nat} (hlo : lo ≤ (n.mbufs a).head) (hhi : (n.mbufs a).head + 20 ≤ hi) :
    (tcpSumR n a ip len).All (RxEv.Inside lo hi) ↔ (n.mbufs a).head + len.toNat ≤ hi := by
  unfold tcpSumR
  rw [Logged.all_bind, cksum16R_all]
  constructor
  · rintro ⟨hsum, -⟩
    by_contra hlt
    have := (hsum (len.toNat - 1) (by omega)).2
    omega
  · intro hle
    refine ⟨fun j hj => ⟨by omega, by omega⟩, ?_⟩
    rw [Logged.all_ite]
    refine ⟨fun _ => by simp, fun _ => ?_⟩
    rw [Logged.all_bind]
    exact ⟨tcpHandR_inside hlo (by omega), by simp⟩

theorem tcpSumR_noHand : (tcpSumR n a ip len).All RxEv.NoHand ↔
    (tcpChecksum (n.mbufs a).buf ip (n.mbufs a).head len = 0 →
      ∀ p, ¬ (n.pulled a).Hands a (be32 (n.mbufs a).buf (ip + 12)) p) := by
  have hget := (n.pulled a).hands_getD (be32 (n.mbufs a).buf (ip + 12))
    (congrArg TcpHdr.dport (n.pulled_tcphdr a)) (congrArg TcpHdr.sport (n.pulled_tcphdr a))
  unfold tcpSumR
  rw [Logged.all_bind, cksum16R_all, Logged.all_ite, Logged.all_bind, tcpHandR_noHand]
  rw [show (tcpHdrAt (n.mbufs a).buf (n.mbufs a).head).dport = be16 (n.mbufs a).buf ((n.mbufs a).head + 2) from rfl,
    show (tcpHdrAt (n.mbufs a).buf (n.mbufs a).head).sport = be16 (n.mbufs a).buf (n.mbufs a).head from rfl] at hget
  rw [hget, cksum16R_val]
  simp only [RxEv.NoHand, implies_true, Logged.all_pure, and_true, true_and, not_exists, not_not]
  exact Iff.rfl

end

/-! ## Frames -/

/-- A length in the headers of the frame is more than what was received. -/
def Mbuf.Oversized (m : Mbuf) : Prop :=
  34 ≤ m.len ∧ (m.len - 14 < m.ipLen.toNat ∨ m.ipP = 17 ∧ 42 ≤ m.len ∧ m.len - 34 < (be16 m.buf (m.head + 38)).toNat ∨
    m.ipP = 6 ∧ 54 ≤ m.len ∧ m.len - 34 < 4 * (m.adv 34).dataOff)

/-- `eth_recv` stays inside the frame in the mbuf at `a`. -/
structure ParsedInside (localIp : UInt32) (n : Stack) (a : Nat) : Prop where
  reads : (ethRecvR localIp n a).All (RxEv.Inside (n.mbufs a).head ((n.mbufs a).head + (n.mbufs a).len))
  queues : ∀ n', ethRecvOn localIp n a = some n' → n.QueuesOnly a n'
  within : ∀ n', ethRecvOn localIp n a = some n' → (n.mbufs a).Within (n'.mbufs a)
  drops : (n.mbufs a).Oversized → (ethRecvR localIp n a).All RxEv.NoHand ∧
    ∀ n', ethRecvOn localIp n a = some n' → ∃ m, n' = n.setMbuf a m

section
variable {localIp : UInt32} {n n' : Stack} {a : Nat}

theorem Mbuf.Passes.drops {m : Mbuf} (h : (n.mbufs a).Passes (ethRecvR localIp n a) (pure (some (n.setMbuf a m)))) :
    (ethRecvR localIp n a).All RxEv.NoHand ∧ ∀ n', ethRecvOn localIp n a = some n' → ∃ m, n' = n.setMbuf a m := by
  refine ⟨(h.all _ (n.mbufs a).reads_noHand).mpr (by simp), fun n' hs => ⟨m, ?_⟩⟩
  rw [← ethRecvR_val, h.val] at hs
  exact (some.inj hs).symm

theorem Mbuf.Passes.parsed {k : Nat} (hk : k ≤ (n.mbufs a).len)
    (h : (n.mbufs a).Passes (ethRecvR localIp n a) (pure (some (n.setMbuf a ((n.mbufs a).adv k))))) :
    ParsedInside localIp n a := by
  have hval : ethRecvOn localIp n a = some (n.setMbuf a ((n.mbufs a).adv k)) := by
    rw [← ethRecvR_val]
    exact h.val
  refine ⟨?_, fun n' hs => ?_, fun n' hs => ?_, fun _ => h.drops⟩
  · exact (h.all _ (n.mbufs a).reads_inside).mpr (by simp)
  · rw [← some.inj (hval.symm.trans hs)]
    exact .refl _ _
  · rw [← some.inj (hval.symm.trans hs), setMbuf_self]
    exact within_adv hk

theorem Mbuf.Oversized.udp {m : Mbuf} (h : m.Oversized) (hp : m.ipP = 17) (h42 : 42 ≤ m.len)
    (hu : be16 m.buf (m.head + 38) = m.segLen) : m.len - 42 < (m.segLen - 8).toNat := by
  have hlong : m.len - 34 < m.segLen.toNat := by
    rcases h.2 with hip | ⟨-, -, hudp⟩ | ⟨htcp, -⟩
    · unfold segLen
      rw [UInt16.toNat_sub_of_le _ _ (by rw [UInt16.le_iff_toNat_le]; show 20 ≤ _; omega)]
      show _ < _ - 20
      omega
    · rwa [hu] at hudp
    · rw [hp] at htcp
      exact absurd htcp (by decide)
  rw [UInt16.toNat_sub_of_le _ _ (by rw [UInt16.le_iff_toNat_le]; show 8 ≤ _; omega)]
  show _ < _ - 8
  omega

theorem udp_parsed (hfor : IpForUs localIp (n.mbufs a)) (hp : (n.mbufs a).ipP = 17)
    (h : (n.mbufs a).Passes (ethRecvR localIp n a) (udpRecvR (n.setMbuf a ((n.mbufs a).adv 34)) a
      ((n.mbufs a).head + 14) (n.mbufs a).segLen)) : ParsedInside localIp n a := by
  have hlen := hfor.len
  have hself : (n.setMbuf a ((n.mbufs a).adv 34)).mbufs a = (n.mbufs a).adv 34 := setMbuf_self
  have hend : (n.mbufs a).head + 34 + ((n.mbufs a).len - 34) ≤ (n.mbufs a).head + (n.mbufs a).len := by omega
  have hval : ethRecvOn localIp n a = udpRecvFrame (n.setMbuf a ((n.mbufs a).adv 34)) a
      ((n.mbufs a).head + 14) (n.mbufs a).segLen := by
    rw [← ethRecvR_val, h.val, udpRecvR_val]
  refine ⟨(h.all _ (n.mbufs a).reads_inside).mpr ?_, fun n' hs => ?_, fun n' hs => ?_, fun hover => ?_⟩
  · exact udpRecvR_inside (by omega) (by rw [hself]; rfl) (by rw [hself]; exact hend)
  · exact (udpRecvFrame_within (hval.symm.trans hs)).2
  · have := (udpRecvFrame_within (hval.symm.trans hs)).1
    rw [hself] at this
    exact (within_adv hlen).trans this
  · obtain ⟨m', hm'⟩ := udpRecvR_dropped (n := n.setMbuf a ((n.mbufs a).adv 34)) (a := a) (m := n.mbufs a)
      ((n.mbufs a).head + 14) (by rw [hself]; exact Nat.le_add_right _ _)
      (by rw [hself]; exact hend) (by
        rw [hself]
        intro h8 hu
        have h8' : 8 ≤ (n.mbufs a).len - 34 := h8
        have := hover.udp hp (by omega) hu
        show (n.mbufs a).len - 34 - 8 < _
        omega)
    rw [setMbuf_setMbuf] at hm'
    exact (h.trans hm').drops

theorem Stack.atTcp_mbuf (n : Stack) (a : Nat) : (n.atTcp a).mbufs a = { (n.mbufs a).adv 54 with
    tcphdr := tcpHdrAt (n.mbufs a).buf ((n.mbufs a).head + 34) } := by
  unfold atTcp pulled
  simp [adv, Nat.sub_sub]

theorem Stack.atTcp_eq (n : Stack) (a : Nat) : ∃ m, n.atTcp a = n.setMbuf a m := by
  unfold atTcp pulled
  rw [setMbuf_setMbuf]
  exact ⟨_, rfl⟩

/-- An oversized segment that is not longer than the frame by its IP header has a data offset that is. -/
theorem Mbuf.Oversized.tcp {m : Mbuf} (h : m.Oversized) (hp : m.ipP = 6) (hlen : 34 + m.segLen.toNat ≤ m.len) :
    m.len < 34 + 4 * (m.adv 34).dataOff := by
  rcases h.2 with hip | ⟨hudp, -⟩ | ⟨-, -, htcp⟩
  · unfold segLen at hlen
    rw [UInt16.toNat_sub_of_le _ _ (by rw [UInt16.le_iff_toNat_le]; show 20 ≤ _; omega)] at hlen
    change 34 + (_ - 20) ≤ _ at hlen
    omega
  · rw [hp] at hudp
    exact absurd hudp (by decide)
  · omega

/-- `eth_recv` on the frame of a segment. -/
structure TcpParse (localIp : UInt32) (n : Stack) (a : Nat) : Prop where
  inside : (ethRecvR localIp n a).All (RxEv.Inside (n.mbufs a).head ((n.mbufs a).head + (n.mbufs a).len)) ↔
    34 + (n.mbufs a).segLen.toNat ≤ (n.mbufs a).len
  noHand : (ethRecvR localIp n a).All RxEv.NoHand ↔
    ((n.mbufs a).tcpSum = 0 → ∀ p, ¬ (n.atTcp a).Hands a (n.mbufs a).ipSrc p)
  val : ethRecvOn localIp n a =
    if (n.mbufs a).tcpSum ≠ 0 then some (n.atTcp a) else tcpRecvAt (n.atTcp a) a (n.mbufs a).segLen (n.mbufs a).ipSrc

theorem tcp_parse (h54 : 54 ≤ (n.mbufs a).len)
    (h : (n.mbufs a).Passes (ethRecvR localIp n a) (tcpRecvR (n.setMbuf a ((n.mbufs a).adv 34)) a
      ((n.mbufs a).head + 14) (n.mbufs a).segLen)) : TcpParse localIp n a := by
  have hself : (n.setMbuf a ((n.mbufs a).adv 34)).mbufs a = (n.mbufs a).adv 34 := setMbuf_self
  have h20 : 20 ≤ ((n.mbufs a).adv 34).len := by
    show 20 ≤ _ - 34
    omega
  have hpass := h.trans (tcpRecvR_passes (by rw [hself]; exact h20) (by omega) (by rw [hself]; rfl)
    (by rw [hself]; show _ + 34 + (_ - 34) ≤ _; omega))
  refine ⟨?_, ?_, ?_⟩
  · rw [hpass.all _ (n.mbufs a).reads_inside, tcpSumR_inside (by rw [hself]; exact Nat.le_add_right _ _)
      (by rw [hself]; show _ + 34 + 20 ≤ _; omega), hself]
    show _ + 34 + _ ≤ _ ↔ _
    omega
  · rw [hpass.all _ (n.mbufs a).reads_noHand, tcpSumR_noHand, hself]
    exact Iff.rfl
  · rw [← ethRecvR_val, h.val, tcpRecvR_val, tcpRecvFrame_pulled (by rw [hself]; exact h20), hself]
    rfl

/-- The mbuf of a segment that is handed to a block with too much text, and of any other. -/
theorem TcpParse.within (h : TcpParse localIp n a) (h54 : 54 ≤ (n.mbufs a).len)
    (ht : (n.mbufs a).tcpSum = 0 → ∀ p, (n.atTcp a).HandsText a (n.mbufs a).ipSrc (n.mbufs a).segLen p →
      54 + (tcpDataLen (tcpHdrAt (n.mbufs a).buf ((n.mbufs a).head + 34)) (n.mbufs a).segLen).toNat ≤ (n.mbufs a).len)
    (hs : ethRecvOn localIp n a = some n') : (n.mbufs a).Within (n'.mbufs a) := by
  have hadv : (n.mbufs a).Within ((n.atTcp a).mbufs a) := by
    rw [atTcp_mbuf]
    exact within_adv h54
  rw [h.val] at hs
  split at hs
  · cases hs
    exact hadv
  · next hsum =>
    by_cases hh : ∃ p, (n.atTcp a).HandsText a (n.mbufs a).ipSrc (n.mbufs a).segLen p
    · obtain ⟨p, hp⟩ := hh
      obtain ⟨v, hv⟩ := hp.mbuf hs
      have hle := ht (not_not.mp hsum) p hp
      rw [hv, atTcp_mbuf]
      refine ⟨Nat.le_add_right _ _, ?_⟩
      show _ + 54 + (tcpDataLen (tcpHdrAt _ _) _).toNat ≤ _
      omega
    · rw [tcpRecvAt_mbufs (fun p hp => hh ⟨p, hp⟩) hs]
      exact hadv

theorem TcpParse.parsed_iff (h : TcpParse localIp n a) (hfor : TcpForUs localIp (n.mbufs a)) :
    ParsedInside localIp n a ↔ TcpInside localIp n a := by
  have h54 := hfor.hdr
  constructor
  · rintro ⟨hreads, -, hwithin, hdrops⟩ -
    refine ⟨h.inside.mp hreads, fun hsum => ⟨fun p hp => ?_, fun p hp => ?_⟩⟩
    · by_contra hoff
      have hover : (n.mbufs a).Oversized := ⟨hfor.len, .inr (.inr ⟨hfor.p, h54, by omega⟩)⟩
      exact h.noHand.mp (hdrops hover).1 hsum p hp
    · obtain ⟨n', hn', -⟩ := hp.recv
      obtain ⟨v, hv⟩ := hp.mbuf hn'
      have hin := (hwithin n' (by rw [h.val, if_neg (not_not.mpr hsum), hn'])).2
      rw [hv, atTcp_mbuf] at hin
      change _ + 54 + (tcpDataLen (tcpHdrAt _ _) _).toNat ≤ _ at hin
      omega
  · intro hin
    obtain ⟨hlen, hrest⟩ := hin hfor
    refine ⟨h.inside.mpr hlen, fun n' hs => ?_, fun n' hs => ?_, fun hover => ?_⟩
    · have hq : n.QueuesOnly a (n.atTcp a) := .refl _ _
      rw [h.val] at hs
      split at hs
      · cases hs
        exact hq
      · exact (tcpRecvAt_queuesOnly hs : (n.atTcp a).QueuesOnly a n')
    · exact h.within h54 (fun hsum => (hrest hsum).2) hs
    · have hno : (n.mbufs a).tcpSum = 0 → ∀ p, ¬ (n.atTcp a).Hands a (n.mbufs a).ipSrc p := fun hsum p hp => by
        have hoff := (hrest hsum).1 p hp
        have := hover.tcp hfor.p hlen
        omega
      refine ⟨h.noHand.mpr hno, fun n' hs => ?_⟩
      rw [h.val] at hs
      split at hs
      · cases hs
        exact n.atTcp_eq a
      · next hsum =>
        rw [tcpRecvAt_dropped (hno (not_not.mp hsum)) hs]
        exact n.atTcp_eq a

/-- Received frames: `eth_recv` reads, queues and drops as it should just when the lengths of a TCP segment for us are
inside the frame.  Nothing is asked of other frames. -/
theorem framesInside (localIp : UInt32) (n : Stack) (a : Nat) :
    ParsedInside localIp n a ↔ TcpInside localIp n a := by
  cases ethRecvR_path localIp n a with
  | drop hnot k hk h =>
    exact iff_of_true (h.parsed hk) fun hfor => absurd hfor.p (hnot hfor.toIpForUs).2
  | udp hfor hp h =>
    refine iff_of_true (udp_parsed hfor hp h) fun htcp => ?_
    exact absurd (hp.symm.trans htcp.p) (by decide)
  | tcp hfor hp h =>
    by_cases h54 : 54 ≤ (n.mbufs a).len
    · exact (tcp_parse h54 h).parsed_iff ⟨hfor, hp, h54⟩
    · have hshort : tcpRecvR (n.setMbuf a ((n.mbufs a).adv 34)) a ((n.mbufs a).head + 14) (n.mbufs a).segLen =
          pure (some (n.setMbuf a ((n.mbufs a).adv 34))) := by
        unfold tcpRecvR
        dsimp only
        rw [setMbuf_self, mbufpull_short (show ¬ 20 ≤ (n.mbufs a).len - 34 by omega)]
      exact iff_of_true ((hshort ▸ h).parsed hfor.len) fun htcp => absurd htcp.hdr h54

end

/-- A frame of 54 bytes whose IP header says that 100 bytes follow the Ethernet header. -/
def longFrame : Stack := estabStack (segFrame 100 5 0 []) 0

/-- The checksum is taken over bytes behind the frame. -/
theorem longFrame_outside : (longFrame.mbufs 1).len = 54 ∧ RxEv.read 54 ∈ (ethRecvR localIp longFrame 1).log ∧
    ¬ ParsedInside localIp longFrame 1 := by
  have hread : RxEv.read 54 ∈ (ethRecvR localIp longFrame 1).log := by decide +kernel
  refine ⟨by decide, hread, fun h => ?_⟩
  have hin : 54 < 0 + (longFrame.mbufs 1).len := (h.reads _ hread).2
  exact absurd hin (by decide)

end InternetOs.Net
